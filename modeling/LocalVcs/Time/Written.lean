/-
# Written dates

A commit's date is written in one of two forms: numbers, as in `2023-01-01 12:00:00 +0000`, or the
form of mail headers (RFC 2822), as in `Sun, 1 Jan 2023 12:00:00 GMT (noon)`.  Reading takes two
steps: the text gives fields, and the fields give a moment if the calendar has it.

This is `parse_date` of `Config`.

* `Written.moment?`: which fields name a moment.
* `readDate?`: the moment that a text names in one of the two forms.
-/
import LocalVcs.Text.Blank
import LocalVcs.Time.Moment

namespace LocalVcs.Time

open Text

/-! ## 1. From fields to a moment -/

/-- The fields of a written date, as they stand. -/
structure Written where
  weekday : Option Nat
  date : Date
  hour : Nat
  minute : Nat
  second : Nat
  offset : Int

/-- The moment that the fields name.  A leap second, numbered 60, goes on from the second before
it. -/
def Written.moment? (w : Written) : Option Moment :=
  let known : Bool := -262143 ≤ w.date.year ∧ w.date.year ≤ 262142 ∧ w.date.exists?
  let clock : Bool := w.hour < 24 ∧ w.minute < 60 ∧ w.second ≤ 60
  let named : Bool := w.weekday.all (· = weekdayOf w.date.number)
  if known && clock && named then
    let local_ : Int :=
      w.date.number * 86400 + w.hour * 3600 + w.minute * 60 + (min w.second 59 : Nat)
    Moment.of? (local_ - w.offset) (if w.second = 60 then nanoseconds else 0) w.offset
  else none

/-! ## 2. Reading pieces -/

/-- Reads a value off the front of a text, or refuses. -/
abbrev Reader := StateT (List Char) Option

namespace Reader

/-- Exactly this character. -/
def char (c : Char) : Reader Unit := fun cs =>
  match cs with
  | d :: rest => if c = d then some ((), rest) else none
  | [] => none

/-- Any blanks, or none. -/
def blanks : Reader Unit := fun cs => some ((), trimStart cs)

/-- At least one blank. -/
def someBlanks : Reader Unit := fun cs =>
  if (trimStart cs).length < cs.length then some ((), trimStart cs) else none

/-- Leading digits, as many as there are but at most `most`; refuses fewer than `least`. -/
def digits (least : Nat) (most : Option Nat) : Reader (List Char) := fun cs =>
  let taken := ((most.map cs.take).getD cs).takeWhile Char.isDigit
  if least ≤ taken.length then some (taken, cs.drop taken.length) else none

/-- The number that leading digits spell. -/
def number (least : Nat) (most : Option Nat) : Reader Nat :=
  (Nat.ofDigitChars 10 · 0) <$> digits least most

/-- The place in `names` of the name that the text begins with, in letters of either case. -/
def name (names : List String) : Reader Nat := fun cs =>
  let start := (cs.take 3).map Char.toLower
  (names.findIdx? fun n => n.toList.map Char.toLower = start).map fun i => (i, cs.drop 3)

/-- What `r` reads; `none` where it refuses, with nothing read. -/
def maybe (r : Reader α) : Reader (Option α) := fun cs =>
  match r cs with
  | some (a, rest) => some (some a, rest)
  | none => some (none, cs)

/-- A zone: a sign (one of `minus` for west), two digits of hours, what `between` reads, and two
digits of minutes. -/
def zone (minus : List Char) (between : Reader Unit) : Reader Int := do
  let west ← (fun cs => match cs with
    | c :: rest => if c = '+' then some (false, rest)
        else if c ∈ minus then some (true, rest) else none
    | [] => none : Reader Bool)
  let hours ← number 2 (some 2)
  between
  let minutes ← number 2 (some 2)
  if minutes < 60 then
    let seconds : Int := hours * 3600 + minutes * 60
    return if west then -seconds else seconds
  else failure

/-- The value that a text is read as from end to end. -/
def whole (r : Reader α) (cs : List Char) : Option α :=
  match r cs with
  | some (a, []) => some a
  | _ => none

end Reader

open Reader

/-! ## 3. Numbers -/

/-- A year: up to four digits, or any number of them after a sign. -/
def numericYear : Reader Int := fun cs =>
  match cs with
  | '-' :: rest => ((fun n : Nat => -(n : Int)) <$> number 1 none) rest
  | '+' :: rest => ((fun n : Nat => (n : Int)) <$> number 1 none) rest
  | _ => ((fun n : Nat => (n : Int)) <$> number 1 (some 4)) cs

/-- One or two digits, after blanks. -/
def shortNumber : Reader Nat := do
  blanks
  number 1 (some 2)

/-- What may stand between the hours and the minutes of a zone. -/
def colonsAndBlanks : Reader Unit := fun cs =>
  some ((), cs.dropWhile fun c => c = ':' || isBlank c)

/-- Year, month and day with hyphens, the time with colons, and the zone.  Blanks may stand before
each number and are not needed before the zone. -/
def numericForm : Reader Written := do
  blanks
  let year ← numericYear
  char '-'
  let month ← shortNumber
  char '-'
  let day ← shortNumber
  let hour ← shortNumber
  char ':'
  let minute ← shortNumber
  char ':'
  let second ← shortNumber
  blanks
  let offset ← zone ['-', '\u2212'] colonsAndBlanks
  return ⟨none, ⟨year, month, day⟩, hour, minute, second, offset⟩

/-! ## 4. Mail headers -/

/-- The text after the parenthesis that closes a comment, `depth` of them being open.  A backslash
takes the next character as it is. -/
def closeComment : Nat → List Char → Option (List Char)
  | _, [] => none
  | depth, '\\' :: _ :: rest => closeComment depth rest
  | depth, '(' :: rest => closeComment (depth + 1) rest
  | depth, ')' :: rest => if depth ≤ 1 then some rest else closeComment (depth - 1) rest
  | depth, _ :: rest => closeComment depth rest

/-- The text after a comment, blanks before it included. -/
def afterComment? (cs : List Char) : Option (List Char) :=
  match trimStart cs with
  | '(' :: rest => closeComment 1 rest
  | _ => none

/-- The text after at most `count` comments. -/
def afterComments : Nat → List Char → List Char
  | 0, cs => cs
  | count + 1, cs =>
    match afterComment? cs with
    | some rest => afterComments count rest
    | none => cs

/-- A year of two digits lies from 1950 to 2049, one of three digits counts from 1900. -/
def mailYear : Reader Int := do
  let taken ← digits 2 none
  let year : Int := Nat.ofDigitChars 10 taken 0
  return if taken.length = 2 then (if year < 50 then year + 2000 else year + 1900)
    else if taken.length = 3 then year + 1900
    else year

/-- The hours west of UTC that the letters of a zone stand for.  A single letter says nothing about
the zone and counts as UTC; J is none. -/
def namedZone? (letters : List Char) : Option Int :=
  let lower := String.ofList (letters.map Char.toLower)
  if lower ∈ ["gmt", "ut", "z"] then some 0
  else if lower = "edt" then some 4
  else if lower ∈ ["est", "cdt"] then some 5
  else if lower ∈ ["cst", "mdt"] then some 6
  else if lower ∈ ["mst", "pdt"] then some 7
  else if lower = "pst" then some 8
  else if lower.length = 1 ∧ lower ≠ "j" then some 0
  else none

/-- A zone in letters, or as a sign and four digits. -/
def mailZone : Reader Int := fun cs =>
  let letters := cs.takeWhile Char.isAlpha
  if letters = [] then zone ['-'] (pure ()) cs
  else (namedZone? letters).map fun hours => (-(hours * 3600), cs.drop letters.length)

/-- Weekday with a comma, day, name of the month, year, time and zone, then comments.  The weekday
and the seconds may be left out. -/
def mailForm : Reader Written := do
  blanks
  let weekday ← maybe (name weekdayNames)
  if weekday.isSome then char ','
  blanks
  let day ← number 1 (some 2)
  someBlanks
  let month ← name monthNames
  someBlanks
  let year ← mailYear
  someBlanks
  let hour ← number 2 (some 2)
  blanks
  char ':'
  blanks
  let minute ← number 2 (some 2)
  let colon ← maybe (do blanks; char ':')
  let second ← if colon.isSome then number 2 (some 2) else pure 0
  someBlanks
  let offset ← mailZone
  modify fun cs => afterComments cs.length cs
  return ⟨weekday, ⟨year, month + 1, day⟩, hour, minute, second, offset⟩

/-! ## 5. Both forms -/

/-- The moment that a text names as numbers or, failing that, as a mail header does. -/
def readDate? (text : String) : Option Moment :=
  ((numericForm.whole text.toList).bind Written.moment?).orElse fun _ =>
    (mailForm.whole text.toList).bind Written.moment?

end LocalVcs.Time
