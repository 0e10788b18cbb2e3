/-
# Moments

A moment lies in the calendar's range, to the nanosecond, and is told in a zone less than a day from
UTC.  Where a moment is written down, only its whole second is kept, and its zone in hours and
minutes.

`Moment` is the `DateTime` of a commit's `timestamp`; `offsetText` is the `%z` of `encode_body`,
`readOffset` is `parse_offset`, and `logDate` is `LOG_DATE_FORMAT`.

* `Moment.told`: what is kept; `Moment.Tellable`: the zones that can be read again.
* `Moment.ofParts?_told`: what is kept of a moment is made again from its two numbers.
* `readOffset_offsetText`: the text of a zone is read as the zone in whole minutes.
-/
import LocalVcs.Text.Decimal
import LocalVcs.Time.Calendar

namespace LocalVcs.Time

open Text

/-! ## 1. Moments -/

/-- The first second of the year -262143. -/
def firstSecond : Int := -8334601228800

/-- The last second of the year 262142. -/
def lastSecond : Int := 8210266876799

/-- The nanoseconds of a second. -/
def nanoseconds : Nat := 1000000000

/-- A second, counted from the start of 1970 in UTC, the nanoseconds that have passed since, and the
zone that the moment is told in, in seconds east of UTC.  In a leap second the nanoseconds of the
last second of a minute go on. -/
@[ext] structure Moment where
  seconds : Int
  fraction : Nat
  offset : Int
  first_le : firstSecond ≤ seconds
  le_last : seconds ≤ lastSecond
  fraction_lt : fraction < nanoseconds ∨ fraction < 2 * nanoseconds ∧ seconds % 60 = 59
  offset_gt : -86400 < offset
  offset_lt : offset < 86400
  deriving DecidableEq

namespace Moment

/-- The moment with these numbers, when they are in range. -/
def of? (seconds : Int) (fraction : Nat) (offset : Int) : Option Moment :=
  if h : (firstSecond ≤ seconds ∧ seconds ≤ lastSecond) ∧ (-86400 < offset ∧ offset < 86400) ∧
      (fraction < nanoseconds ∨ fraction < 2 * nanoseconds ∧ seconds % 60 = 59) then
    some ⟨seconds, fraction, offset, h.1.1, h.1.2, h.2.2, h.2.1.1, h.2.1.2⟩
  else none

theorem offset_of? {seconds offset : Int} {fraction : Nat} {m : Moment}
    (h : of? seconds fraction offset = some m) : m.offset = offset := by
  unfold of? at h
  split at h
  · rw [← Option.some.inj h]
  · cases h

/-- The moment at the beginning of a second. -/
def ofParts? (seconds offset : Int) : Option Moment := of? seconds 0 offset

/-- Whether a moment is the beginning of a second, told in a zone of whole minutes. -/
def Whole (m : Moment) : Prop := m.fraction = 0 ∧ m.offset % 60 = 0

instance (m : Moment) : Decidable m.Whole := inferInstanceAs (Decidable (_ ∧ _))

/-- The start of 1970, told in UTC. -/
def epoch : Moment where
  seconds := 0
  fraction := 0
  offset := 0
  first_le := by decide
  le_last := by decide
  fraction_lt := by decide
  offset_gt := by decide
  offset_lt := by decide

theorem ofParts?_of_whole {m : Moment} (h : m.Whole) : ofParts? m.seconds m.offset = some m := by
  rw [ofParts?, of?, dif_pos
    ⟨⟨m.first_le, m.le_last⟩, ⟨m.offset_gt, m.offset_lt⟩, Or.inl (by decide)⟩]
  cases m
  simp_all [Whole]

end Moment

/-! ## 2. The text of a zone -/

/-- A zone as a sign, two digits of hours and two of minutes.  Seconds are rounded to the nearest
minute, half a minute away from zero; the sign is that of the exact zone. -/
def offsetText (offset : Int) : List Char :=
  let minutes := (offset.natAbs + 30) / 60
  (if offset < 0 then '-' else '+') :: Decimal.padded 2 (minutes / 60) ++
    Decimal.padded 2 (minutes % 60)

/-- Why a text is no zone. -/
inductive OffsetDefect
  | malformed
  | outOfRange
  deriving DecidableEq

/-- Reads the text of a zone: a sign and four digits, less than a day from UTC. -/
def readOffset : List Char → Except OffsetDefect Int
  | sign :: digits =>
    if (sign = '+' ∨ sign = '-') ∧ digits.length = 4 ∧ digits.all Char.isDigit then
      let seconds : Int :=
        Nat.ofDigitChars 10 (digits.take 2) 0 * 3600 + Nat.ofDigitChars 10 (digits.drop 2) 0 * 60
      if seconds < 86400 then .ok (if sign = '-' then -seconds else seconds)
      else .error .outOfRange
    else .error .malformed
  | [] => .error .malformed

theorem padded_two {n : Nat} (h : n < 100) :
    (Decimal.padded 2 n).length = 2 ∧ (Decimal.padded 2 n).all Char.isDigit = true ∧
      Nat.ofDigitChars 10 (Decimal.padded 2 n) 0 = n := by
  have : ∀ m : Fin 100, (Decimal.padded 2 m).length = 2 ∧
      (Decimal.padded 2 m).all Char.isDigit = true ∧
      Nat.ofDigitChars 10 (Decimal.padded 2 m) 0 = m := by decide +kernel
  exact this ⟨n, h⟩

theorem readOffset_digits {sign : Char} (hs : sign = '+' ∨ sign = '-') {hours minutes : Nat}
    (hh : hours < 100) (hm : minutes < 100) :
    readOffset (sign :: (Decimal.padded 2 hours ++ Decimal.padded 2 minutes)) =
      if (hours * 3600 + minutes * 60 : Int) < 86400 then
        .ok (if sign = '-' then -(hours * 3600 + minutes * 60 : Int)
          else hours * 3600 + minutes * 60)
      else .error .outOfRange := by
  obtain ⟨lh, dh, vh⟩ := padded_two hh
  obtain ⟨lm, dm, vm⟩ := padded_two hm
  have first : (Decimal.padded 2 hours ++ Decimal.padded 2 minutes).take 2 =
      Decimal.padded 2 hours := List.take_left' lh
  have last : (Decimal.padded 2 hours ++ Decimal.padded 2 minutes).drop 2 =
      Decimal.padded 2 minutes := List.drop_left' lh
  have four : (Decimal.padded 2 hours ++ Decimal.padded 2 minutes).length = 4 := by
    rw [List.length_append, lh, lm]
  have digits : (Decimal.padded 2 hours ++ Decimal.padded 2 minutes).all Char.isDigit = true := by
    rw [List.all_append, dh, dm]; rfl
  simp [readOffset, hs, four, digits, first, last, vh, vm]

/-- A zone in whole minutes, half a minute rounded away from zero. -/
def roundedOffset (offset : Int) : Int :=
  let rounded : Int := ((offset.natAbs + 30) / 60 * 60 : Nat)
  if offset < 0 then -rounded else rounded

theorem roundedOffset_of_whole {offset : Int} (whole : offset % 60 = 0) :
    roundedOffset offset = offset := by
  simp only [roundedOffset]
  split <;> omega

theorem roundedOffset_lt {offset : Int} (low : -86370 < offset) (high : offset < 86370) :
    -86400 < roundedOffset offset ∧ roundedOffset offset < 86400 := by
  simp only [roundedOffset]
  split <;> omega

/-- The text of a zone is read as the zone in whole minutes, if that is less than a day from UTC. -/
theorem readOffset_offsetText {offset : Int} (low : -86370 < offset) (high : offset < 86370) :
    readOffset (offsetText offset) = .ok (roundedOffset offset) := by
  rw [offsetText, List.cons_append, readOffset_digits (by split <;> simp) (by omega) (by omega),
    if_pos (by omega)]
  by_cases h : offset < 0
  · simp only [roundedOffset, h, if_true]; congr 1; omega
  · simp only [roundedOffset, h, if_false, show ('+' = '-') = False by simp]; congr 1; omega

/-- Half a minute or less from a day away from UTC, what is written is a whole day, which is not
read. -/
theorem readOffset_offsetText_of_far {offset : Int} (far : 86370 ≤ offset.natAbs)
    (near : offset.natAbs < 86400) : readOffset (offsetText offset) = .error .outOfRange := by
  rw [offsetText, List.cons_append, readOffset_digits (by split <;> simp) (by omega) (by omega),
    if_neg (by omega)]

/-! ## 3. What is kept of a moment -/

namespace Moment

/-- Whether the zone of a moment can be read again: in whole minutes it is less than a day from UTC,
and to the west of UTC it is not UTC itself, which would be written with a plus sign. -/
def Tellable (m : Moment) : Prop :=
  -86370 < m.offset ∧ m.offset < 86370 ∧ (m.offset < 0 → m.offset ≤ -30)

instance (m : Moment) : Decidable m.Tellable :=
  inferInstanceAs (Decidable (_ ∧ _ ∧ (_ → _)))

/-- A zone of whole minutes can be read again. -/
theorem tellable_of_minutes {m : Moment} (whole : m.offset % 60 = 0) : m.Tellable := by
  have low := m.offset_gt
  have high := m.offset_lt
  unfold Tellable
  omega

theorem Whole.tellable {m : Moment} (h : m.Whole) : m.Tellable := tellable_of_minutes h.2

/-- The second of a moment, told in UTC. -/
def utc (m : Moment) : Moment where
  seconds := m.seconds
  fraction := 0
  offset := 0
  first_le := m.first_le
  le_last := m.le_last
  fraction_lt := Or.inl (by decide)
  offset_gt := by decide
  offset_lt := by decide

/-- What is kept of a moment where it is written down: its whole second, and its zone in whole
minutes where that can be read again. -/
def told (m : Moment) : Moment where
  seconds := m.seconds
  fraction := 0
  offset := if m.Tellable then roundedOffset m.offset else m.offset
  first_le := m.first_le
  le_last := m.le_last
  fraction_lt := Or.inl (by decide)
  offset_gt := by
    split
    · rename_i h
      exact (roundedOffset_lt h.1 h.2.1).1
    · exact m.offset_gt
  offset_lt := by
    split
    · rename_i h
      exact (roundedOffset_lt h.1 h.2.1).2
    · exact m.offset_lt

variable {m : Moment}

@[simp] theorem seconds_told : m.told.seconds = m.seconds := rfl

theorem Tellable.offset_told (h : m.Tellable) : m.told.offset = roundedOffset m.offset := if_pos h

theorem Tellable.whole_told (h : m.Tellable) : m.told.Whole := by
  refine ⟨rfl, ?_⟩
  rw [h.offset_told]
  simp only [roundedOffset]
  split <;> omega

/-- Nothing is lost of a moment at the beginning of a second in a zone of whole minutes. -/
theorem Whole.told_eq (h : m.Whole) : m.told = m :=
  Moment.ext rfl h.1.symm (h.tellable.offset_told.trans (roundedOffset_of_whole h.2))

/-- What is kept of a moment is made again from its two numbers. -/
theorem Tellable.ofParts?_told (h : m.Tellable) :
    ofParts? m.seconds (roundedOffset m.offset) = some m.told := by
  have made := ofParts?_of_whole h.whole_told
  rwa [h.offset_told] at made

/-- What is kept of a moment is written as the moment is. -/
theorem offsetText_told (m : Moment) : offsetText m.told.offset = offsetText m.offset := by
  by_cases h : m.Tellable
  case neg => exact congrArg offsetText (if_neg h)
  rw [h.offset_told]
  obtain ⟨-, -, west⟩ := h
  have sign : roundedOffset m.offset < 0 ↔ m.offset < 0 := by
    simp only [roundedOffset]
    split <;> omega
  have minutes : ((roundedOffset m.offset).natAbs + 30) / 60 = (m.offset.natAbs + 30) / 60 := by
    simp only [roundedOffset]
    split <;> omega
  simp only [offsetText, sign, minutes]

end Moment

/-! ## 4. The date of a log entry -/

/-- A year with at least four digits, and with a sign when it is not from 0 to 9999. -/
def yearText (year : Int) : List Char :=
  let digits := Decimal.padded 4 year.natAbs
  if year < 0 then '-' :: digits else if 9999 < year then '+' :: digits else digits

/-- The zone of a place, in seconds east of UTC, at each second. -/
abbrev Zone := Int → Int

/-- A moment as the log shows it to a reader in the zone `offset`: weekday, month, day, time, year
and zone.  A leap second has the number 60. -/
def logDate (offset : Int) (m : Moment) : List Char :=
  let shown := m.seconds + offset
  let day := shown / 86400
  let second := (shown % 86400).toNat
  let date := Date.ofNumber day
  (weekdayNames.getD (weekdayOf day) "").toList ++ ' ' ::
    (monthNames.getD (date.month - 1) "").toList ++ ' ' :: Decimal.ofNat date.day ++ ' ' ::
    Decimal.padded 2 (second / 3600) ++ ':' :: Decimal.padded 2 (second / 60 % 60) ++ ':' ::
    Decimal.padded 2 (second % 60 + m.fraction / nanoseconds) ++ ' ' :: yearText date.year ++ ' ' ::
    offsetText offset

end LocalVcs.Time
