/-
# Commits read back from their texts

The text of a commit is lines, an empty line and the message.  Where no tracked name breaks a line
and the zone of the moment can be told, reading the text gives what is kept of the commit: all of
it, where the moment is the beginning of a second in a zone of whole minutes.

* `Commit.Legible.ofBody?_body`: what is kept of a commit is read back.
* `Commit.ofBody?_body_of_far`: not so where the zone is too far from UTC.
* `Commit.Readable.ofBody?_body`: the round trip.
* `Commit.Readable.eq_of_encoding_eq`: so different commits have different encodings.
* `Commit.Readable.lossless`: the whole encoding, header and body, and the id that it gives.
-/
import LocalVcs.Commit
import LocalVcs.Proofs.NameMap
import Mathlib.Data.List.Basic

namespace LocalVcs

open Text

/-! ## 1. Cutting -/

namespace Text

theorem isPrefixOf?_append (front rest : List Char) :
    front.isPrefixOf? (front ++ rest) = some rest := by
  induction front with
  | nil => rfl
  | cons c front ih => simp [List.isPrefixOf?, ih]

theorem after?_append (start : String) (rest : List Char) :
    after? start (start.toList ++ rest) = some rest := isPrefixOf?_append _ _

/-- Characters that do not begin the mark are passed over. -/
theorem cutAt_append {first : Char} {mark before : List Char} (h : first ∉ before)
    (rest : List Char) :
    cutAt (first :: mark) (before ++ rest) =
      (cutAt (first :: mark) rest).map fun cut => (before ++ cut.1, cut.2) := by
  induction before with
  | nil => simp
  | cons c before ih =>
    simp only [List.mem_cons, not_or] at h
    have other : (first == c) = false := by simpa using h.1
    simp only [List.cons_append, cutAt, List.isPrefixOf?, other, Bool.false_eq_true, if_false,
      ih h.2]
    cases cutAt (first :: mark) rest <;> rfl

theorem cutAt_mark (mark rest : List Char) (h : mark ≠ []) :
    cutAt mark (mark ++ rest) = some ([], rest) := by
  cases mark with
  | nil => exact absurd rfl h
  | cons c mark =>
    rw [List.cons_append, cutAt, ← List.cons_append, isPrefixOf?_append]

theorem cutAt_char {c : Char} {before : List Char} (h : c ∉ before) (after : List Char) :
    cutAt [c] (before ++ c :: after) = some (before, after) := by
  rw [cutAt_append h, show c :: after = [c] ++ after from rfl, cutAt_mark _ _ (by simp)]
  simp

/-! ## 2. Lines -/

/-- A line that a text can be put together from, and is found in again. -/
structure Line (cs : List Char) : Prop where
  some_ : cs ≠ []
  noFeed : '\n' ∉ cs
  noReturn : '\r' ∉ cs

/-- The first empty line is found behind all lines. -/
theorem cutAt_lines {lines : List (List Char)} (some_ : lines ≠ []) (h : ∀ l ∈ lines, Line l)
    (rest : List Char) :
    cutAt ['\n', '\n'] (['\n'].intercalate lines ++ '\n' :: '\n' :: rest) =
      some (['\n'].intercalate lines, rest) := by
  induction lines with
  | nil => exact absurd rfl some_
  | cons line lines ih =>
    have hline := h line (by simp)
    cases lines with
    | nil =>
      rw [List.intercalate_singleton, cutAt_append hline.noFeed,
        show '\n' :: '\n' :: rest = ['\n', '\n'] ++ rest from rfl, cutAt_mark _ _ (by simp)]
      simp
    | cons next lines =>
      have hnext := h next (by simp)
      obtain ⟨c, next', rfl⟩ := List.exists_cons_of_ne_nil hnext.some_
      have other : c ≠ '\n' := fun hc => hnext.noFeed (by simp [hc])
      have ih := ih (by simp) fun l hl => h l (List.mem_cons_of_mem _ hl)
      -- the line feed between two lines has a character of the next line behind it
      have skip : ∀ tail, cutAt ['\n', '\n'] ('\n' :: c :: tail) =
          (cutAt ['\n', '\n'] (c :: tail)).map fun cut => ('\n' :: cut.1, cut.2) := by
        intro tail
        have : ('\n' == c) = false := by simpa using Ne.symm other
        rw [cutAt]
        simp [List.isPrefixOf?, this]
      obtain ⟨tail, htail⟩ : ∃ tail, ['\n'].intercalate ((c :: next') :: lines) = c :: tail := by
        cases lines with
        | nil => exact ⟨next', by simp⟩
        | cons l lines => exact ⟨next' ++ '\n' :: ['\n'].intercalate (l :: lines), by simp⟩
      have whole : ['\n'].intercalate (line :: (c :: next') :: lines) =
          line ++ '\n' :: c :: tail := by
        rw [List.intercalate_cons_cons, htail]; simp
      rw [whole, List.append_assoc, cutAt_append hline.noFeed, List.cons_append, List.cons_append,
        skip, ← List.cons_append, ← htail, ih]
      simp

theorem withoutReturn_eq {line : List Char} (h : '\r' ∉ line) : withoutReturn line = line := by
  rw [withoutReturn, if_neg]
  intro hlast
  exact h (List.mem_of_getLast? hlast)

theorem lines_intercalate {ls : List (List Char)} (some_ : ls ≠ []) (h : ∀ l ∈ ls, Line l) :
    lines (['\n'].intercalate ls) = ls := by
  have pieces : (['\n'].intercalate ls).splitOn '\n' = ls :=
    List.splitOn_intercalate '\n' (fun l hl => (h l hl).noFeed) some_
  have kept : ls.dropLast.map withoutReturn = ls.dropLast := by
    refine (List.map_congr_left fun l hl => ?_).trans (List.map_id _)
    exact withoutReturn_eq (h l (List.dropLast_subset ls hl)).noReturn
  obtain ⟨front, last, rfl⟩ := (List.eq_nil_or_concat ls).resolve_left some_
  have hlast : last ≠ [] := (h last (by simp)).some_
  rw [List.concat_eq_append] at pieces kept ⊢
  simp only [lines, pieces, kept]
  simp [hlast, Option.filter]

end Text

/-! ## 3. The lines of a commit -/

namespace Text.Decimal

theorem isDigit_of_mem_ofNat {n : Nat} {c : Char} (h : c ∈ ofNat n) : c.isDigit = true :=
  Nat.isDigit_of_mem_toDigits (by decide) (by decide) h

theorem mem_ofInt {n : Int} {c : Char} (h : c ∈ ofInt n) : c = '-' ∨ c.isDigit = true := by
  unfold ofInt at h
  split at h
  · rcases List.mem_cons.mp h with h | h
    · exact Or.inl h
    · exact Or.inr (isDigit_of_mem_ofNat h)
  · exact Or.inr (isDigit_of_mem_ofNat h)

theorem isDigit_of_mem_padded {width n : Nat} {c : Char} (h : c ∈ padded width n) :
    c.isDigit = true := by
  rcases List.mem_append.mp h with h | h
  · rw [(List.mem_replicate.mp h).2]; decide
  · exact isDigit_of_mem_ofNat h

theorem not_mem_ofInt {n : Int} {c : Char} (sign : c ≠ '-') (digit : c.isDigit = false) :
    c ∉ ofInt n := by
  intro h
  rcases mem_ofInt h with h | h
  · exact sign h
  · simp [digit] at h

end Text.Decimal

theorem Time.not_mem_offsetText {offset : Int} {c : Char} (plus : c ≠ '+') (minus : c ≠ '-')
    (digit : c.isDigit = false) : c ∉ Time.offsetText offset := by
  have noPad : ∀ n, c ∉ Decimal.padded 2 n := fun n h => by
    simp [Decimal.isDigit_of_mem_padded h] at digit
  simp only [Time.offsetText, List.cons_append, List.mem_cons, List.mem_append, noPad, or_self,
    or_false]
  split
  · exact minus
  · exact plus

namespace ObjectId

theorem not_mem_text {c : Char} (h : ¬Sha1.IsHexDigit c) (id : ObjectId) : c ∉ id.text.toList :=
  fun hc => h (id.digits c hc)

end ObjectId

namespace Commit

/-- A commit whose text can be read: no tracked name breaks a line, and the zone of the moment can
be told. -/
structure Legible (c : Commit) : Prop where
  names : ∀ name ∈ c.manifest, '\n' ∉ name.toList ∧ '\r' ∉ name.toList
  tellable : c.moment.Tellable

/-- A commit whose text tells all of it: no tracked name breaks a line, and the moment is the
beginning of a second, told in a zone of whole minutes. -/
structure Readable (c : Commit) : Prop where
  names : ∀ name ∈ c.manifest, '\n' ∉ name.toList ∧ '\r' ∉ name.toList
  whole : c.moment.Whole

theorem Readable.legible {c : Commit} (h : c.Readable) : c.Legible := ⟨h.names, h.whole.tellable⟩

/-- Nothing of such a commit is lost. -/
theorem Readable.told_eq {c : Commit} (h : c.Readable) : c.told = c := by
  rw [told, h.whole.told_eq]

theorem Legible.readable_told {c : Commit} (h : c.Legible) : c.told.Readable :=
  ⟨h.names, h.tellable.whole_told⟩

theorem momentLine_told (m : Time.Moment) : momentLine m.told = momentLine m := by
  unfold momentLine
  rw [m.offsetText_told, Time.Moment.seconds_told]

/-- What is kept of a commit is written as the commit is. -/
theorem encoding_told (c : Commit) : c.told.encoding = c.encoding := by
  have same : c.told.body = c.body := by simp only [body, headerLines, told, momentLine_told]
  rw [encoding, same, encoding]

theorem id_told (c : Commit) : c.told.id = c.id := by
  rw [id_eq, id_eq, encoding_told]

theorem not_mem_line {word : String} {middle : List Char} {c : Char}
    (hword : c ∉ word.toList) (hmiddle : c ∉ middle) (blank : c ≠ ' ') {last : List Char}
    (hlast : c ∉ last) : c ∉ word.toList ++ middle ++ ' ' :: last :=
  List.not_mem_append (List.not_mem_append hword hmiddle)
    (List.not_mem_cons_of_ne_of_not_mem blank hlast)

theorem line_momentLine (moment : Time.Moment) : Line (momentLine moment) where
  some_ := List.append_ne_nil_of_right_ne_nil _ (List.cons_ne_nil _ _)
  noFeed := not_mem_line (by decide) (Decimal.not_mem_ofInt (by decide) (by decide)) (by decide)
    (Time.not_mem_offsetText (by decide) (by decide) (by decide))
  noReturn := not_mem_line (by decide) (Decimal.not_mem_ofInt (by decide) (by decide)) (by decide)
    (Time.not_mem_offsetText (by decide) (by decide) (by decide))

theorem line_parentLine (id : ObjectId) : Line (parentLine id) where
  some_ := List.append_ne_nil_of_left_ne_nil (by decide) _
  noFeed := List.not_mem_append (by decide) (id.not_mem_text (by decide))
  noReturn := List.not_mem_append (by decide) (id.not_mem_text (by decide))

theorem line_fileLine {entry : String × ObjectId}
    (h : '\n' ∉ entry.1.toList ∧ '\r' ∉ entry.1.toList) : Line (fileLine entry) where
  some_ := List.append_ne_nil_of_right_ne_nil _ (List.cons_ne_nil _ _)
  noFeed := not_mem_line (by decide) (entry.2.not_mem_text (by decide)) (by decide) h.1
  noReturn := not_mem_line (by decide) (entry.2.not_mem_text (by decide)) (by decide) h.2

theorem line_of_mem_headerLines {c : Commit}
    (names : ∀ name ∈ c.manifest, '\n' ∉ name.toList ∧ '\r' ∉ name.toList) :
    ∀ l ∈ c.headerLines, Line l := by
  intro l hl
  simp only [headerLines, List.mem_cons, List.mem_append, List.mem_map] at hl
  rcases hl with rfl | ⟨id, -, rfl⟩ | ⟨entry, hentry, rfl⟩
  · exact line_momentLine _
  · exact line_parentLine id
  · refine line_fileLine (names entry.1 ?_)
    exact NameMap.mem_iff_exists_getElem?.mpr
      ⟨entry.2, Std.ExtTreeMap.mem_toList_iff_getElem?_eq_some.mp hentry⟩

/-! ## 4. Reading the lines -/

theorem cutAt_seconds (seconds : Int) (offset : List Char) :
    cutAt [' '] (Decimal.ofInt seconds ++ ' ' :: offset) = some (Decimal.ofInt seconds, offset) :=
  cutAt_char (Decimal.not_mem_ofInt (by decide) (by decide)) offset

theorem readInt64?_seconds (moment : Time.Moment) :
    Decimal.readInt64? (Decimal.ofInt moment.seconds) = some moment.seconds :=
  Decimal.readInt64?_ofInt
    (Int.le_trans (by decide) moment.first_le) (Int.le_trans moment.le_last (by decide))

theorem readMoment_momentLine {moment : Time.Moment} (h : moment.Tellable) :
    readMoment (Decimal.ofInt moment.seconds ++ ' ' :: Time.offsetText moment.offset) =
      .ok moment.told := by
  have offset := Time.readOffset_offsetText h.1 h.2.1
  simp only [readMoment, cutAt_seconds, Option.elim_some, bind, Except.bind, readInt64?_seconds,
    offset, h.ofParts?_told]

theorem readMoment_of_far {moment : Time.Moment} (far : 86370 ≤ moment.offset.natAbs) :
    readMoment (Decimal.ofInt moment.seconds ++ ' ' :: Time.offsetText moment.offset) =
      .error (.offsetRange (String.ofList (Time.offsetText moment.offset))) := by
  have low := moment.offset_gt
  have high := moment.offset_lt
  have offset := Time.readOffset_offsetText_of_far far (by omega)
  simp only [readMoment, cutAt_seconds, Option.elim_some, bind, Except.bind, readInt64?_seconds,
    offset]

theorem readId_text (id : ObjectId) : readId id.text.toList = .ok id := by
  rw [readId, String.ofList_toList, ObjectId.ofText?_text]; rfl

theorem addLine_parentLine (read : List ObjectId × Manifest) (id : ObjectId) :
    addLine read (parentLine id) = .ok (read.1 ++ [id], read.2) := by
  have word : after? "parent " (parentLine id) = some id.text.toList := after?_append "parent " _
  rw [addLine, word]
  simp only [readId_text, bind, Except.bind]
  rfl

theorem addLine_fileLine (read : List ObjectId × Manifest) (entry : String × ObjectId) :
    addLine read (fileLine entry) = .ok (read.1, read.2.insert entry.1 entry.2) := by
  have noParent : after? "parent " (fileLine entry) = none := rfl
  have cut := cutAt_char (show ' ' ∉ entry.2.text.toList from entry.2.not_mem_text (by decide))
    entry.1.toList
  have word : after? "file " (fileLine entry) =
      some (entry.2.text.toList ++ ' ' :: entry.1.toList) := by
    rw [show fileLine entry = "file ".toList ++ _ from List.append_assoc _ _ _]
    exact after?_append "file " _
  rw [addLine, noParent, word]
  simp only [cut, readId_text, bind, Except.bind, String.ofList_toList]
  rfl

theorem foldlM_parentLine (ids : List ObjectId) (read : List ObjectId × Manifest) :
    (ids.map parentLine).foldlM addLine read = .ok (read.1 ++ ids, read.2) := by
  induction ids generalizing read with
  | nil => simp; rfl
  | cons id ids ih =>
    rw [List.map_cons, List.foldlM_cons, addLine_parentLine]
    exact (ih _).trans (by simp)

theorem foldlM_fileLine (entries : List (String × ObjectId)) (read : List ObjectId × Manifest) :
    (entries.map fileLine).foldlM addLine read =
      .ok (read.1, entries.foldl (fun built entry => built.insert entry.1 entry.2) read.2) := by
  induction entries generalizing read with
  | nil => rfl
  | cons entry entries ih =>
    rw [List.map_cons, List.foldlM_cons, addLine_fileLine]
    exact ih _

theorem foldlM_addLine (c : Commit) :
    (c.parents.map parentLine ++ c.manifest.toList.map fileLine).foldlM addLine ([], ∅) =
      .ok (c.parents, c.manifest) := by
  rw [List.foldlM_append, foldlM_parentLine]
  refine (foldlM_fileLine _ _).trans ?_
  rw [NameMap.foldl_insert_toList]
  rfl

/-- Where no tracked name breaks a line, all but the moment is read back as it is. -/
theorem ofText?_body {c : Commit}
    (names : ∀ name ∈ c.manifest, '\n' ∉ name.toList ∧ '\r' ∉ name.toList) :
    ofText? c.body =
      ((readMoment (Decimal.ofInt c.moment.seconds ++ ' ' ::
        Time.offsetText c.moment.offset)).mapError Damage.commitText).map fun moment =>
          { c with moment := moment } := by
  have some_ : c.headerLines ≠ [] := List.cons_ne_nil _ _
  have each := line_of_mem_headerLines names
  have cut := cutAt_lines some_ each c.message.toList
  have first : after? "timestamp " (momentLine c.moment) =
      some (Decimal.ofInt c.moment.seconds ++ ' ' :: Time.offsetText c.moment.offset) := by
    rw [show momentLine c.moment = "timestamp ".toList ++ _ from List.append_assoc _ _ _]
    exact after?_append "timestamp " _
  rw [ofText?, body, String.toList_ofList, cut, Option.elim_some]
  simp only [bind, Except.bind, lines_intercalate some_ each]
  simp only [headerLines, first, foldlM_addLine, String.ofList_toList]
  cases readMoment
    (Decimal.ofInt c.moment.seconds ++ ' ' :: Time.offsetText c.moment.offset) <;> rfl

/-- **What is kept of a commit is read back from its text.** -/
theorem Legible.ofBody?_body {c : Commit} (h : c.Legible) :
    ofBody? (Bytes.ofText c.body) = .ok c.told := by
  rw [ofBody?, Bytes.text?_ofText]
  dsimp only
  rw [ofText?_body h.names, readMoment_momentLine h.tellable]
  rfl

/-- **A commit that is dated half a minute or less from a day away from UTC is not read back.** -/
theorem ofBody?_body_of_far {c : Commit}
    (names : ∀ name ∈ c.manifest, '\n' ∉ name.toList ∧ '\r' ∉ name.toList)
    (far : 86370 ≤ c.moment.offset.natAbs) :
    ofBody? (Bytes.ofText c.body) =
      .error (.commitText (.offsetRange (String.ofList (Time.offsetText c.moment.offset)))) := by
  rw [ofBody?, Bytes.text?_ofText]
  dsimp only
  rw [ofText?_body names, readMoment_of_far far]
  rfl

/-- **A readable commit is read back from its text.** -/
theorem Readable.ofBody?_body {c : Commit} (h : c.Readable) :
    ofBody? (Bytes.ofText c.body) = .ok c := by
  rw [h.legible.ofBody?_body, h.told_eq]

/-- Of commits with the same encoding, the same is kept. -/
theorem Legible.told_eq_of_encoding_eq {c c' : Commit} (h : c.Legible) (h' : c'.Legible)
    (heq : c.encoding = c'.encoding) : c.told = c'.told := by
  have bodies : Bytes.ofText c.body = Bytes.ofText c'.body := by
    have := congrArg Kind.readHeader heq
    rw [encoding, encoding, Kind.readHeader_frame, Kind.readHeader_frame] at this
    exact (Prod.mk.inj this).2
  have := h.ofBody?_body
  rw [bodies, h'.ofBody?_body] at this
  exact (Except.ok.inj this).symm

/-- Readable commits with the same encoding are the same. -/
theorem Readable.eq_of_encoding_eq {c c' : Commit} (h : c.Readable) (h' : c'.Readable)
    (heq : c.encoding = c'.encoding) : c = c' := by
  rw [← h.told_eq, ← h'.told_eq, h.legible.told_eq_of_encoding_eq h'.legible heq]

/-! ## 5. Whole encodings -/

/-- **Nothing is lost in the encoding of a readable commit.**  The header is read as that of a
commit, what is left gives the commit again with every field, the id that it was made with is the
digest of the encoding, and a readable commit that differs in a field has another encoding. -/
theorem Readable.lossless {c : Commit} (h : c.Readable) :
    (∃ body, Kind.readHeader c.encoding = (.ok .commit, body) ∧ ofBody? body = .ok c) ∧
      c.id = ObjectId.ofEncoding c.encoding ∧
      ∀ c' : Commit, c'.Readable →
        c.message ≠ c'.message ∨ c.moment ≠ c'.moment ∨ c.parents ≠ c'.parents ∨
          c.manifest ≠ c'.manifest → c.encoding ≠ c'.encoding := by
  refine ⟨⟨Bytes.ofText c.body, Kind.readHeader_frame _ _, h.ofBody?_body⟩, c.id_eq, ?_⟩
  intro c' h' differ heq
  obtain rfl := h.eq_of_encoding_eq h' heq
  simp at differ

/-- A commit with empty lines in its message and a blank in a name, told west of UTC at a moment
before 1970. -/
def letter (message : String) : Commit where
  message := message
  moment := ⟨-1, 0, -16200, by decide, by decide, by decide, by decide, by decide⟩
  parents := [ObjectId.ofEncoding [], ObjectId.ofEncoding [0]]
  manifest := (∅ : Manifest).insert "a name" (ObjectId.ofEncoding [1])

theorem readable_letter (message : String) : (letter message).Readable where
  names name hname := by
    obtain rfl : "a name" = name := by simpa [letter] using hname
    decide
  whole := ⟨rfl, rfl⟩

theorem lossless_letter :
    (∃ body, Kind.readHeader (letter "\n\nfile\n").encoding = (.ok .commit, body) ∧
        ofBody? body = .ok (letter "\n\nfile\n")) ∧
      (letter "\n\nfile\n").id = ObjectId.ofEncoding (letter "\n\nfile\n").encoding ∧
      (letter "\n\nfile\n").encoding ≠ (letter "").encoding := by
  obtain ⟨read, hid, differ⟩ := (readable_letter "\n\nfile\n").lossless
  exact ⟨read, hid, differ (letter "") (readable_letter "") (Or.inl (by decide))⟩

end Commit

end LocalVcs
