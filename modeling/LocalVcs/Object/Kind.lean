/-
# Kinds of objects

An object's encoding is a header and a body.  The header names the kind and the size of the body, as
in `blob 5`, and ends in a zero byte.

`Kind` is `ObjectType`; `frame` is `encode_with_header`, and `readHeader` is `parse_object_type`,
which leaves the size unread.

* `Kind.readHeader_frame`: the header that `Kind.frame` writes is read back, and the body is left.
-/
import LocalVcs.ObjectId
import LocalVcs.Text.Blank
import LocalVcs.Text.Decimal

namespace LocalVcs

/-- A blob is the contents of a file, a commit is a snapshot with its history. -/
inductive Kind
  | blob
  | commit
  deriving DecidableEq, Repr

namespace Kind

/-- The word for a kind in a header. -/
def word : Kind → String
  | blob => "blob"
  | commit => "commit"

/-- The kind that a word stands for. -/
def ofWord? (text : String) : Option Kind :=
  if text = blob.word then some blob else if text = commit.word then some commit else none

/-- A body behind its header. -/
def frame (kind : Kind) (body : Bytes) : Bytes :=
  Bytes.ofText kind.word ++ 0x20 :: Bytes.ofText (String.ofList (Text.Decimal.ofNat body.length)) ++
    0x00 :: body

/-- Why a header names no kind. -/
inductive HeaderDefect
  | notUtf8
  | unknownWord (text : String)
  deriving DecidableEq

/-- Reads a header and what is left after it.  The word reaches to the first space and is taken
without the blanks around it; the size reaches to the first zero byte and is not looked at.  A word
that is not UTF-8 is refused before the size is read. -/
def readHeader (encoding : Bytes) : Except HeaderDefect Kind × Bytes :=
  let (word, rest) := Bytes.through 0x20 encoding
  match Bytes.text? word with
  | none => (.error .notUtf8, rest)
  | some text =>
    let body := (Bytes.through 0x00 rest).2
    match ofWord? (Text.trimmed text) with
    | some kind => (.ok kind, body)
    | none => (.error (.unknownWord (Text.trimmed text)), body)

/-- No byte of a written number is zero, so a zero byte ends it. -/
theorem zero_not_mem_ofText_ofNat (n : Nat) :
    (0 : UInt8) ∉ Bytes.ofText (String.ofList (Text.Decimal.ofNat n)) := by
  rw [Bytes.ofText_ofList, List.mem_flatMap]
  rintro ⟨c, hc, hzero⟩
  have digit : c.isDigit = true := Nat.isDigit_of_mem_toDigits (by decide) (by decide) hc
  have bounds : 48 ≤ c.val.toNat ∧ c.val.toNat ≤ 57 := by
    simpa [Char.isDigit, UInt32.le_iff_toNat_le] using digit
  have size : c.utf8Size = 1 := by
    rw [Char.utf8Size_eq_one_iff, UInt32.le_iff_toNat_le]
    exact Nat.le_trans bounds.2 (by decide)
  rw [String.utf8EncodeChar_eq_singleton size, List.mem_singleton] at hzero
  have := congrArg UInt8.toNat hzero
  rw [UInt32.toNat_toUInt8] at this
  simp only [UInt8.reduceToNat] at this
  omega

theorem readHeader_frame (kind : Kind) (body : Bytes) :
    readHeader (kind.frame body) = (.ok kind, body) := by
  have word : (0x20 : UInt8) ∉ Bytes.ofText kind.word := by cases kind <;> decide
  have spaced : Bytes.ofText kind.word ++ [0x20] = Bytes.ofText (kind.word ++ " ") := by
    cases kind <;> decide
  have known : ofWord? (Text.trimmed (kind.word ++ " ")) = some kind := by cases kind <;> decide
  rw [frame, List.append_assoc, List.cons_append, readHeader, Bytes.through_of_not_mem word]
  simp only [spaced, Bytes.text?_ofText, known,
    Bytes.through_of_not_mem (zero_not_mem_ofText_ofNat _)]

end Kind

end LocalVcs
