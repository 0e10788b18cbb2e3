/-
# Names of entries

A file system names an entry by bytes.  Most names are texts in UTF-8, and all that are typed are; a
name that is no text can be listed, and is then shown with a replacement character for each piece
that spells nothing, so that the file cannot be found again by what is shown.

What is shown is the standard `to_string_lossy`.

* `FileName`: texts, and bytes that are no text.
* `Bytes.pieces`: the characters that bytes spell, and what between them spells none.
* `FileName.shown`: the text that a name is listed as.
-/
import LocalVcs.Bytes
import LocalVcs.Text.Quoted

namespace LocalVcs

/-! ## 1. What bytes spell -/

namespace Bytes

/-- The ranges of the bytes that have to follow a byte so that they spell one character. -/
def following? (first : UInt8) : Option (List (UInt8 × UInt8)) :=
  let any : UInt8 × UInt8 := (0x80, 0xBF)
  if first ≤ 0x7F then some []
  else if 0xC2 ≤ first ∧ first ≤ 0xDF then some [any]
  else if first = 0xE0 then some [(0xA0, 0xBF), any]
  else if first = 0xED then some [(0x80, 0x9F), any]
  else if 0xE1 ≤ first ∧ first ≤ 0xEF then some [any, any]
  else if first = 0xF0 then some [(0x90, 0xBF), any, any]
  else if 0xF1 ≤ first ∧ first ≤ 0xF3 then some [any, any, any]
  else if first = 0xF4 then some [(0x80, 0x8F), any, any]
  else none

/-- The bytes at the beginning that lie in one range after the other. -/
def inTurn : List (UInt8 × UInt8) → Bytes → Bytes
  | (low, high) :: ranges, b :: rest => if low ≤ b ∧ b ≤ high then b :: inTurn ranges rest else []
  | _, _ => []

/-- The number of the character that a first byte spells with those that follow it. -/
def scalar (first : UInt8) (more : Bytes) : Nat :=
  more.foldl (fun n b => n * 64 + b.toNat % 64) (first.toNat % [128, 32, 16, 8].getD more.length 1)

/-- The first piece of some bytes that begin with `first`: a character with the bytes behind `first`
that belong to it, or just those bytes where they spell none. -/
def firstPiece (first : UInt8) (rest : Bytes) : Option Char × Bytes :=
  match following? first with
  | none => (none, [])
  | some ranges =>
    let more := inTurn ranges rest
    (if more.length = ranges.length then some (Char.ofNat (scalar first more)) else none, more)

/-- The pieces that bytes fall into: characters, and bytes that belong to none.  A piece that is no
character goes as far as one might have gone.  The bytes to be passed over first belong to the piece
before. -/
def piecesFrom : Nat → Bytes → List (Char ⊕ Bytes)
  | _, [] => []
  | passed + 1, _ :: rest => piecesFrom passed rest
  | 0, first :: rest =>
    match firstPiece first rest with
    | (some c, more) => .inl c :: piecesFrom more.length rest
    | (none, more) => .inr (first :: more) :: piecesFrom more.length rest

/-- The pieces that bytes fall into. -/
def pieces (bytes : Bytes) : List (Char ⊕ Bytes) := piecesFrom 0 bytes

end Bytes

/-! ## 2. Names -/

/-- The name of an entry: a text, or bytes that are no text. -/
inductive FileName
  | text (text : String)
  | other (bytes : Bytes) (noText : Bytes.text? bytes = none)
  deriving DecidableEq

namespace FileName

instance : Coe String FileName := ⟨text⟩

instance : Inhabited FileName := ⟨text ""⟩

/-- The characters of a name.  Where it is no text, each byte counts for itself. -/
def chars : FileName → List Char
  | text s => s.toList
  | other bytes _ => bytes.map fun b => Char.ofNat b.toNat

/-- The bytes that a name takes. -/
def size : FileName → Nat
  | text s => s.utf8ByteSize
  | other bytes _ => bytes.length

theorem text_ne {s t : String} (h : s ≠ t) : text s ≠ text t := fun heq => h (text.inj heq)

@[simp] theorem chars_text (s : String) : (text s).chars = s.toList := rfl

@[simp] theorem size_text (s : String) : (text s).size = s.utf8ByteSize := rfl

/-- The text that a name is listed as. -/
def shown : FileName → String
  | text s => s
  | other bytes _ => String.ofList ((Bytes.pieces bytes).map (Sum.elim id fun _ => '\uFFFD'))

@[simp] theorem shown_text (s : String) : (text s).shown = s := rfl

/-- A byte by its number: `\x` and two hexadecimal digits. -/
def byteByNumber (b : UInt8) : List Char :=
  let digit (n : Nat) : Char := (Nat.digitChar n).toUpper
  ['\\', 'x', digit (b.toNat / 16), digit (b.toNat % 16)]

/-- The characters of a name as they stand between quotes. -/
def escaped : FileName → List Char
  | text s => s.toList.flatMap Text.escape
  | other bytes _ => (Bytes.pieces bytes).flatMap (Sum.elim Text.escape (·.flatMap byteByNumber))

/-- The text of a name that is a text. -/
def text? : FileName → Option String
  | text s => some s
  | other _ _ => none

/-! ### The order of names -/

/-- The bytes of a name that is no text. -/
def otherBytes : FileName → Bytes
  | text _ => []
  | other bytes _ => bytes

/-- Texts in their order, and then the names that are none. -/
instance : Ord FileName :=
  ⟨compareLex (compareOn fun name => name.text?.isNone)
    (compareLex (compareOn fun name => name.text?.getD "") (compareOn otherBytes))⟩

instance : Std.TransOrd FileName :=
  inferInstanceAs (Std.TransCmp (compareLex (compareOn fun name : FileName => name.text?.isNone)
    (compareLex (compareOn fun name : FileName => name.text?.getD "") (compareOn otherBytes))))

instance : Std.LawfulEqOrd FileName where
  eq_of_compare {a b} h := by
    obtain ⟨kind, texts, bytes⟩ : compare a.text?.isNone b.text?.isNone = .eq ∧
        compare (a.text?.getD "") (b.text?.getD "") = .eq ∧
        compare a.otherBytes b.otherBytes = .eq := by
      have h : (compare a.text?.isNone b.text?.isNone).then
          ((compare (a.text?.getD "") (b.text?.getD "")).then
            (compare a.otherBytes b.otherBytes)) = .eq := h
      simpa only [Ordering.then_eq_eq] using h
    rw [Std.LawfulEqCmp.compare_eq_iff_eq] at kind texts bytes
    cases a <;> cases b <;> simp_all [text?, otherBytes]

end FileName

end LocalVcs
