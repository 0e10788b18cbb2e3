/-
# SHA-1

The digest of a list of bytes: five 32-bit words, worked through the padded message in blocks of
sixteen words.
-/
import LocalVcs.Bytes

namespace LocalVcs.Sha1

/-! ## 1. The padded message -/

/-- A number as bytes, the most significant first. -/
def bigEndian : Nat → Nat → Bytes
  | 0, _ => []
  | count + 1, n => UInt8.ofNat (n >>> (8 * count)) :: bigEndian count n

/-- The message, a one bit, zeros, and its length in bits: a multiple of 64 bytes. -/
def padded (message : Bytes) : Bytes :=
  let size := message.length
  message ++ 0x80 :: List.replicate ((119 - size % 64) % 64) 0 ++ bigEndian 8 (8 * size)

/-- Four bytes each as one word, the most significant first. -/
def words : Bytes → List UInt32
  | a :: b :: c :: d :: rest =>
    (a.toUInt32 <<< 24 ||| b.toUInt32 <<< 16 ||| c.toUInt32 <<< 8 ||| d.toUInt32) :: words rest
  | _ => []

/-! ## 2. The rounds -/

/-- A word turned left by `n` bits. -/
def rotate (n : UInt32) (w : UInt32) : UInt32 := w <<< n ||| w >>> (32 - n)

/-- The five words that a digest consists of. -/
structure State where
  a : UInt32
  b : UInt32
  c : UInt32
  d : UInt32
  e : UInt32
  deriving DecidableEq, Repr

/-- The state before the first block. -/
def State.start : State := ⟨0x67452301, 0xEFCDAB89, 0x98BADCFE, 0x10325476, 0xC3D2E1F0⟩

/-- The mixing function and the constant of round `t`. -/
def mixing (t : Nat) (b c d : UInt32) : UInt32 × UInt32 :=
  if t < 20 then ((b &&& c) ||| (~~~b &&& d), 0x5A827999)
  else if t < 40 then (b ^^^ c ^^^ d, 0x6ED9EBA1)
  else if t < 60 then ((b &&& c) ||| (b &&& d) ||| (c &&& d), 0x8F1BBCDC)
  else (b ^^^ c ^^^ d, 0xCA62C1D6)

/-- Round `t` on the word `w`. -/
def State.round (s : State) (t : Nat) (w : UInt32) : State :=
  let (f, k) := mixing t s.b s.c s.d
  ⟨rotate 5 s.a + f + s.e + k + w, s.a, rotate 30 s.b, s.c, s.d⟩

/-- Rounds `t`, `t + 1`, and so on, `count` of them.  `window` holds the next sixteen words of the
schedule; each round takes its first one and adds the one that follows its last. -/
def State.rounds : Nat → Nat → List UInt32 → State → State
  | 0, _, _, s => s
  | count + 1, t, window, s =>
    let next := rotate 1
      (window.getD 13 0 ^^^ window.getD 8 0 ^^^ window.getD 2 0 ^^^ window.getD 0 0)
    rounds count (t + 1) (window.tail ++ [next]) (s.round t (window.getD 0 0))

/-- The state after one more block of sixteen words. -/
def State.absorb (s : State) (block : List UInt32) : State :=
  let r := State.rounds 80 0 block s
  ⟨s.a + r.a, s.b + r.b, s.c + r.c, s.d + r.d, s.e + r.e⟩

/-- Works through `count` blocks of 64 bytes. -/
def State.absorbAll : Nat → Bytes → State → State
  | 0, _, s => s
  | count + 1, bytes, s => absorbAll count (bytes.drop 64) (s.absorb (words (bytes.take 64)))

/-- The digest of a message. -/
def digest (message : Bytes) : State :=
  let bytes := padded message
  State.absorbAll (bytes.length / 64) bytes State.start

/-! ## 3. Hexadecimal text -/

/-- The hexadecimal digits, letters in lower case. -/
def hexDigitChars : List Char :=
  ['0', '1', '2', '3', '4', '5', '6', '7', '8', '9', 'a', 'b', 'c', 'd', 'e', 'f']

/-- A hexadecimal digit in lower case. -/
def IsHexDigit (c : Char) : Prop := c ∈ hexDigitChars

instance (c : Char) : Decidable (IsHexDigit c) := inferInstanceAs (Decidable (c ∈ _))

/-- The lowest `count` hexadecimal digits of a number. -/
def hexDigits : Nat → Nat → List Char
  | 0, _ => []
  | count + 1, n => Nat.digitChar (n >>> (4 * count) % 16) :: hexDigits count n

/-- The forty hexadecimal digits of a digest. -/
def State.hex (s : State) : List Char :=
  [s.a, s.b, s.c, s.d, s.e].flatMap fun w => hexDigits 8 w.toNat

@[simp] theorem length_hexDigits (count n : Nat) : (hexDigits count n).length = count := by
  induction count with
  | zero => rfl
  | succ count ih => simp [hexDigits, ih]

theorem isHexDigit_digitChar {n : Nat} (h : n < 16) : IsHexDigit n.digitChar := by
  have : ∀ m : Fin 16, IsHexDigit (Nat.digitChar m) := by decide
  exact this ⟨n, h⟩

theorem isHexDigit_of_mem_hexDigits {count n : Nat} {c : Char} (h : c ∈ hexDigits count n) :
    IsHexDigit c := by
  induction count with
  | zero => simp [hexDigits] at h
  | succ count ih =>
    rcases List.mem_cons.mp h with rfl | h
    · exact isHexDigit_digitChar (Nat.mod_lt _ (by decide))
    · exact ih h

@[simp] theorem length_hex (s : State) : s.hex.length = 40 := by
  simp [State.hex]

theorem isHexDigit_of_mem_hex {s : State} {c : Char} (h : c ∈ s.hex) : IsHexDigit c := by
  obtain ⟨w, -, hw⟩ := List.mem_flatMap.mp h
  exact isHexDigit_of_mem_hexDigits hw

end LocalVcs.Sha1
