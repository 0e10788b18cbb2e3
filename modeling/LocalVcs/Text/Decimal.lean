/-
# Decimal numbers

Writing numbers in base ten, and reading those that fit in 64 bits.

These are the numbers of `parse_timestamp`, and those that dates are written with.

* `Decimal.readInt64?_ofInt`: a number in that range is read back from its digits.
-/

namespace LocalVcs.Text.Decimal

/-- The digits of a number, without leading zeros. -/
def ofNat (n : Nat) : List Char := Nat.toDigits 10 n

/-- The digits of a number, a minus sign before those of a negative one. -/
def ofInt (n : Int) : List Char := if n < 0 then '-' :: ofNat n.natAbs else ofNat n.natAbs

/-- At least `width` digits, with zeros in front where there are fewer. -/
def padded (width n : Nat) : List Char :=
  List.replicate (width - (ofNat n).length) '0' ++ ofNat n

/-- The number that ASCII digits spell, leading zeros allowed. -/
def readNat? (cs : List Char) : Option Nat :=
  if cs ≠ [] ∧ cs.all Char.isDigit then some (Nat.ofDigitChars 10 cs 0) else none

/-- Keeps a number that fits in 64 bits with sign. -/
def int64? (n : Int) : Option Int :=
  if -9223372036854775808 ≤ n ∧ n ≤ 9223372036854775807 then some n else none

/-- The number that digits spell, after at most one sign, when it fits in 64 bits. -/
def readInt64? : List Char → Option Int
  | '+' :: digits => (readNat? digits).bind fun n => int64? n
  | '-' :: digits => (readNat? digits).bind fun n => int64? (-n)
  | digits => (readNat? digits).bind fun n => int64? n

theorem readNat?_ofNat (n : Nat) : readNat? (ofNat n) = some n := by
  have hne : ofNat n ≠ [] := by simp [ofNat]
  have hall : (ofNat n).all Char.isDigit = true :=
    List.all_eq_true.mpr fun c hc => Nat.isDigit_of_mem_toDigits (by decide) (by decide) hc
  rw [readNat?, if_pos ⟨hne, hall⟩, ofNat, Nat.ofDigitChars_toDigits (by decide) (by decide)]

theorem int64?_eq_some {n : Int} (low : -9223372036854775808 ≤ n)
    (high : n ≤ 9223372036854775807) : int64? n = some n := by
  simp [int64?, low, high]

theorem readInt64?_digits {cs : List Char} (h : ∀ c ∈ cs, c.isDigit = true) :
    readInt64? cs = (readNat? cs).bind fun n => int64? n := by
  match cs, h with
  | [], _ => rfl
  | c :: rest, h =>
    have hc : c.isDigit = true := h c (by simp)
    have plus : c ≠ '+' := by rintro rfl; exact absurd hc (by decide)
    have minus : c ≠ '-' := by rintro rfl; exact absurd hc (by decide)
    unfold readInt64?
    split <;> simp_all

theorem readInt64?_ofInt {n : Int} (low : -9223372036854775808 ≤ n)
    (high : n ≤ 9223372036854775807) : readInt64? (ofInt n) = some n := by
  by_cases hn : n < 0
  · rw [ofInt, if_pos hn]
    show (readNat? (ofNat n.natAbs)).bind (fun m => int64? (-m)) = some n
    rw [readNat?_ofNat, Option.bind_some, show (-(n.natAbs : Int)) = n by omega]
    exact int64?_eq_some low high
  · have digits : ∀ c ∈ ofNat n.natAbs, c.isDigit = true := fun c hc =>
      Nat.isDigit_of_mem_toDigits (by decide) (by decide) hc
    rw [ofInt, if_neg hn, readInt64?_digits digits, readNat?_ofNat, Option.bind_some,
      show (n.natAbs : Int) = n by omega]
    exact int64?_eq_some low high

end LocalVcs.Text.Decimal
