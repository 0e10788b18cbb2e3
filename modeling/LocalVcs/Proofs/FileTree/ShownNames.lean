/-
# Names as they are shown

What bytes spell is put together from the characters and the leftovers that they fall into, and each
character stands for the bytes that encode it.  So nothing that is shown of a name has been in it
otherwise, but for the replacement character; and a name that is no text is never shown without one.

* `Bytes.flatMap_pieces`: the pieces of some bytes make up these bytes.
* `FileName.replaced_of_other`: what is shown of a name that is no text has a replacement character.
* `FileName.mem_chars_of_mem_shown`: a character of one byte that is shown stands in the name.
-/
import LocalVcs.FileTree.FileName
import Mathlib.Data.List.Forall2

namespace LocalVcs

namespace Bytes

/-! ## 1. Characters and their bytes -/

theorem encode_ofNat {n : Nat} (valid : n.isValidChar) :
    String.utf8EncodeChar (Char.ofNat n) =
      if n ≤ 0x7F then [UInt8.ofNat n]
      else if n ≤ 0x7FF then [UInt8.ofNat (n / 64 % 32 + 192), UInt8.ofNat (n % 64 + 128)]
      else if n ≤ 0xFFFF then [UInt8.ofNat (n / 4096 % 16 + 224), UInt8.ofNat (n / 64 % 64 + 128),
        UInt8.ofNat (n % 64 + 128)]
      else [UInt8.ofNat (n / 262144 % 8 + 240), UInt8.ofNat (n / 4096 % 64 + 128),
        UInt8.ofNat (n / 64 % 64 + 128), UInt8.ofNat (n % 64 + 128)] := by
  have number : (Char.ofNat n).toNat = n := by
    rw [Char.ofNat, dif_pos valid]
    rfl
  simp only [String.utf8EncodeChar, Char.toNat_val, number]

theorem ofNat_eq {n : Nat} {b : UInt8} (h : n = b.toNat) : UInt8.ofNat n = b := by
  rw [h, UInt8.ofNat_toNat]

/-- A byte that goes on with a character. -/
def Continues (b : UInt8) : Prop := 0x80 ≤ b.toNat ∧ b.toNat ≤ 0xBF

theorem encode_one {first : UInt8} (h : first.toNat ≤ 0x7F) :
    String.utf8EncodeChar (Char.ofNat (scalar first [])) = [first] := by
  have number : scalar first [] = first.toNat % 128 := rfl
  rw [Nat.mod_eq_of_lt (by omega)] at number
  rw [number, encode_ofNat (Or.inl (by omega)), if_pos h, ofNat_eq rfl]

theorem encode_two {first b : UInt8} (low : 0xC2 ≤ first.toNat) (high : first.toNat ≤ 0xDF)
    (hb : Continues b) : String.utf8EncodeChar (Char.ofNat (scalar first [b])) = [first, b] := by
  obtain ⟨n, number⟩ : ∃ n, n = scalar first [b] := ⟨_, rfl⟩
  have value : n = first.toNat % 32 * 64 + b.toNat % 64 := number
  obtain ⟨lowb, highb⟩ := hb
  rw [← number, encode_ofNat (Or.inl (by omega)), if_neg (by omega), if_pos (by omega),
    ofNat_eq (b := first) (by omega), ofNat_eq (b := b) (by omega)]

theorem encode_three {first b c : UInt8} (low : 0xE0 ≤ first.toNat) (high : first.toNat ≤ 0xEF)
    (hb : Continues b) (hc : Continues c) (long : first.toNat = 0xE0 → 0xA0 ≤ b.toNat)
    (noSurrogate : first.toNat = 0xED → b.toNat ≤ 0x9F) :
    String.utf8EncodeChar (Char.ofNat (scalar first [b, c])) = [first, b, c] := by
  obtain ⟨n, number⟩ : ∃ n, n = scalar first [b, c] := ⟨_, rfl⟩
  have value : n = (first.toNat % 16 * 64 + b.toNat % 64) * 64 + c.toNat % 64 := number
  obtain ⟨lowb, highb⟩ := hb
  obtain ⟨lowc, highc⟩ := hc
  have valid : n.isValidChar := by
    by_cases below : n < 0xD800
    · exact Or.inl below
    · exact Or.inr (by omega)
  rw [← number, encode_ofNat valid, if_neg (by omega), if_neg (by omega), if_pos (by omega),
    ofNat_eq (b := first) (by omega), ofNat_eq (b := b) (by omega), ofNat_eq (b := c) (by omega)]

theorem encode_four {first b c d : UInt8} (low : 0xF0 ≤ first.toNat) (high : first.toNat ≤ 0xF4)
    (hb : Continues b) (hc : Continues c) (hd : Continues d)
    (long : first.toNat = 0xF0 → 0x90 ≤ b.toNat) (last : first.toNat = 0xF4 → b.toNat ≤ 0x8F) :
    String.utf8EncodeChar (Char.ofNat (scalar first [b, c, d])) = [first, b, c, d] := by
  obtain ⟨n, number⟩ : ∃ n, n = scalar first [b, c, d] := ⟨_, rfl⟩
  have value : n = ((first.toNat % 8 * 64 + b.toNat % 64) * 64 + c.toNat % 64) * 64 +
    d.toNat % 64 := number
  obtain ⟨lowb, highb⟩ := hb
  obtain ⟨lowc, highc⟩ := hc
  obtain ⟨lowd, highd⟩ := hd
  rw [← number, encode_ofNat (Or.inr (by omega)), if_neg (by omega), if_neg (by omega),
    if_neg (by omega), ofNat_eq (b := first) (by omega), ofNat_eq (b := b) (by omega),
    ofNat_eq (b := c) (by omega), ofNat_eq (b := d) (by omega)]

/-- What follows a first byte in its ranges. -/
theorem forall₂_inTurn {ranges : List (UInt8 × UInt8)} {rest : Bytes}
    (whole : (inTurn ranges rest).length = ranges.length) :
    List.Forall₂ (fun range b => range.1.toNat ≤ b.toNat ∧ b.toNat ≤ range.2.toNat) ranges
      (inTurn ranges rest) := by
  induction ranges generalizing rest with
  | nil => simp [inTurn]
  | cons range ranges ih =>
    cases rest with
    | nil => simp [inTurn] at whole
    | cons b rest =>
      obtain ⟨low, high⟩ := range
      rw [inTurn] at whole ⊢
      split at whole
      · rename_i inside
        rw [if_pos inside]
        exact .cons ⟨UInt8.le_iff_toNat_le.mp inside.1, UInt8.le_iff_toNat_le.mp inside.2⟩
          (ih (by simpa using whole))
      · simp at whole

/-- The ranges of the bytes that belong to a first byte. -/
inductive Following (first : UInt8) : List (UInt8 × UInt8) → Prop
  | one : first.toNat ≤ 0x7F → Following first []
  | two : 0xC2 ≤ first.toNat → first.toNat ≤ 0xDF → Following first [(0x80, 0xBF)]
  | three {low high : UInt8} : 0xE0 ≤ first.toNat → first.toNat ≤ 0xEF →
      0x80 ≤ low.toNat → high.toNat ≤ 0xBF → (first.toNat = 0xE0 → 0xA0 ≤ low.toNat) →
      (first.toNat = 0xED → high.toNat ≤ 0x9F) → Following first [(low, high), (0x80, 0xBF)]
  | four {low high : UInt8} : 0xF0 ≤ first.toNat → first.toNat ≤ 0xF4 →
      0x80 ≤ low.toNat → high.toNat ≤ 0xBF → (first.toNat = 0xF0 → 0x90 ≤ low.toNat) →
      (first.toNat = 0xF4 → high.toNat ≤ 0x8F) →
      Following first [(low, high), (0x80, 0xBF), (0x80, 0xBF)]

theorem following_of_following? {first : UInt8} {ranges : List (UInt8 × UInt8)}
    (h : following? first = some ranges) : Following first ranges := by
  unfold following? at h
  simp only [UInt8.le_iff_toNat_le, ← UInt8.toNat_inj, UInt8.reduceToNat] at h
  split_ifs at h <;> obtain rfl := Option.some.inj h
  · exact .one (by omega)
  · exact .two (by omega) (by omega)
  · exact .three (by omega) (by omega) (by decide) (by decide) (fun _ => by decide) (by omega)
  · exact .three (by omega) (by omega) (by decide) (by decide) (by omega) (fun _ => by decide)
  · exact .three (by omega) (by omega) (by decide) (by decide) (by omega) (by omega)
  · exact .four (by omega) (by omega) (by decide) (by decide) (fun _ => by decide) (by omega)
  · exact .four (by omega) (by omega) (by decide) (by decide) (by omega) (by omega)
  · exact .four (by omega) (by omega) (by decide) (by decide) (by omega) (fun _ => by decide)

/-- **A character stands for the bytes that spell it.** -/
theorem encode_of_firstPiece {first : UInt8} {rest more : Bytes} {c : Char}
    (h : firstPiece first rest = (some c, more)) : String.utf8EncodeChar c = first :: more := by
  unfold firstPiece at h
  split at h
  · cases h
  rename_i ranges hranges
  obtain ⟨hc, rfl⟩ := Prod.mk.inj h
  split at hc
  · rename_i whole
    obtain rfl := Option.some.inj hc
    have each := forall₂_inTurn whole
    generalize inTurn ranges rest = more at each
    cases following_of_following? hranges with
    | one inside =>
      cases each
      exact encode_one inside
    | two low high =>
      obtain _ | ⟨hb, ⟨⟩⟩ := each
      exact encode_two low high hb
    | three low high lower upper long noSurrogate =>
      obtain _ | ⟨hb, _ | ⟨hc, ⟨⟩⟩⟩ := each
      dsimp only at hb
      exact encode_three low high ⟨by omega, by omega⟩ hc (by omega) (by omega)
    | four low high lower upper long last =>
      obtain _ | ⟨hb, _ | ⟨hc, _ | ⟨hd, ⟨⟩⟩⟩⟩ := each
      dsimp only at hb
      exact encode_four low high ⟨by omega, by omega⟩ hc hd (by omega) (by omega)
  · cases hc

/-! ## 2. All pieces -/

/-- The bytes of a piece. -/
def ofPiece : Char ⊕ Bytes → Bytes := Sum.elim String.utf8EncodeChar id

theorem inTurn_prefix (ranges : List (UInt8 × UInt8)) (rest : Bytes) :
    inTurn ranges rest <+: rest := by
  induction ranges generalizing rest with
  | nil => exact List.nil_prefix
  | cons range ranges ih =>
    cases rest with
    | nil => exact List.nil_prefix
    | cons b rest =>
      rw [inTurn]
      split
      · exact List.cons_prefix_cons.mpr ⟨rfl, ih rest⟩
      · exact List.nil_prefix

theorem firstPiece_prefix (first : UInt8) (rest : Bytes) : (firstPiece first rest).2 <+: rest := by
  unfold firstPiece
  split
  · exact List.nil_prefix
  · exact inTurn_prefix _ _

/-- The pieces make up what is left behind the bytes that are passed over. -/
theorem flatMap_piecesFrom (passed : Nat) (bytes : Bytes) :
    (piecesFrom passed bytes).flatMap ofPiece = bytes.drop passed := by
  induction bytes generalizing passed with
  | nil => simp [piecesFrom]
  | cons first rest ih =>
    cases passed with
    | succ passed => exact ih passed
    | zero =>
      have starts := firstPiece_prefix first rest
      have whole {more : Bytes} (h : more <+: rest) : more ++ rest.drop more.length = rest := by
        obtain ⟨after, rfl⟩ := h
        rw [List.drop_left]
      rw [piecesFrom]
      split
      · rename_i c more hpiece
        rw [hpiece] at starts
        rw [List.flatMap_cons, ih, ofPiece, Sum.elim_inl, encode_of_firstPiece hpiece,
          List.cons_append,
          whole starts]
        rfl
      · rename_i more hpiece
        rw [hpiece] at starts
        rw [List.flatMap_cons, ih, ofPiece, Sum.elim_inr, id, List.cons_append, whole starts]
        rfl

/-- **The pieces of some bytes make up these bytes.** -/
theorem flatMap_pieces (bytes : Bytes) : (pieces bytes).flatMap ofPiece = bytes :=
  flatMap_piecesFrom 0 bytes

end Bytes

/-! ## 3. What is shown -/

namespace FileName

/-- **A name that is no text is shown with a replacement character.** -/
theorem replaced_of_other {bytes : Bytes} (noText : Bytes.text? bytes = none) :
    '\uFFFD' ∈ (other bytes noText).shown.toList := by
  by_contra absent
  -- otherwise the bytes would spell the characters that are shown
  have characters : ∀ piece ∈ Bytes.pieces bytes, ∃ c, piece = .inl c := by
    rintro (c | more) hpiece
    · exact ⟨c, rfl⟩
    · rw [shown, String.toList_ofList] at absent
      exact absurd (List.mem_map.mpr ⟨Sum.inr more, hpiece, rfl⟩) absent
  have spelled : Bytes.ofText (other bytes noText).shown = bytes := by
    rw [shown, Bytes.ofText_ofList, List.flatMap_map]
    refine (List.flatMap_congr fun piece hpiece => ?_).trans (Bytes.flatMap_pieces bytes)
    obtain ⟨c, rfl⟩ := characters piece hpiece
    rfl
  rw [← spelled, Bytes.text?_ofText] at noText
  cases noText

variable {name : FileName}

/-- A character of one byte that is shown stands in the name. -/
theorem mem_chars_of_mem_shown {c : Char} (small : c.toNat ≤ 0x7F) (h : c ∈ name.shown.toList) :
    c ∈ name.chars := by
  cases name with
  | text s => exact h
  | other bytes noText =>
    rw [shown, String.toList_ofList] at h
    obtain ⟨piece, hpiece, rfl⟩ := List.mem_map.mp h
    cases piece with
    | inr more => exact absurd small (show ¬ ('\uFFFD').toNat ≤ 0x7F by decide)
    | inl c =>
      have small : c.toNat ≤ 0x7F := small
      have encoded : String.utf8EncodeChar c = [UInt8.ofNat c.toNat] := by
        simp only [String.utf8EncodeChar, Char.toNat_val]
        exact if_pos small
      have inside : UInt8.ofNat c.toNat ∈ bytes := by
        rw [← Bytes.flatMap_pieces bytes]
        exact List.mem_flatMap.mpr ⟨_, hpiece, by simp [Bytes.ofPiece, encoded]⟩
      refine List.mem_map.mpr ⟨_, inside, ?_⟩
      rw [UInt8.toNat_ofNat', Nat.mod_eq_of_lt (Nat.lt_of_le_of_lt small (by decide))]
      exact Char.ofNat_toNat c

/-- What is shown of a name is no other text without a replacement character. -/
theorem shown_ne {s : String} (plain : '\uFFFD' ∉ s.toList) (differs : name ≠ s) :
    name.shown ≠ s := by
  cases name with
  | text own => exact fun same => differs (congrArg text same)
  | other bytes noText =>
    rintro rfl
    exact plain (replaced_of_other noText)

end FileName

end LocalVcs
