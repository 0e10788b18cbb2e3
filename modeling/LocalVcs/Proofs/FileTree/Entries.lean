/-
# Entries, each listed once

What stands in a tree is listed path by path, so no path comes twice in a list of entries or of
files, and the length of such a list is the number of what it lists.

* `FileTree.distinct_entries`, `FileTree.distinct_children`: no path is listed twice.
* `FileTree.mem_filesBelow`, `FileTree.nodup_filesBelow`: the files below a path, each once.
* `pairwise_lt_mergeSort`: what is listed once is in ascending order when it is sorted.
-/
import LocalVcs.FileTree.Route
import LocalVcs.Proofs.NameMap
import Mathlib.Data.List.Nodup

/-- Sorting puts things of which none comes twice in strictly ascending order. -/
theorem LocalVcs.pairwise_lt_mergeSort {α : Type} [Ord α] [Std.TransOrd α] [Std.LawfulEqOrd α]
    {l : List α} (distinct : l.Nodup) :
    (l.mergeSort fun a b => (compare a b).isLE).Pairwise fun a b => compare a b = .lt := by
  have ascending : (l.mergeSort fun a b => (compare a b).isLE).Pairwise
      fun a b => (compare a b).isLE = true := by
    refine List.pairwise_mergeSort (fun a b c => Std.TransCmp.isLE_trans) (fun a b => ?_) l
    have swap : compare b a = (compare a b).swap := Std.OrientedCmp.eq_swap
    rw [swap]
    cases compare a b <;> rfl
  have nodup := (List.mergeSort_perm l fun a b => (compare a b).isLE).nodup_iff.mpr distinct
  refine (ascending.and nodup).imp ?_
  rintro a b ⟨hle, other⟩
  have hne : compare a b ≠ .eq := fun heq => other (Std.LawfulEqOrd.eq_of_compare heq)
  cases hcompare : compare a b with
  | lt => rfl
  | eq => exact absurd hcompare hne
  | gt => simp [hcompare] at hle

namespace LocalVcs.FileTree

variable {t : FileTree}

theorem distinct_children (t : FileTree) (path : Path) : NameMap.Distinct (t.children path) := by
  unfold children
  split
  · exact NameMap.distinct_toList _
  · exact List.Pairwise.nil

theorem distinct_filesOf {entries : List (FileName × Entry)} (h : NameMap.Distinct entries) :
    NameMap.Distinct (filesOf entries) := by
  unfold filesOf
  refine h.filterMap ?_
  rintro ⟨n, content | _ | _⟩ b hb
  · rw [← Option.some.inj hb]
  · cases hb
  · cases hb

/-- No path is listed twice. -/
theorem distinct_entries (t : FileTree) : t.entries.Pairwise fun a b => a.1 ≠ b.1 := by
  have parents : t.listings.toList.Pairwise fun a b => a.1 ≠ b.1 := by
    have h := Std.ExtTreeMap.distinct_keys_toList (t := t.listings)
    simp only [Std.LawfulEqCmp.compare_eq_iff_eq] at h
    exact h
  refine List.pairwise_cons.mpr ⟨?_, List.pairwise_flatMap.mpr ⟨?_, ?_⟩⟩
  · simp only [List.mem_flatMap, List.mem_map]
    rintro - ⟨-, -, -, -, rfl⟩
    simp
  · rintro ⟨parent, listing⟩ -
    refine List.Pairwise.map _ ?_ (NameMap.distinct_toList listing)
    intro a b other same
    exact other (List.cons.inj same).1
  · refine parents.imp ?_
    intro a b other x hx y hy heq
    obtain ⟨_, -, rfl⟩ := List.mem_map.mp hx
    obtain ⟨_, -, rfl⟩ := List.mem_map.mp hy
    exact other (List.cons.inj heq).2

/-! ## Files below a path -/

/-- An entry that is listed is the file with these names below the path. -/
theorem eq_of_filesBelow {path : Path} {entry : Path × Entry} {names : List FileName}
    (h : (match entry with
      | (p, .file _) =>
        if path.isSuffixOf p then some (p.take (p.length - path.length)).reverse else none
      | _ => none) = some names) :
    ∃ content, entry = (names.reverse ++ path, .file content) := by
  obtain ⟨p, content | _ | target⟩ := entry
  · dsimp only at h
    split at h
    · rename_i below
      obtain ⟨front, rfl⟩ := List.isSuffixOf_iff_suffix.mp below
      have : front.reverse = names := by simpa using h
      exact ⟨content, by rw [← this, List.reverse_reverse]⟩
    · cases h
  · cases h
  · cases h

theorem mem_filesBelow {path : Path} {names : List FileName} :
    names ∈ t.filesBelow path ↔
      ∃ content, t.at? (names.reverse ++ path) = some (.file content) := by
  unfold filesBelow
  rw [List.mem_filterMap]
  constructor
  · rintro ⟨entry, hmem, hnames⟩
    obtain ⟨content, rfl⟩ := eq_of_filesBelow hnames
    exact ⟨content, mem_entries.mp hmem⟩
  · rintro ⟨content, hat⟩
    refine ⟨(names.reverse ++ path, .file content), mem_entries.mpr hat, ?_⟩
    have below : path.isSuffixOf (names.reverse ++ path) = true :=
      List.isSuffixOf_iff_suffix.mpr (List.suffix_append _ _)
    simp [below]

theorem nodup_filesBelow (t : FileTree) (path : Path) : (t.filesBelow path).Nodup := by
  refine List.Pairwise.filterMap _ ?_ t.distinct_entries
  intro a b other names hnames names' hnames' heq
  obtain ⟨content, rfl⟩ := eq_of_filesBelow hnames
  obtain ⟨content', rfl⟩ := eq_of_filesBelow hnames'
  exact other (by rw [heq])

end LocalVcs.FileTree
