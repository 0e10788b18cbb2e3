/-
# Listings

What a path of a file system can lead to, and what its directories list.  A listing maps the names
in one directory to the entries that stand there; the listings of all directories make up the file
system.

* `Listings.standing?_enter`: entering a name in a listing changes what stands at its path alone.
-/
import LocalVcs.FileTree.FileName
import Std.Data.ExtTreeMap

namespace LocalVcs

/-! ## 1. Entries -/

/-- The bytes of a file.  Object files hold bytes in packed form, which nothing but an object store
reads; they are told from plain ones, and the packed form itself is not looked at. -/
inductive Content
  | plain (bytes : Bytes)
  | packed (bytes : Bytes)
  deriving DecidableEq

/-- The bytes themselves. -/
def Content.bytes : Content → Bytes
  | plain bytes => bytes
  | packed bytes => bytes

/-- What a path leads to. -/
inductive Entry
  | file (content : Content)
  | dir
  | link (target : String)
  deriving DecidableEq

/-- The longest name that an entry can have, in bytes. -/
def longestName : Nat := 255

/-- Whether an entry can have this name in its directory. -/
def ValidName (name : FileName) : Prop :=
  name ≠ "" ∧ name ≠ "." ∧ name ≠ ".." ∧ '/' ∉ name.chars ∧ '\x00' ∉ name.chars ∧
    name.size ≤ longestName

instance (name : FileName) : Decidable (ValidName name) := by
  unfold ValidName; infer_instance

/-- A path is the list of names from an entry up to the top of the tree, its own name first. -/
abbrev Path := List FileName

/-! ## 2. Listings -/

/-- The order of paths: shorter paths first, those of one length by their names. -/
def pathOrder (p q : Path) : Ordering := (compare p.length q.length).then (compare p q)

instance : Std.TransCmp pathOrder :=
  inferInstanceAs (Std.TransCmp (compareLex (compareOn List.length) (compare : Path → Path → _)))

instance : Std.LawfulEqCmp pathOrder where
  eq_of_compare h := by
    rw [pathOrder, Ordering.then_eq_eq] at h
    exact Std.LawfulEqOrd.eq_of_compare h.2

/-- What stands right in one directory, by its names. -/
abbrev Listing := Std.ExtTreeMap FileName Entry compare

/-- The directories of a file system, each with the entries that stand right in it. -/
abbrev Listings := Std.ExtTreeMap Path Listing pathOrder

namespace Listings

/-- What stands at a path: at the top a directory, else what its directory lists. -/
def standing? (m : Listings) : Path → Option Entry
  | [] => some .dir
  | name :: parent => m[parent]?.bind fun listing => listing[name]?

/-- Enters a name into the listing of its directory.  A new directory gets an empty listing. -/
def enter (m : Listings) (name : FileName) (parent : Path) (e : Entry) : Listings :=
  let entered := m.modify parent (·.insert name e)
  if e = .dir then entered.insert (name :: parent) ∅ else entered

theorem mem_enter {m : Listings} {name : FileName} {parent : Path} {e : Entry} {p : Path} :
    p ∈ m.enter name parent e ↔ (e = .dir ∧ p = name :: parent) ∨ p ∈ m := by
  unfold enter
  split
  · simp only [Std.ExtTreeMap.mem_insert, Std.ExtTreeMap.mem_modify,
      Std.LawfulEqCmp.compare_eq_iff_eq]
    simp_all [eq_comm]
  · simp_all [Std.ExtTreeMap.mem_modify]

theorem getElem?_enter {m : Listings} {name : FileName} {parent : Path} {e : Entry} {p : Path} :
    (m.enter name parent e)[p]? =
      if p = parent then m[parent]?.map (·.insert name e)
      else if e = .dir ∧ p = name :: parent then some ∅ else m[p]? := by
  unfold enter
  have longer : name :: parent ≠ parent := fun h => by simpa using congrArg List.length h
  split
  · simp only [Std.ExtTreeMap.getElem?_insert, Std.ExtTreeMap.getElem?_modify,
      Std.LawfulEqCmp.compare_eq_iff_eq]
    grind
  · simp only [Std.ExtTreeMap.getElem?_modify, Std.LawfulEqCmp.compare_eq_iff_eq]
    grind

theorem standing?_enter {m : Listings} {name : FileName} {parent : Path} (inDir : parent ∈ m)
    (noDir : name :: parent ∉ m) (e : Entry) (p : Path) :
    (m.enter name parent e).standing? p = if p = name :: parent then some e else m.standing? p := by
  obtain ⟨listing, h⟩ :=
    Option.isSome_iff_exists.mp (Std.ExtTreeMap.mem_iff_isSome_getElem?.mp inDir)
  cases p with
  | nil => simp [standing?]
  | cons n q =>
    simp only [standing?, getElem?_enter, List.cons.injEq]
    by_cases hq : q = parent
    · subst hq
      simp only [h, if_true, Option.map_some, Option.bind_some, Std.ExtTreeMap.getElem?_insert,
        Std.LawfulEqCmp.compare_eq_iff_eq, and_true]
      simp only [eq_comm]
    · simp only [hq, if_false, and_false]
      split
      · rename_i hnew
        rw [hnew.2, Std.ExtTreeMap.getElem?_eq_none noDir]
        simp
      · rfl

end Listings

end LocalVcs
