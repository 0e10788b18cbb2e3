/-
# File trees

A file tree is what a file system holds: at each path a file, a directory or a symbolic link.  The
directories, and they alone, have a listing; so every entry stands in a directory, and removing a
directory leaves nothing behind.

* `FileTree.ext`: a tree is given by what stands at each path.
* `FileTree.at?_place?`: writing at a path changes that path alone.
* `FileTree.at?_cut`: removing at a path removes what lies below it and nothing else.
* `FileTree.mem_children`, `FileTree.mem_entries`: the lists of what lies one name below a path, and
  of all there is.
-/
import LocalVcs.FileTree.Listings

namespace LocalVcs

/-! ## 1. Trees -/

/-- A file system: the directories, and they alone, have a listing, and every name in a listing is
one that an entry can have. -/
structure FileTree where
  listings : Listings
  listed : ∀ path, path ∈ listings ↔ listings.standing? path = some .dir
  named : ∀ name path, (listings.standing? (name :: path)).isSome → ValidName name

namespace FileTree

instance : DecidableEq FileTree := fun s t =>
  decidable_of_iff (s.listings = t.listings)
    ⟨fun h => by cases s; cases t; simp_all, fun h => h ▸ rfl⟩

/-- The tree with nothing in it. -/
def empty : FileTree where
  listings := (∅ : Listings).insert [] ∅
  listed path := by
    cases path with
    | nil => simp [Listings.standing?]
    | cons name parent =>
      simp only [Listings.standing?, Std.ExtTreeMap.mem_insert, Std.ExtTreeMap.getElem?_insert,
        Std.LawfulEqCmp.compare_eq_iff_eq]
      split <;> simp
  named name path h := by
    simp only [Listings.standing?, Std.ExtTreeMap.getElem?_insert] at h
    split at h <;> simp at h

/-- What stands at a path, a link as itself. -/
def at? (t : FileTree) (path : Path) : Option Entry := t.listings.standing? path

@[simp] theorem at?_nil (t : FileTree) : t.at? [] = some .dir := rfl

theorem mem_listings {t : FileTree} {path : Path} : path ∈ t.listings ↔ t.at? path = some .dir :=
  t.listed path

theorem at?_of_cons {t : FileTree} {name : FileName} {path : Path} {e : Entry}
    (h : t.at? (name :: path) = some e) : ValidName name ∧ t.at? path = some .dir := by
  refine ⟨t.named name path (by rw [← at?, h]; rfl), ?_⟩
  rw [← mem_listings, Std.ExtTreeMap.mem_iff_isSome_getElem?]
  simp only [at?, Listings.standing?, Option.bind_eq_some_iff] at h
  obtain ⟨listing, h, -⟩ := h
  simp [h]

/-- Two trees are equal when they hold the same at every path. -/
@[ext] theorem ext {s t : FileTree} (h : ∀ path, s.at? path = t.at? path) : s = t := by
  have : s.listings = t.listings := by
    refine Std.ExtTreeMap.ext_getElem? fun path => ?_
    have hmem : path ∈ s.listings ↔ path ∈ t.listings := by simp only [mem_listings, h]
    rw [Std.ExtTreeMap.mem_iff_isSome_getElem?, Std.ExtTreeMap.mem_iff_isSome_getElem?] at hmem
    cases hs : s.listings[path]? with
    | none => cases ht : t.listings[path]? <;> simp_all
    | some listing =>
      cases ht : t.listings[path]? with
      | none => simp_all
      | some other =>
        refine congrArg some (Std.ExtTreeMap.ext_getElem? fun name => ?_)
        have hname := h (name :: path)
        simpa [at?, Listings.standing?, hs, ht] using hname
  cases s; cases t; simp_all

/-- The entries one name below a path, in the order of their names. -/
def children (t : FileTree) (path : Path) : List (FileName × Entry) :=
  match t.listings[path]? with
  | some listing => listing.toList
  | none => []

theorem mem_children {t : FileTree} {path : Path} {name : FileName} {e : Entry} :
    (name, e) ∈ t.children path ↔ t.at? (name :: path) = some e := by
  unfold children
  split
  · rename_i listing h
    simp [at?, Listings.standing?, h, Std.ExtTreeMap.mem_toList_iff_getElem?_eq_some]
  · rename_i h
    simp [at?, Listings.standing?, h]

/-- All that there is, each entry with its path: the top, and the listings one after the other. -/
def entries (t : FileTree) : List (Path × Entry) :=
  ([], .dir) :: t.listings.toList.flatMap fun (parent, listing) =>
    listing.toList.map fun (name, e) => (name :: parent, e)

theorem mem_entries {t : FileTree} {path : Path} {e : Entry} :
    (path, e) ∈ t.entries ↔ t.at? path = some e := by
  cases path with
  | nil => simp [entries, eq_comm]
  | cons name parent =>
    simp only [entries, List.mem_cons, Prod.mk.injEq, reduceCtorEq, false_and, false_or,
      List.mem_flatMap, List.mem_map, Prod.exists, List.cons.injEq,
      Std.ExtTreeMap.mem_toList_iff_getElem?_eq_some, at?, Listings.standing?,
      Option.bind_eq_some_iff]
    grind

/-! ## 2. Writing an entry -/

/-- Whether an entry may be written at a path: its name is valid, it comes to stand in a directory,
and it takes the place of no directory. -/
def CanPlace (t : FileTree) : Path → Prop
  | [] => False
  | name :: parent =>
    ValidName name ∧ t.at? parent = some .dir ∧ t.at? (name :: parent) ≠ some .dir

instance (t : FileTree) (path : Path) : Decidable (t.CanPlace path) := by
  cases path <;> unfold CanPlace <;> infer_instance

/-- Writes an entry at a path, in place of a file or a link that stands there. -/
def place (t : FileTree) : (path : Path) → Entry → t.CanPlace path → FileTree
  | name :: parent, e, h =>
    have inDir := mem_listings.mpr h.2.1
    have noDir := mt mem_listings.mp h.2.2
    { listings := t.listings.enter name parent e
      listed := by
        intro p
        rw [Listings.standing?_enter inDir noDir, Listings.mem_enter]
        split
        · simp_all
        · simp_all [t.listed p]
      named := by
        intro n p
        rw [Listings.standing?_enter inDir noDir]
        split
        · rename_i hp
          obtain ⟨rfl, rfl⟩ := List.cons.inj hp
          exact fun _ => h.1
        · exact t.named n p }

/-- Writes an entry at a path if it may be written there. -/
def place? (t : FileTree) (path : Path) (e : Entry) : Option FileTree :=
  if h : t.CanPlace path then some (t.place path e h) else none

theorem at?_place {t : FileTree} {path : Path} {e : Entry} (h : t.CanPlace path) (p : Path) :
    (t.place path e h).at? p = if p = path then some e else t.at? p := by
  cases path with
  | nil => exact h.elim
  | cons name parent =>
    exact Listings.standing?_enter (mem_listings.mpr h.2.1) (mt mem_listings.mp h.2.2) e p

theorem at?_place? {t t' : FileTree} {path : Path} {e : Entry}
    (h : t.place? path e = some t') (p : Path) :
    t'.at? p = if p = path then some e else t.at? p := by
  unfold place? at h
  split at h
  · obtain rfl := Option.some.inj h
    exact at?_place _ p
  · cases h

/-! ## 3. Removing an entry -/

/-- What lies above a directory are directories. -/
theorem mem_listings_of_suffix {t : FileTree} {p q : Path} (h : p ∈ t.listings) (hq : q <:+ p) :
    q ∈ t.listings := by
  induction p with
  | nil => rwa [List.suffix_nil.mp hq]
  | cons name parent ih =>
    rcases List.suffix_cons_iff.mp hq with rfl | hq
    · exact h
    · exact ih (mem_listings.mpr (at?_of_cons (mem_listings.mp h)).2) hq

/-- Below a path without children stands nothing. -/
theorem not_mem_listings_of_children {t : FileTree} {path p : Path} (h : t.children path = [])
    (below : path <:+ p) (other : p ≠ path) : p ∉ t.listings := by
  obtain ⟨names, rfl⟩ := below
  intro hmem
  cases hlast : names.getLast? with
  | none => simp_all
  | some name =>
    obtain ⟨front, rfl⟩ := List.getLast?_eq_some_iff.mp hlast
    have hname : name :: path ∈ t.listings :=
      mem_listings_of_suffix hmem ⟨front, by simp⟩
    have := mem_children.mpr (mem_listings.mp hname)
    simp [h] at this

/-- The listings without those of a path and of what lies below it. -/
def listingsWithout (t : FileTree) (path : Path) : Listings :=
  if t.children path = [] then t.listings.erase path
  else t.listings.filter fun p _ => !path.isSuffixOf p

theorem getElem?_listingsWithout {t : FileTree} {path p : Path} :
    (t.listingsWithout path)[p]? = if path <:+ p then none else t.listings[p]? := by
  unfold listingsWithout
  split
  · rename_i h
    rw [Std.ExtTreeMap.getElem?_erase]
    by_cases hp : p = path
    · subst hp
      simp
    · rw [if_neg (by rw [Std.LawfulEqCmp.compare_eq_iff_eq]; exact Ne.symm hp)]
      split
      · rename_i below
        exact Std.ExtTreeMap.getElem?_eq_none (not_mem_listings_of_children h below hp)
      · rfl
  · rw [Std.ExtTreeMap.getElem?_filter']
    by_cases hs : path <:+ p
    · have : path.isSuffixOf p = true := List.isSuffixOf_iff_suffix.mpr hs
      cases t.listings[p]? <;> simp [Option.filter, hs, this]
    · have : path.isSuffixOf p = false := by
        rw [Bool.eq_false_iff, ne_eq, List.isSuffixOf_iff_suffix]; exact hs
      cases t.listings[p]? <;> simp [Option.filter, hs, this]

/-- The listings that are left when an entry is removed. -/
def listingsAfter (t : FileTree) (name : FileName) (parent : Path) : Listings :=
  (t.listingsWithout (name :: parent)).modify parent (·.erase name)

theorem getElem?_listingsAfter {t : FileTree} {name : FileName} {parent p : Path} :
    (t.listingsAfter name parent)[p]? =
      if name :: parent <:+ p then none
      else if p = parent then t.listings[parent]?.map (·.erase name) else t.listings[p]? := by
  have longer : ¬name :: parent <:+ parent := fun h => Nat.not_succ_le_self _ h.length_le
  simp only [listingsAfter, Std.ExtTreeMap.getElem?_modify, Std.LawfulEqCmp.compare_eq_iff_eq,
    getElem?_listingsWithout, if_neg longer]
  grind

theorem standing?_listingsAfter {t : FileTree} {name : FileName} {parent p : Path} :
    (t.listingsAfter name parent).standing? p = if name :: parent <:+ p then none else t.at? p := by
  cases p with
  | nil => simp [Listings.standing?]
  | cons n q =>
    simp only [at?, Listings.standing?, getElem?_listingsAfter, List.suffix_cons_iff,
      List.cons.injEq]
    by_cases hs : name :: parent <:+ q
    · simp [hs]
    · by_cases hq : q = parent
      · subst hq
        cases t.listings[q]? with
        | none => simp [hs]
        | some listing =>
          simp [hs, Std.ExtTreeMap.getElem?_erase, Std.LawfulEqCmp.compare_eq_iff_eq]
      · have hne : ¬(name = n ∧ parent = q) := fun h => hq h.2.symm
        simp [hs, hq, hne]

/-- Removes what stands at a path and below it.  The top stays. -/
def cut (t : FileTree) : Path → FileTree
  | [] => t
  | name :: parent =>
    { listings := t.listingsAfter name parent
      listed := by
        intro p
        rw [standing?_listingsAfter, Std.ExtTreeMap.mem_iff_isSome_getElem?, getElem?_listingsAfter]
        split
        · simp
        · rw [← mem_listings, Std.ExtTreeMap.mem_iff_isSome_getElem?]
          split <;> simp_all
      named := by
        intro n p
        rw [standing?_listingsAfter]
        split
        · simp
        · exact t.named n p }

theorem at?_cut {t : FileTree} {path : Path} (h : path ≠ []) (p : Path) :
    (t.cut path).at? p = if path <:+ p then none else t.at? p := by
  cases path with
  | nil => exact absurd rfl h
  | cons name parent => exact standing?_listingsAfter

end FileTree

end LocalVcs
