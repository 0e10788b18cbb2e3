/-
# Straight routes

Where no links stand and no segment goes up, a route leads to the path that it spells.  Looking and
editing along such a route is then looking and editing at that path, and the way there is forgotten.

* `FileTree.locate_of_dir`, `FileTree.path_of_locate`: where a route leads.
* `Straight.lookup?_eq`: what is found at the end of a straight route stands at its path.
* `Straight.write?_eq`, `Straight.replace?_eq`, `Straight.removeFile?_of_file` and the like: an edit
  along a straight route is an edit at its path.
* `FileTree.makeDirs_spec`, `FileTree.makeDirs_succeeds`: directories are made where nothing stood,
  on the way to the one asked for, and nowhere else.
-/
import LocalVcs.FileTree.Edit
import Mathlib.Tactic.Tauto

namespace LocalVcs

/-! ## 1. The path that a route spells -/

namespace Route

/-- The steps of a route, taken from where it starts. -/
def path (r : Route) : Path := r.steps.reverse ++ r.start

theorem path_mk (start : Path) (segments : List FileName) :
    (Route.mk start segments).path = (segments.filter goes).reverse ++ start := rfl

theorem goes_of_validName {name : FileName} (h : ValidName name) : goes name = true := by
  simp [goes, h.1, h.2.1]

/-- A step of one name more. -/
theorem path_child {name : FileName} (h : goes name = true) (r : Route) :
    (r.child name).path = name :: r.path := by
  simp [path, steps, child, List.filter_append, h]

theorem bytesOf_append (a b : List FileName) : bytesOf (a ++ b) = bytesOf a + bytesOf b := by
  induction a with
  | nil => simp [bytesOf]
  | cons name a ih => simp only [List.cons_append, bytesOf, ih]; omega

theorem bytesOf_reverse (a : List FileName) : bytesOf a.reverse = bytesOf a := by
  induction a with
  | nil => rfl
  | cons name a ih => simp only [List.reverse_cons, bytesOf_append, ih, bytesOf]; omega

theorem bytesOf_le_of_sublist {a b : List FileName} (h : a.Sublist b) : bytesOf a ≤ bytesOf b := by
  induction h with
  | slnil => exact Nat.le_refl _
  | cons name _ ih => exact Nat.le_trans ih (Nat.le_add_left _ _)
  | cons_cons name _ ih => exact Nat.add_le_add_left ih _

/-- The path of a route is no longer than the route. -/
theorem CanTell.bytesOf_path {r : Route} (h : r.CanTell) : bytesOf r.path ≤ longest := by
  have steps : bytesOf r.steps ≤ bytesOf r.segments := bytesOf_le_of_sublist List.filter_sublist
  have := h.1
  rw [path, bytesOf_append, bytesOf_reverse]
  omega

/-- What can be told is told with segments left out too. -/
theorem CanTell.of_sublist {r : Route} (h : r.CanTell) {segments : List FileName}
    (sub : segments.Sublist r.segments) : (Route.mk r.start segments).CanTell :=
  ⟨Nat.le_trans (Nat.add_le_add_left (bytesOf_le_of_sublist sub) _) h.1,
    fun s hs => h.2 s (sub.subset hs)⟩

end Route

namespace FileTree

variable {t t' : FileTree}

/-! ## 2. What stands above an entry -/

theorem at?_above {names here : Path} {e : Entry} (h : t.at? (names ++ here) = some e)
    (below : names ≠ []) : t.at? here = some .dir := by
  cases names with
  | nil => exact absurd rfl below
  | cons name names =>
    have parent := mem_listings.mpr (at?_of_cons h).2
    exact mem_listings.mp (mem_listings_of_suffix parent (List.suffix_append names here))

theorem at?_eq_dir_of_suffix {p q : Path} {e : Entry} (h : t.at? p = some e) (above : q <:+ p)
    (other : q ≠ p) : t.at? q = some .dir := by
  obtain ⟨names, rfl⟩ := above
  exact at?_above h fun hnil => other (by simp [hnil])

/-- Nothing stands below a file. -/
theorem at?_below_file {path p : Path} {content : Content} (h : t.at? path = some (.file content))
    (below : path <:+ p) (other : p ≠ path) : t.at? p = none := by
  cases hat : t.at? p with
  | none => rfl
  | some e =>
    have := at?_eq_dir_of_suffix hat below (Ne.symm other)
    simp [h] at this

/-- Where nothing stands below a path, cutting it off changes this path alone. -/
theorem at?_cut_of_bare {path : Path} (top : path ≠ [])
    (bare : ∀ p, path <:+ p → p ≠ path → t.at? p = none) (p : Path) :
    (t.cut path).at? p = if p = path then none else t.at? p := by
  rw [at?_cut top]
  by_cases hp : p = path
  · simp [hp]
  · rw [if_neg hp]
    split
    · rename_i below
      exact (bare p below hp).symm
    · rfl

theorem at?_cut_of_file {path : Path} {content : Content} (h : t.at? path = some (.file content))
    (p : Path) : (t.cut path).at? p = if p = path then none else t.at? p := by
  refine at?_cut_of_bare ?_ (fun p => at?_below_file h) p
  rintro rfl
  simp at h

/-- Where a file stands, a file can stand. -/
theorem canPlace_of_file {path : Path} {content : Content}
    (h : t.at? path = some (.file content)) : t.CanPlace path := by
  cases path with
  | nil => simp [at?_nil] at h
  | cons name parent => exact ⟨(at?_of_cons h).1, (at?_of_cons h).2, by simp [h]⟩

/-- The names on the way to an entry are such as entries can have. -/
theorem validName_of_at? {before after : Path} {name : FileName} {e : Entry}
    (h : t.at? (before ++ name :: after) = some e) : ValidName name := by
  cases before with
  | nil => exact (at?_of_cons h).1
  | cons first before =>
    have : t.at? (name :: after) = some .dir := at?_above h (by simp)
    exact (at?_of_cons this).1

/-! ## 3. Trees without links -/

/-- No link stands at a path or below it. -/
def LinkFree (t : FileTree) (root : Path) : Prop :=
  ∀ p target, root <:+ p → t.at? p ≠ some (.link target)

theorem LinkFree.below {root here : Path} (free : t.LinkFree root) (h : root <:+ here) :
    t.LinkFree here := fun p target hp => free p target (h.trans hp)

theorem LinkFree.of_place? {root path : Path} {e : Entry} (free : t.LinkFree root)
    (h : t.place? path e = some t') (noLink : ∀ target, e ≠ .link target) : t'.LinkFree root := by
  intro p target below
  rw [at?_place? h]
  split
  · simpa using noLink target
  · exact free p target below

theorem LinkFree.of_cut {root path : Path} (free : t.LinkFree root) :
    (t.cut path).LinkFree root := by
  intro p target below
  by_cases top : path = []
  · subst top; exact free p target below
  · rw [at?_cut top]
    split
    · simp
    · exact free p target below

/-! ## 4. Following segments -/

section Walk

variable {onward : Path → List FileName → Option Path} {here : Path}

/-- The segments that lead to a directory are walked through. -/
theorem walk_through {front rest : List FileName} (level : (".." : FileName) ∉ front)
    (h : t.at? ((front.filter Route.goes).reverse ++ here) = some .dir) :
    t.walk onward here (front ++ rest) =
      t.walk onward ((front.filter Route.goes).reverse ++ here) rest := by
  induction front generalizing here with
  | nil => rfl
  | cons s front ih =>
    simp only [List.mem_cons, not_or] at level
    by_cases idle : s = "" ∨ s = "."
    · have notGoes : Route.goes s = false := by rcases idle with rfl | rfl <;> decide
      simp only [List.filter_cons, notGoes, Bool.false_eq_true, if_false] at h ⊢
      have inDir : t.at? here = some .dir :=
        mem_listings.mp (mem_listings_of_suffix (mem_listings.mpr h) (List.suffix_append _ _))
      simp only [List.cons_append, walk, inDir, ne_eq, not_true_eq_false, if_false, idle, if_true]
      exact ih level.2 h
    · have goes : Route.goes s = true := by simpa [Route.goes, not_or] using idle
      simp only [List.filter_cons, goes, if_true, List.reverse_cons, List.append_assoc,
        List.singleton_append] at h ⊢
      have inDir : t.at? (s :: here) = some .dir :=
        mem_listings.mp (mem_listings_of_suffix (mem_listings.mpr h) (List.suffix_append _ _))
      rw [List.cons_append, walk_name inDir (by simp)]
      exact ih level.2 h

/-- A name in a directory is walked to, whether anything stands there or not. -/
theorem walk_last (free : t.LinkFree here) {name : FileName} (inDir : t.at? here = some .dir)
    (valid : ValidName name) : t.walk onward here [name] = some (name :: here) := by
  obtain ⟨nonempty, noDot, noDots, -⟩ := id valid
  cases h : t.at? (name :: here) with
  | none => simp [walk, inDir, nonempty, noDot, noDots, valid, h]
  | some e =>
    have noLink : ∀ target, e ≠ .link target := by
      rintro target rfl
      exact free _ target (List.suffix_cons name here) h
    rw [walk_name h noLink, walk]

/-- A walk ends nowhere but at the path that the segments spell. -/
theorem eq_of_walk {segments : List FileName} {q : Path} (free : t.LinkFree here)
    (level : (".." : FileName) ∉ segments) (h : t.walk onward here segments = some q) :
    q = (segments.filter Route.goes).reverse ++ here := by
  induction segments generalizing here with
  | nil => simpa [walk] using h.symm
  | cons s rest ih =>
    simp only [List.mem_cons, not_or] at level
    simp only [walk, ne_eq] at h
    split at h
    · cases h
    · split at h
      · rename_i idle
        have notGoes : Route.goes s = false := by rcases idle with rfl | rfl <;> decide
        rw [List.filter_cons, notGoes]
        exact ih free level.2 h
      · rename_i idle
        have goes : Route.goes s = true := by simpa [Route.goes, not_or] using idle
        have below : t.LinkFree (s :: here) := free.below (List.suffix_cons s here)
        rw [if_neg (Ne.symm level.1)] at h
        simp only [List.filter_cons, goes, if_true, List.reverse_cons, List.append_assoc,
          List.singleton_append]
        split at h
        · cases h
        · split at h
          · rename_i target hlink
            exact absurd hlink (free _ target (List.suffix_cons s here))
          · exact ih below level.2 h
          · cases rest with
            | nil => simpa using h.symm
            | cons _ _ => simp at h

end Walk

/-! ## 5. Where a route leads -/

/-- A way through no link at all is one of those through few. -/
theorem follow_mostLinks (t : FileTree) : t.follow mostLinks = t.walk (t.follow 39) := rfl

theorem path_of_locate {r : Route} {q : Path} (free : t.LinkFree r.start)
    (level : (".." : FileName) ∉ r.segments) (h : t.locate r = some q) : q = r.path := by
  rw [locate_eq] at h
  split at h
  · exact eq_of_walk free level h
  · cases h

theorem locate_of_dir {r : Route} (tell : r.CanTell) (level : (".." : FileName) ∉ r.segments)
    (h : t.at? r.path = some .dir) : t.locate r = some r.path := by
  rw [locate_eq, if_pos tell, follow_mostLinks, ← List.append_nil r.segments]
  exact (walk_through level h).trans (by rw [walk]; rfl)

theorem locate_eq_none {r : Route} (h : ¬r.CanTell) : t.locate r = none := by
  rw [locate_eq, if_neg h]

theorem list?_eq {r : Route} (tell : r.CanTell) (level : (".." : FileName) ∉ r.segments)
    (h : t.at? r.path = some .dir) : t.list? r = some (t.children r.path) := by
  simp [list?, locate_of_dir tell level h, h]

theorem validName_of_list? {r : Route} {entries : List (FileName × Entry)}
    {entry : FileName × Entry}
    (h : t.list? r = some entries) (hentry : entry ∈ entries) : ValidName entry.1 := by
  obtain ⟨q, -, hlist⟩ := Option.bind_eq_some_iff.mp h
  split at hlist
  · obtain rfl := Option.some.inj hlist
    exact (at?_of_cons (mem_children.mp hentry)).1
  · cases hlist

section Enter

variable {start : Path} {name : FileName} {segments : List FileName}

theorem path_enter (goes : Route.goes name = true) :
    (Route.mk (name :: start) segments).path = (Route.mk start (name :: segments)).path := by
  simp [Route.path_mk, goes]

/-- A route that goes into a directory is told like the one that starts there. -/
theorem canTell_enter (valid : ValidName name) :
    (Route.mk start (name :: segments)).CanTell ↔ (Route.mk (name :: start) segments).CanTell := by
  have noNul : '\x00' ∉ name.chars := valid.2.2.2.2.1
  simp only [Route.CanTell, Route.bytesOf, List.forall_mem_cons, noNul, not_false_eq_true, true_and]
  constructor <;> rintro ⟨room, noNuls⟩ <;> exact ⟨by omega, noNuls⟩

/-- A route that goes into a directory leads where the one leads that starts there, whatever links
are about outside. -/
theorem locate_enter (h : t.at? (name :: start) = some .dir) :
    t.locate ⟨start, name :: segments⟩ = t.locate ⟨name :: start, segments⟩ := by
  rw [locate_eq, locate_eq, follow_mostLinks, walk_name h (by simp)]
  exact if_congr (canTell_enter (at?_of_cons h).1) rfl rfl

theorem locateEntry_enter (h : t.at? (name :: start) = some .dir) (some_ : segments ≠ []) :
    t.locateEntry ⟨start, name :: segments⟩ = t.locateEntry ⟨name :: start, segments⟩ := by
  obtain ⟨first, rest, rfl⟩ := List.exists_cons_of_ne_nil some_
  simp only [locateEntry, List.getLast?_cons_cons, List.dropLast_cons_cons, locate_enter h,
    canTell_enter (at?_of_cons h).1]

/-- A route whose first name is no link ends there, or goes on from there. -/
theorem walk_of_locate (goes : Route.goes name = true) (noUp : ".." ≠ name)
    (noLink : ∀ target, t.at? (name :: start) ≠ some (.link target)) {q : Path}
    (h : t.locate ⟨start, name :: segments⟩ = some q) :
    (segments = [] ∧ q = name :: start) ∨
      t.walk (t.follow 39) (name :: start) segments = some q := by
  have steps : ¬(name = "" ∨ name = ".") := by simpa [Route.goes, not_or] using goes
  rw [locate_eq] at h
  split at h
  · rw [follow_mostLinks, walk, if_neg steps, if_neg (Ne.symm noUp)] at h
    split at h
    · cases h
    · split at h
      · cases h
      · split at h
        · rename_i target hlink
          exact absurd hlink (noLink target)
        · exact Or.inr h
        · cases segments with
          | nil => exact Or.inl ⟨rfl, by simpa using h.symm⟩
          | cons _ _ => simp at h
  · cases h

/-- A route leads behind its first name only where that is a directory, if it is no link. -/
theorem dir_of_locate (goes : Route.goes name = true) (noUp : ".." ≠ name)
    (noLink : ∀ target, t.at? (name :: start) ≠ some (.link target)) (some_ : segments ≠ [])
    {q : Path} (h : t.locate ⟨start, name :: segments⟩ = some q) :
    t.at? (name :: start) = some .dir := by
  have onward := (walk_of_locate goes noUp noLink h).resolve_left fun ⟨hnil, _⟩ => some_ hnil
  obtain ⟨first, rest, rfl⟩ := List.exists_cons_of_ne_nil some_
  rw [walk] at onward
  split at onward
  · cases onward
  · rename_i inDir
    exact not_not.mp inDir

/-- A route of one name leads to that name, if it is no link. -/
theorem path_of_locate_name (goes : Route.goes name = true) (noUp : ".." ≠ name)
    (noLink : ∀ target, t.at? (name :: start) ≠ some (.link target)) {q : Path}
    (h : t.locate ⟨start, [name]⟩ = some q) : q = name :: start := by
  rcases walk_of_locate goes noUp noLink h with ⟨-, hq⟩ | onward
  · exact hq
  · simpa [walk] using onward.symm

/-- Where a directory holds no links, a route into it leads to the path that it spells. -/
theorem path_of_locate_enter (free : t.LinkFree (name :: start)) (goes : Route.goes name = true)
    (level : (".." : FileName) ∉ name :: segments) {q : Path}
    (h : t.locate ⟨start, name :: segments⟩ = some q) :
    q = (Route.mk start (name :: segments)).path := by
  simp only [List.mem_cons, not_or] at level
  rw [← path_enter goes]
  rcases walk_of_locate goes level.1 (fun target => free _ target (List.suffix_refl _)) h with
    ⟨rfl, hq⟩ | onward
  · simpa [Route.path_mk] using hq
  · exact eq_of_walk free level.2 onward

/-- The last segment of a route names an entry where the others lead. -/
theorem exists_of_locateEntry {r : Route} {q : Path} (h : t.locateEntry r = some q) :
    ∃ front last parent, r.segments = front ++ [last] ∧ ValidName last ∧
      t.locate ⟨r.start, front⟩ = some parent ∧ q = last :: parent := by
  unfold locateEntry at h
  split at h
  · cases h
  · rename_i last hlast
    obtain ⟨front, hfront⟩ := List.getLast?_eq_some_iff.mp hlast
    split at h
    · rename_i told
      obtain ⟨parent, hparent, hq⟩ := Option.bind_eq_some_iff.mp h
      rw [hfront, List.dropLast_concat] at hparent
      split at hq
      · exact ⟨front, last, parent, hfront, told.2, hparent, (Option.some.inj hq).symm⟩
      · cases hq
    · cases h

theorem eq_start_of_locate {q : Path} (h : t.locate ⟨start, []⟩ = some q) : q = start := by
  rw [locate_eq] at h
  split at h
  · simpa [follow_mostLinks, walk] using h.symm
  · cases h

/-- A route of one name ends in that name, whatever stands there. -/
theorem path_of_locateEntry_name {q : Path} (h : t.locateEntry ⟨start, [name]⟩ = some q) :
    q = name :: start := by
  obtain ⟨front, last, parent, hsegments, -, hparent, rfl⟩ := exists_of_locateEntry h
  obtain ⟨rfl, rfl⟩ : front = [] ∧ last = name := by
    cases front with
    | nil => exact ⟨rfl, (List.cons.inj hsegments).1.symm⟩
    | cons _ front => cases front <;> simp at hsegments
  rw [eq_start_of_locate hparent]

theorem path_of_locateEntry_enter (free : t.LinkFree (name :: start))
    (goes : Route.goes name = true) (level : (".." : FileName) ∉ name :: segments) {q : Path}
    (h : t.locateEntry ⟨start, name :: segments⟩ = some q) :
    q = (Route.mk start (name :: segments)).path := by
  obtain ⟨front, last, parent, hsegments, valid, hparent, rfl⟩ := exists_of_locateEntry h
  dsimp only at hsegments hparent
  have ends : ∀ {here : List FileName}, (Route.mk start (here ++ [last])).path =
      last :: (Route.mk start here).path := by
    simp [Route.path_mk, List.filter_append, Route.goes_of_validName valid]
  rw [hsegments, ends]
  cases front with
  | nil => rw [eq_start_of_locate hparent]; rfl
  | cons first front =>
    obtain ⟨rfl, rfl⟩ := List.cons.inj hsegments
    exact congrArg _ (path_of_locate_enter free goes
      (fun hup => level (List.mem_append_left [last] hup)) hparent)

end Enter

/-! ### What requests come to: an entry that is placed, or one that is cut -/

section Requests

variable {r : Route} {content : Content}

theorem exists_of_write? (h : t.write? r content = some t') :
    ∃ q, t.locate r = some q ∧ t.place? q (.file content) = some t' :=
  Option.bind_eq_some_iff.mp h

theorem exists_of_replace? (h : t.replace? r content = some t') :
    ∃ q, t.locateEntry r = some q ∧ t.place? q (.file content) = some t' :=
  Option.bind_eq_some_iff.mp h

theorem exists_of_makeDir? (h : t.makeDir? r = some t') :
    ∃ q, t.locateEntry r = some q ∧ t.at? q = none ∧ t.place? q .dir = some t' := by
  obtain ⟨q, hq, hplace⟩ := Option.bind_eq_some_iff.mp h
  split at hplace
  · rename_i fresh
    exact ⟨q, hq, fresh, hplace⟩
  · cases hplace

theorem exists_of_removeFile? (h : t.removeFile? r = some t') :
    ∃ q e, t.locateEntry r = some q ∧ t.at? q = some e ∧ e ≠ .dir ∧ t' = t.cut q := by
  obtain ⟨q, hq, hcut⟩ := Option.bind_eq_some_iff.mp h
  split at hcut
  · rename_i content hat
    exact ⟨q, .file content, hq, hat, by simp, (Option.some.inj hcut).symm⟩
  · rename_i target hat
    exact ⟨q, .link target, hq, hat, by simp, (Option.some.inj hcut).symm⟩
  · cases hcut

theorem exists_of_removeEmptyDir? (h : t.removeEmptyDir? r = some t') :
    ∃ q, t.locateEntry r = some q ∧ t' = t.cut q := by
  obtain ⟨q, hq, hcut⟩ := Option.bind_eq_some_iff.mp h
  split at hcut
  · exact ⟨q, hq, (Option.some.inj hcut).symm⟩
  · cases hcut

theorem exists_of_removeAll? (h : t.removeAll? r = some t') :
    ∃ q, t.locateEntry r = some q ∧ t' = t.cut q := by
  obtain ⟨q, hq, hcut⟩ := Option.bind_eq_some_iff.mp h
  split at hcut
  · exact ⟨q, hq, (Option.some.inj hcut).symm⟩
  · cases hcut

end Requests

end FileTree

/-! ## 6. Straight routes -/

/-- A route that can be told, that leads behind no link and nowhere up, and that ends in a step. -/
structure Straight (t : FileTree) (r : Route) : Prop where
  free : t.LinkFree r.start
  level : (".." : FileName) ∉ r.segments
  ends : ∃ front name, r.segments = front ++ [name] ∧ Route.goes name = true
  tell : r.CanTell

namespace Straight

open FileTree

variable {t t' : FileTree} {r : Route}

/-- The path of a straight route, and how the route gets there: to the directory first. -/
theorem exists_front (h : Straight t r) :
    ∃ front name, r.segments = front ++ [name] ∧ (".." : FileName) ∉ front ∧
      r.path = name :: (Route.mk r.start front).path ∧ (Route.mk r.start front).CanTell := by
  obtain ⟨front, name, hsegments, goes⟩ := h.ends
  refine ⟨front, name, hsegments, ?_, ?_, ?_⟩
  · intro hup
    exact h.level (by simp [hsegments, hup])
  · simp [Route.path, Route.steps, hsegments, List.filter_append, goes]
  · exact h.tell.of_sublist (by simp [hsegments])

/-- A straight route leads to its path as soon as that is a name in a directory. -/
theorem locate_eq (h : Straight t r) {name : FileName} {parent : Path}
    (hpath : r.path = name :: parent)
    (valid : ValidName name) (inDir : t.at? parent = some .dir) : t.locate r = some r.path := by
  obtain ⟨front, last, hsegments, level, hfront, -⟩ := h.exists_front
  obtain ⟨rfl, rfl⟩ := List.cons.inj (hpath.symm.trans hfront)
  have below : t.LinkFree (Route.mk r.start front).path := h.free.below (List.suffix_append _ _)
  rw [FileTree.locate_eq, if_pos h.tell, hsegments, follow_mostLinks, walk_through level inDir]
  exact (walk_last below inDir valid).trans (by rw [hfront])

theorem lookup?_eq (h : Straight t r) : t.lookup? r = t.at? r.path := by
  cases hat : t.at? r.path with
  | none =>
    cases hlocate : t.locate r with
    | none => simp [lookup?, hlocate]
    | some q =>
      obtain rfl := path_of_locate h.free h.level hlocate
      simp [lookup?, hlocate, hat]
  | some e =>
    obtain ⟨front, name, -, -, hpath, -⟩ := h.exists_front
    obtain ⟨valid, inDir⟩ := at?_of_cons (hpath ▸ hat)
    simp [lookup?, h.locate_eq hpath valid inDir, hat]

/-- What is found along a route that is straight, if it can be told at all, depends on what stands
at its path only. -/
theorem lookup?_congr (h : r.CanTell → Straight t r) (h' : r.CanTell → Straight t' r)
    (same : t'.at? r.path = t.at? r.path) : t'.lookup? r = t.lookup? r := by
  by_cases tell : r.CanTell
  · rw [(h' tell).lookup?_eq, (h tell).lookup?_eq, same]
  · simp [lookup?, locate_eq_none tell]

theorem exists?_eq (h : Straight t r) : t.exists? r = (t.at? r.path).isSome := by
  rw [FileTree.exists?, h.lookup?_eq]

theorem isDir_eq (h : Straight t r) : t.isDir r = decide (t.at? r.path = some .dir) := by
  rw [FileTree.isDir, h.lookup?_eq]

theorem isFile_iff (h : Straight t r) :
    t.isFile r = true ↔ ∃ content, t.at? r.path = some (.file content) := by
  rw [FileTree.isFile, h.lookup?_eq]
  constructor
  · intro hfile
    split at hfile
    · rename_i content hat
      exact ⟨content, hat⟩
    · cases hfile
  · rintro ⟨content, hat⟩
    simp [hat]

theorem contents?_eq_some_iff (h : Straight t r) {content : Content} :
    t.contents? r = some content ↔ t.at? r.path = some (.file content) := by
  rw [FileTree.contents?, h.lookup?_eq]
  constructor
  · intro hsome
    split at hsome
    · rename_i found hat
      rw [hat, Option.some.inj hsome]
    · cases hsome
  · intro hat
    simp [hat]

theorem contents?_eq_none_iff (h : Straight t r) :
    t.contents? r = none ↔ ∀ content, t.at? r.path ≠ some (.file content) := by
  rw [Option.eq_none_iff_forall_ne_some]
  exact forall_congr' fun content => not_congr h.contents?_eq_some_iff

/-! ## 7. Edits along straight routes -/

theorem write?_eq (h : Straight t r) (content : Content) :
    t.write? r content = t.place? r.path (.file content) := by
  obtain ⟨front, name, -, -, hpath, -⟩ := h.exists_front
  by_cases can : t.CanPlace r.path
  · have can' := can
    rw [hpath] at can'
    simp [write?, h.locate_eq hpath can'.1 can'.2.1]
  · cases hlocate : t.locate r with
    | none => simp [write?, hlocate, place?, can]
    | some q =>
      obtain rfl := path_of_locate h.free h.level hlocate
      simp [write?, hlocate]

/-- The entry that a straight route names is the one at its path, once that is in a directory. -/
theorem locateEntry_eq (h : Straight t r) {name : FileName} {parent : Path}
    (hpath : r.path = name :: parent) :
    t.locateEntry r =
      if ValidName name ∧ t.at? parent = some .dir then some r.path else none := by
  obtain ⟨front, last, hsegments, level, hfront, tell⟩ := h.exists_front
  obtain ⟨rfl, rfl⟩ := List.cons.inj (hpath.symm.trans hfront)
  have hlast : r.segments.getLast? = some name := by simp [hsegments]
  have hdrop : r.segments.dropLast = front := by simp [hsegments]
  simp only [locateEntry, hlast, hdrop, h.tell, true_and]
  by_cases valid : ValidName name
  · by_cases inDir : t.at? (Route.mk r.start front).path = some .dir
    · simp [valid, locate_of_dir tell level inDir, inDir, hfront]
    · cases hlocate : t.locate ⟨r.start, front⟩ with
      | none => simp [inDir]
      | some q =>
        obtain rfl := path_of_locate (r := ⟨r.start, front⟩) h.free level hlocate
        simp [inDir]
  · simp [valid]

theorem replace?_eq (h : Straight t r) (content : Content) :
    t.replace? r content = t.place? r.path (.file content) := by
  obtain ⟨front, name, -, -, hpath, -⟩ := h.exists_front
  rw [replace?, h.locateEntry_eq hpath]
  split
  · rfl
  · rename_i hno
    rw [Option.bind_none, place?, dif_neg]
    rw [hpath]
    exact fun can => hno ⟨can.1, can.2.1⟩

theorem makeDir?_eq (h : Straight t r) :
    t.makeDir? r = if t.at? r.path = none then t.place? r.path .dir else none := by
  obtain ⟨front, name, -, -, hpath, -⟩ := h.exists_front
  rw [makeDir?, h.locateEntry_eq hpath]
  split
  · rfl
  · rename_i hno
    have : ¬t.CanPlace r.path := by
      rw [hpath]
      exact fun can => hno ⟨can.1, can.2.1⟩
    simp [place?, this]

/-- The entry that stands at the path of a straight route is the one that the route names. -/
theorem locateEntry_of_at (h : Straight t r) {e : Entry} (hat : t.at? r.path = some e) :
    t.locateEntry r = some r.path := by
  obtain ⟨front, name, -, -, hpath, -⟩ := h.exists_front
  rw [h.locateEntry_eq hpath, if_pos (at?_of_cons (hpath ▸ hat))]

theorem removeFile?_of_file (h : Straight t r) {content : Content}
    (hat : t.at? r.path = some (.file content)) : t.removeFile? r = some (t.cut r.path) := by
  simp [removeFile?, h.locateEntry_of_at hat, hat]

theorem removeEmptyDir?_of_empty (h : Straight t r) (hat : t.at? r.path = some .dir)
    (empty : t.children r.path = []) : t.removeEmptyDir? r = some (t.cut r.path) := by
  simp [removeEmptyDir?, h.locateEntry_of_at hat, hat, empty]

theorem removeAll?_of_at (h : Straight t r) {e : Entry} (hat : t.at? r.path = some e) :
    t.removeAll? r = some (t.cut r.path) := by
  simp [removeAll?, h.locateEntry_of_at hat, hat]

end Straight

/-! ## 8. Making directories -/

/-- `t'` is `t` with directories on the way from `top` to `bottom`, where nothing stood before. -/
def MadeDirs (top bottom : Path) (t t' : FileTree) : Prop :=
  ∀ p, t'.at? p = t.at? p ∨
    (t.at? p = none ∧ t'.at? p = some .dir ∧ top <:+ p ∧ p ≠ top ∧ p <:+ bottom)

namespace MadeDirs

variable {top bottom : Path} {t t' t'' : FileTree}

theorem refl (top bottom : Path) (t : FileTree) : MadeDirs top bottom t t := fun _ => Or.inl rfl

theorem at?_of_some (h : MadeDirs top bottom t t') {p : Path} {e : Entry} (hat : t.at? p = some e) :
    t'.at? p = some e := by
  rcases h p with same | ⟨new, -⟩
  · rw [same, hat]
  · simp [new] at hat

theorem at?_of_not_dir (h : MadeDirs top bottom t t') {p : Path} {e : Entry}
    (hat : t'.at? p = some e) (noDir : e ≠ .dir) : t.at? p = some e := by
  rcases h p with same | ⟨-, made, -⟩
  · rw [← same, hat]
  · exact absurd (Option.some.inj (hat.symm.trans made)) noDir

theorem at?_eq (h : MadeDirs top bottom t t') {p : Path} (away : ¬(top <:+ p ∧ p ≠ top)) :
    t'.at? p = t.at? p := by
  rcases h p with same | ⟨-, -, below, other, -⟩
  · exact same
  · exact absurd ⟨below, other⟩ away

theorem linkFree (h : MadeDirs top bottom t t') {root : Path} (free : t.LinkFree root) :
    t'.LinkFree root := fun p target below hat =>
  free p target below (h.at?_of_not_dir hat (by simp))

theorem step {next : Path} (here : next ≠ top) (below : top <:+ next)
    (onWay : next <:+ bottom) (hmade : t'.at? next = some .dir) (hnone : t.at? next = none)
    (same : ∀ p, p ≠ next → t'.at? p = t.at? p) (h : MadeDirs next bottom t' t'') :
    MadeDirs top bottom t t'' := by
  intro p
  by_cases hp : p = next
  · subst hp
    exact Or.inr ⟨hnone, h.at?_of_some hmade, below, here, onWay⟩
  · rcases h p with hsame | ⟨hnew, hdir, hbelow, -, hway⟩
    · exact Or.inl (hsame.trans (same p hp))
    · refine Or.inr ⟨(same p hp).symm.trans hnew, hdir, below.trans hbelow, ?_, hway⟩
      rintro rfl
      exact here (hbelow.eq_of_length_le below.length_le)

theorem longer {next : Path} (here : next ≠ top) (below : top <:+ next)
    (h : MadeDirs next bottom t t') : MadeDirs top bottom t t' := by
  intro p
  rcases h p with hsame | ⟨hnew, hdir, hbelow, -, hway⟩
  · exact Or.inl hsame
  · refine Or.inr ⟨hnew, hdir, below.trans hbelow, ?_, hway⟩
    rintro rfl
    exact here (hbelow.eq_of_length_le below.length_le)

end MadeDirs

namespace FileTree

/-- A route of steps alone leads straight to its path. -/
theorem straight_child {t : FileTree} {r : Route} {name : FileName} {rest : List FileName}
    (free : t.LinkFree r.start) (steps : ∀ s ∈ r.segments ++ name :: rest, Route.goes s = true)
    (level : (".." : FileName) ∉ r.segments ++ name :: rest)
    (tell : (Route.mk r.start (r.segments ++ name :: rest)).CanTell) :
    Straight t (r.child name) where
  free := free
  level h := level (by
    simp only [Route.child, List.mem_append, List.mem_singleton] at h
    simp only [List.mem_append, List.mem_cons]
    tauto)
  ends := ⟨r.segments, name, rfl, steps name (by simp)⟩
  tell := tell.of_sublist (List.Sublist.append_left (by simp) _)

theorem segments_of_cons (r : Route) (name : FileName) (rest : List FileName) :
    r.segments ++ name :: rest = (r.child name).segments ++ rest := by
  simp [Route.child]

theorem path_of_cons (r : Route) {name : FileName} (rest : List FileName)
    (goes : Route.goes name = true) :
    (name :: rest).reverse ++ r.path = rest.reverse ++ (r.child name).path := by
  simp [Route.path_child goes]

theorem path_of_steps {r : Route} (steps : ∀ s ∈ r.segments, Route.goes s = true) :
    r.path = r.segments.reverse ++ r.start := by
  rw [Route.path, Route.steps, List.filter_eq_self.mpr steps]

theorem makeDirsFrom_spec {t : FileTree} {r : Route} {names : List FileName}
    (free : t.LinkFree r.start) (steps : ∀ s ∈ r.segments ++ names, Route.goes s = true)
    (level : (".." : FileName) ∉ r.segments ++ names)
    (tell : (Route.mk r.start (r.segments ++ names)).CanTell) :
    MadeDirs r.path (names.reverse ++ r.path) t (t.makeDirsFrom r names).2 := by
  induction names generalizing t r with
  | nil => exact MadeDirs.refl _ _ _
  | cons name rest ih =>
    have straight := straight_child free steps level tell
    have hpath : (r.child name).path = name :: r.path := Route.path_child (steps name (by simp)) r
    have other : name :: r.path ≠ r.path := fun h => by simpa using congrArg List.length h
    have onWay : name :: r.path <:+ (name :: rest).reverse ++ r.path := by simp
    have goal := path_of_cons r rest (steps name (by simp))
    rw [segments_of_cons] at steps level tell
    rw [makeDirsFrom]
    split
    · have made := ih (r := r.child name) free steps level tell
      rw [goal]
      rw [hpath] at made ⊢
      exact made.longer other (List.suffix_cons name r.path)
    · cases hmade : t.makeDir? (r.child name) with
      | none => exact MadeDirs.refl _ _ _
      | some t' =>
        rw [straight.makeDir?_eq, hpath] at hmade
        split at hmade
        · rename_i hnone
          have free' : t'.LinkFree r.start := free.of_place? hmade (by simp)
          have made := ih (r := r.child name) free' steps level tell
          rw [goal]
          rw [hpath] at made ⊢
          refine MadeDirs.step other (List.suffix_cons name r.path) (by simp)
            (by rw [at?_place? hmade, if_pos rfl]) hnone ?_ made
          intro p hp
          rw [at?_place? hmade, if_neg hp]
        · cases hmade

/-- Where directories are made, and that they are there once it has succeeded. -/
theorem makeDirs_spec {t : FileTree} {r : Route} (free : t.LinkFree r.start)
    (level : (".." : FileName) ∉ r.segments) : MadeDirs r.start r.path t (t.makeDirs r).2 := by
  unfold makeDirs
  split
  · rename_i tell
    have steps : ∀ s ∈ [] ++ r.steps, Route.goes s = true := by
      simp [Route.steps]
    have sub : r.steps.Sublist r.segments := List.filter_sublist
    exact makeDirsFrom_spec (r := ⟨r.start, []⟩) free steps
      (fun h => level (sub.subset h)) (tell.of_sublist sub)
  · exact MadeDirs.refl _ _ _

theorem makeDirsFrom_succeeds {t : FileTree} {r : Route} {names : List FileName}
    (free : t.LinkFree r.start) (steps : ∀ s ∈ r.segments ++ names, Route.goes s = true)
    (level : (".." : FileName) ∉ r.segments ++ names)
    (tell : (Route.mk r.start (r.segments ++ names)).CanTell)
    (inDir : t.at? r.path = some .dir) (valid : ∀ name ∈ names, ValidName name)
    (room : ∀ p, r.path <:+ p → p <:+ names.reverse ++ r.path →
      t.at? p = none ∨ t.at? p = some .dir) :
    (t.makeDirsFrom r names).1 = true ∧
      (t.makeDirsFrom r names).2.at? (names.reverse ++ r.path) = some .dir := by
  induction names generalizing t r with
  | nil =>
    rw [List.append_nil] at level tell
    have : t.lookup? r = some .dir := by
      rw [lookup?, locate_of_dir tell level inDir, Option.bind_some, inDir]
    simp [makeDirsFrom, isDir, this, inDir]
  | cons name rest ih =>
    have straight := straight_child free steps level tell
    have hpath : (r.child name).path = name :: r.path := Route.path_child (steps name (by simp)) r
    have goal := path_of_cons r rest (steps name (by simp))
    have hroom := room (name :: r.path) (List.suffix_cons _ _) (by simp)
    rw [segments_of_cons] at steps level tell
    rw [goal] at room ⊢
    have validRest : ∀ s ∈ rest, ValidName s := fun s hs => valid s (by simp [hs])
    rw [makeDirsFrom, straight.isDir_eq, hpath]
    rcases hroom with hnone | hdir
    · have can : t.CanPlace (name :: r.path) := ⟨valid name (by simp), inDir, by simp [hnone]⟩
      obtain ⟨t', hplace⟩ : ∃ t', t.place? (name :: r.path) .dir = some t' := ⟨_, dif_pos can⟩
      have hmade : t.makeDir? (r.child name) = some t' := by
        rw [straight.makeDir?_eq, hpath, if_pos hnone, hplace]
      have free' := free.of_place? hplace (by simp)
      simp only [hnone, reduceCtorEq, decide_false, Bool.false_eq_true, if_false, hmade]
      rw [← hpath]
      refine ih (r := r.child name) free' steps level tell ?_ validRest ?_
      · rw [at?_place? hplace, if_pos hpath]
      · intro p hbelow hway
        rw [at?_place? hplace]
        split
        · exact Or.inr rfl
        · rename_i hne
          rw [hpath] at hbelow
          exact room p ((List.suffix_cons _ _).trans hbelow) hway
    · simp only [hdir, decide_true, if_true]
      rw [← hpath]
      refine ih (r := r.child name) free steps level tell (by rw [hpath, hdir]) validRest ?_
      intro p hbelow hway
      rw [hpath] at hbelow
      exact room p ((List.suffix_cons _ _).trans hbelow) hway

/-- Making directories succeeds where no file is in the way. -/
theorem makeDirs_succeeds {t : FileTree} {r : Route} (free : t.LinkFree r.start)
    (level : (".." : FileName) ∉ r.segments) (tell : r.CanTell) (inDir : t.at? r.start = some .dir)
    (valid : ∀ name ∈ r.steps, ValidName name)
    (room : ∀ p, r.start <:+ p → p <:+ r.path → t.at? p = none ∨ t.at? p = some .dir) :
    (t.makeDirs r).1 = true ∧ (t.makeDirs r).2.at? r.path = some .dir := by
  have sub : r.steps.Sublist r.segments := List.filter_sublist
  rw [makeDirs, if_pos tell]
  exact makeDirsFrom_succeeds (r := ⟨r.start, []⟩) free (by simp [Route.steps])
    (fun h => level (sub.subset h)) (tell.of_sublist sub) inDir valid room

/-- Making a directory that is there already changes nothing. -/
theorem makeDirs_of_dir {t : FileTree} {r : Route} (free : t.LinkFree r.start)
    (level : (".." : FileName) ∉ r.segments) (tell : r.CanTell) (h : t.at? r.path = some .dir) :
    t.makeDirs r = (true, t) := by
  have above : ∀ p, p <:+ r.path → t.at? p = some .dir := fun p hp =>
    mem_listings.mp (mem_listings_of_suffix (mem_listings.mpr h) hp)
  have valid : ∀ name ∈ r.steps, ValidName name := by
    intro name hname
    obtain ⟨before, after, hsteps⟩ := List.append_of_mem (List.mem_reverse.mpr hname)
    have : name :: (after ++ r.start) <:+ r.path := by simp [Route.path, hsteps]
    exact (at?_of_cons (above _ this)).1
  have made := makeDirs_succeeds free level tell (above _ (List.suffix_append _ _)) valid
    (fun p _ hp => Or.inr (above p hp))
  have same : (t.makeDirs r).2 = t := by
    ext1 p
    rcases makeDirs_spec free level p with hp | ⟨hnone, -, -, -, hway⟩
    · exact hp
    · simp [above p hway] at hnone
  exact Prod.ext made.1 same

/-- A file on the way stops the making of directories before any is made. -/
theorem makeDirsFrom_of_file {t : FileTree} {r : Route} {names : List FileName} {q : Path}
    {content : Content} (free : t.LinkFree r.start)
    (steps : ∀ s ∈ r.segments ++ names, Route.goes s = true)
    (level : (".." : FileName) ∉ r.segments ++ names)
    (tell : (Route.mk r.start (r.segments ++ names)).CanTell)
    (hat : t.at? q = some (.file content)) (below : r.path <:+ q) (other : q ≠ r.path)
    (way : q <:+ names.reverse ++ r.path) : t.makeDirsFrom r names = (false, t) := by
  induction names generalizing r with
  | nil =>
    rw [List.reverse_nil, List.nil_append] at way
    exact absurd (way.eq_of_length_le below.length_le) other
  | cons name rest ih =>
    have straight := straight_child free steps level tell
    have hpath : (r.child name).path = name :: r.path := Route.path_child (steps name (by simp)) r
    have goal := path_of_cons r rest (steps name (by simp))
    rw [segments_of_cons] at steps level tell
    rw [goal] at way
    rw [makeDirsFrom, straight.isDir_eq]
    by_cases here : q = (r.child name).path
    · rw [← here, hat, straight.makeDir?_eq, ← here, hat]
      rfl
    · -- the file stands further on, so a directory stands here
      have further : (r.child name).path <:+ q := by
        refine (List.suffix_or_suffix_of_suffix way (List.suffix_append _ _)).resolve_left
          fun short => ?_
        rw [hpath] at here short
        rcases List.suffix_cons_iff.mp short with hq | short
        · exact here hq
        · exact other (short.eq_of_length_le below.length_le)
      have hdir := at?_eq_dir_of_suffix hat further (Ne.symm here)
      rw [hdir]
      exact ih (r := r.child name) free steps level tell further here way

/-- Where a file stands on the way, no directory is made at all. -/
theorem makeDirs_of_file {t : FileTree} {r : Route} {q : Path} {content : Content}
    (free : t.LinkFree r.start) (level : (".." : FileName) ∉ r.segments) (tell : r.CanTell)
    (hat : t.at? q = some (.file content)) (below : r.start <:+ q) (other : q ≠ r.start)
    (way : q <:+ r.path) : t.makeDirs r = (false, t) := by
  have sub : r.steps.Sublist r.segments := List.filter_sublist
  rw [makeDirs, if_pos tell]
  exact makeDirsFrom_of_file (r := ⟨r.start, []⟩) free (by simp [Route.steps])
    (fun h => level (sub.subset h)) (tell.of_sublist sub) hat below other way

section Enter

variable {t t' : FileTree} {start : Path} {name : FileName}

theorem at?_of_makeDir? {r : Route} (h : t.makeDir? r = some t') {p : Path} {e : Entry}
    (hat : t.at? p = some e) : t'.at? p = some e := by
  obtain ⟨q, -, fresh, hplace⟩ := exists_of_makeDir? h
  rw [at?_place? hplace, if_neg (by rintro rfl; simp [hat] at fresh), hat]

theorem isDir_enter (h : t.at? (name :: start) = some .dir) {segments : List FileName} :
    t.isDir ⟨start, name :: segments⟩ = t.isDir ⟨name :: start, segments⟩ := by
  rw [isDir, isDir, lookup?, lookup?, locate_enter h]

theorem makeDirsFrom_enter (h : t.at? (name :: start) = some .dir) {done rest : List FileName} :
    t.makeDirsFrom ⟨start, name :: done⟩ rest = t.makeDirsFrom ⟨name :: start, done⟩ rest := by
  induction rest generalizing t done with
  | nil => rw [makeDirsFrom, makeDirsFrom, isDir_enter h]
  | cons next rest ih =>
    have child : (Route.mk start (name :: done)).child next = ⟨start, name :: (done ++ [next])⟩ :=
      rfl
    have child' : (Route.mk (name :: start) done).child next = ⟨name :: start, done ++ [next]⟩ :=
      rfl
    have same : t.makeDir? ⟨start, name :: (done ++ [next])⟩ =
        t.makeDir? ⟨name :: start, done ++ [next]⟩ := by
      rw [makeDir?, makeDir?, locateEntry_enter h (by simp)]
    rw [makeDirsFrom, makeDirsFrom, child, child', isDir_enter h, same, ih h]
    cases hmade : t.makeDir? ⟨name :: start, done ++ [next]⟩ with
    | none => rfl
    | some t' => dsimp only; rw [ih (at?_of_makeDir? hmade h)]

/-- Directories are made behind a directory that stands as they are made from there on. -/
theorem makeDirs_enter (h : t.at? (name :: start) = some .dir) {segments : List FileName} :
    t.makeDirs ⟨start, name :: segments⟩ = t.makeDirs ⟨name :: start, segments⟩ := by
  have valid := (at?_of_cons h).1
  have goes := Route.goes_of_validName valid
  have steps : (Route.mk start (name :: segments)).steps =
      name :: (Route.mk (name :: start) segments).steps := List.filter_cons_of_pos goes
  by_cases tell : (Route.mk start (name :: segments)).CanTell
  · have tell' := (canTell_enter valid).mp tell
    have here : t.isDir ⟨start, [name]⟩ = true := by
      have path : (Route.mk start [name]).path = name :: start := by
        rw [Route.path_mk, List.filter_cons_of_pos goes]; rfl
      have tellName : (Route.mk start [name]).CanTell := tell.of_sublist (by simp)
      have level : (".." : FileName) ∉ [name] := by simpa using fun hup => valid.2.2.1 hup.symm
      rw [isDir, lookup?, locate_of_dir tellName level (by rw [path, h]), path]
      simp [h]
    rw [makeDirs, makeDirs, if_pos tell, if_pos tell', steps, makeDirsFrom]
    exact (if_pos here).trans (makeDirsFrom_enter h)
  · have tell' := mt (canTell_enter valid).mpr tell
    rw [makeDirs, makeDirs, if_neg tell, if_neg tell']

end Enter

theorem isDir_of_makeDirsFrom {t : FileTree} {r : Route} {names : List FileName}
    (h : (t.makeDirsFrom r names).1 = true) :
    (t.makeDirsFrom r names).2.isDir ⟨r.start, r.segments ++ names⟩ = true := by
  induction names generalizing t r with
  | nil => simpa [makeDirsFrom] using h
  | cons name rest ih =>
    rw [segments_of_cons]
    rw [makeDirsFrom] at h ⊢
    split at h
    · rename_i present
      rw [if_pos present]
      exact ih (r := r.child name) h
    · rename_i absent
      rw [if_neg absent]
      cases hmade : t.makeDir? (r.child name) with
      | none => rw [hmade] at h; cases h
      | some t' =>
        rw [hmade] at h
        exact ih (r := r.child name) h

/-- Where making a directory has succeeded, it is there. -/
theorem dir_of_makeDirs {t t' : FileTree} {r : Route} (free : t.LinkFree r.start)
    (level : (".." : FileName) ∉ r.segments) (h : t.makeDirs r = (true, t')) :
    r.CanTell ∧ t'.at? r.path = some .dir := by
  have made := makeDirs_spec free level
  rw [h] at made
  have sub : r.steps.Sublist r.segments := List.filter_sublist
  unfold makeDirs at h
  split at h
  · rename_i tell
    refine ⟨tell, ?_⟩
    have there := isDir_of_makeDirsFrom (r := ⟨r.start, []⟩) (by rw [h])
    rw [h, isDir, decide_eq_true_eq, lookup?, Option.bind_eq_some_iff] at there
    obtain ⟨q, hq, hdir⟩ := there
    have hpath := path_of_locate (r := ⟨r.start, [] ++ r.steps⟩) (made.linkFree free)
      (fun hup => level (sub.subset hup)) hq
    rwa [hpath, List.nil_append, path_of_steps (by simp [Route.steps])] at hdir
  · cases h

end FileTree

end LocalVcs
