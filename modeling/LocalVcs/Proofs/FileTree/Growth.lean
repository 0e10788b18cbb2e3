/-
# Routes through links, and trees that grow

Where links stand, a route leads elsewhere than to the path that it spells.  What it comes to is
told step by step, and it is kept when a tree grows: when directories are added, and files are
written where none or others stand.

* `Reaches`: the steps of a route, through so many links.
* `locate_iff_reaches`: they are what a route is located by.
* `Extends.locate`: in a tree that has grown a route leads where it led.
* `canPlace_of_locate`: a file can be written wherever a route leads but on a directory.
* `RoomForDir.makeDirsFrom_run`: where there is room for a directory, it is made.
-/
import LocalVcs.Proofs.FileTree.Straight

namespace LocalVcs.FileTree

variable {t t' t'' : FileTree}

/-! ## 1. The steps of a route -/

/-- From a path the segments lead to another one, through at most so many links. -/
inductive Reaches (t : FileTree) : Nat → Path → List FileName → Path → Prop
  | done {links here} : Reaches t links here [] here
  | idle {links here rest q} {s : FileName} (dir : t.at? here = some .dir)
    (stays : s = "" ∨ s = ".")
      (onward : Reaches t links here rest q) : Reaches t links here (s :: rest) q
  | up {links here rest q} (dir : t.at? here = some .dir)
      (onward : Reaches t links here.tail rest q) : Reaches t links here (".." :: rest) q
  | link {links here s rest target q} (dir : t.at? here = some .dir) (valid : ValidName s)
      (hat : t.at? (s :: here) = some (.link target))
      (onward : Reaches t links (if isAbsolute target then [] else here)
        (segmentsOf target ++ rest) q) : Reaches t (links + 1) here (s :: rest) q
  | enter {links here s rest e q} (dir : t.at? here = some .dir) (valid : ValidName s)
      (hat : t.at? (s :: here) = some e) (noLink : ∀ target, e ≠ .link target)
      (onward : Reaches t links (s :: here) rest q) : Reaches t links here (s :: rest) q
  | fresh {links here s} (dir : t.at? here = some .dir) (valid : ValidName s)
      (hat : t.at? (s :: here) = none) : Reaches t links here [s] (s :: here)

/-- What a walk does at its first segment. -/
theorem walk_cons {onward : Path → List FileName → Option Path} {here : Path} {s : FileName}
    {rest : List FileName} {q : Path} (h : t.walk onward here (s :: rest) = some q) :
    t.at? here = some .dir ∧
      ((s = "" ∨ s = ".") ∧ t.walk onward here rest = some q ∨
        s = ".." ∧ t.walk onward here.tail rest = some q ∨
        ValidName s ∧
          ((∃ target, t.at? (s :: here) = some (.link target) ∧
              onward (if isAbsolute target then [] else here)
                (segmentsOf target ++ rest) = some q) ∨
            (∃ e, t.at? (s :: here) = some e ∧ (∀ target, e ≠ .link target) ∧
              t.walk onward (s :: here) rest = some q) ∨
            (t.at? (s :: here) = none ∧ rest = [] ∧ q = s :: here))) := by
  rw [walk] at h
  split at h
  · cases h
  · rename_i dir
    refine ⟨not_not.mp dir, ?_⟩
    split at h
    · exact Or.inl ⟨‹_›, h⟩
    · split at h
      · exact Or.inr (Or.inl ⟨‹_›, h⟩)
      · split at h
        · cases h
        · rename_i valid
          refine Or.inr (Or.inr ⟨not_not.mp valid, ?_⟩)
          split at h
          · exact Or.inl ⟨_, ‹_›, h⟩
          · rename_i e noLink hat
            exact Or.inr (Or.inl ⟨e, hat, by rintro target rfl; exact noLink target rfl, h⟩)
          · split at h
            · rename_i last
              exact Or.inr (Or.inr ⟨‹_›, List.isEmpty_iff.mp last, (Option.some.inj h).symm⟩)
            · cases h

theorem reaches_of_walk {onward : Path → List FileName → Option Path} {links : Nat} {here q : Path}
    {segments : List FileName} (go : ∀ {here segments q}, onward here segments = some q →
      ∃ fewer, links = fewer + 1 ∧ Reaches t fewer here segments q)
    (h : t.walk onward here segments = some q) : Reaches t links here segments q := by
  induction segments generalizing here with
  | nil =>
    obtain rfl : here = q := by simpa [walk] using h
    exact .done
  | cons s rest ih =>
    obtain ⟨dir, ⟨stays, hrest⟩ | ⟨rfl, hrest⟩ | ⟨valid, step⟩⟩ := walk_cons h
    · exact .idle dir stays (ih hrest)
    · exact .up dir (ih hrest)
    · obtain ⟨target, hat, honward⟩ | ⟨e, hat, noLink, hrest⟩ | ⟨hat, rfl, rfl⟩ := step
      · obtain ⟨fewer, rfl, reaches⟩ := go honward
        exact .link dir valid hat reaches
      · exact .enter dir valid hat noLink (ih hrest)
      · exact .fresh dir valid hat

theorem follow_iff_reaches {links : Nat} {here q : Path} {segments : List FileName} :
    t.follow links here segments = some q ↔ Reaches t links here segments q := by
  constructor
  · intro h
    induction links generalizing here segments q with
    | zero => exact reaches_of_walk (fun h => by cases h) h
    | succ links ih => exact reaches_of_walk (fun h => ⟨links, rfl, ih h⟩) h
  · intro h
    have walks : ∀ links, ∃ onward, t.follow links = t.walk onward := by
      rintro (_ | links)
      · exact ⟨_, rfl⟩
      · exact ⟨_, rfl⟩
    induction h with
    | @done links here =>
      obtain ⟨onward, hfollow⟩ := walks links
      rw [hfollow, walk]
    | @idle links _ _ _ _ dir stays _ ih =>
      obtain ⟨onward, hfollow⟩ := walks links
      rw [hfollow] at ih ⊢
      rw [walk, if_neg (not_not.mpr dir), if_pos stays, ih]
    | @up links _ _ _ dir _ ih =>
      obtain ⟨onward, hfollow⟩ := walks links
      rw [hfollow] at ih ⊢
      rw [walk, if_neg (not_not.mpr dir), if_neg (by decide), if_pos rfl, ih]
    | link dir valid hat _ ih =>
      obtain ⟨nonempty, noDot, noDots, -⟩ := id valid
      rw [follow, walk, if_neg (not_not.mpr dir), if_neg (by simp [nonempty, noDot]),
        if_neg noDots, if_neg (not_not.mpr valid), hat]
      exact ih
    | @enter links _ _ _ _ _ dir valid hat noLink _ ih =>
      obtain ⟨onward, hfollow⟩ := walks links
      rw [hfollow] at ih ⊢
      rw [walk_name hat noLink, ih]
    | @fresh links _ _ dir valid hat =>
      obtain ⟨onward, hfollow⟩ := walks links
      obtain ⟨nonempty, noDot, noDots, -⟩ := id valid
      simp [hfollow, walk, dir, nonempty, noDot, noDots, valid, hat]

theorem locate_iff_reaches {r : Route} {q : Path} :
    t.locate r = some q ↔ r.CanTell ∧ Reaches t mostLinks r.start r.segments q := by
  rw [locate_eq]
  split
  · simp [follow_iff_reaches, *]
  · simp [*]

/-! ## 2. What stands at the end of a route -/

theorem at?_tail {path : Path} (h : t.at? path = some .dir) : t.at? path.tail = some .dir := by
  cases path with
  | nil => rfl
  | cons name parent => exact (at?_of_cons h).2

/-- One name leads on from a directory to what stands there, unless that is a link. -/
theorem Reaches.name {links : Nat} {here : Path} {name : FileName} (dir : t.at? here = some .dir)
    (valid : ValidName name) (noLink : ∀ target, t.at? (name :: here) ≠ some (.link target)) :
    Reaches t links here [name] (name :: here) := by
  cases hat : t.at? (name :: here) with
  | none => exact .fresh dir valid hat
  | some e =>
    refine .enter dir valid hat ?_ .done
    rintro target rfl
    exact noLink target hat

/-- A route to a directory leads on by one name. -/
theorem Reaches.child {links : Nat} {here q : Path} {front : List FileName} {name : FileName}
    (h : Reaches t links here front q) (dir : t.at? q = some .dir) (valid : ValidName name)
    (noLink : ∀ target, t.at? (name :: q) ≠ some (.link target)) :
    Reaches t links here (front ++ [name]) (name :: q) := by
  induction h with
  | done => exact .name dir valid noLink
  | idle hdir stays _ ih => exact .idle hdir stays (ih dir noLink)
  | up hdir _ ih => exact .up hdir (ih dir noLink)
  | link hdir hvalid hat _ ih =>
    have onward := ih dir noLink
    rw [List.append_assoc] at onward
    exact .link hdir hvalid hat onward
  | enter hdir hvalid hat plain _ ih => exact .enter hdir hvalid hat plain (ih dir noLink)
  | fresh _ _ hat => simp [hat] at dir

theorem locate_child {r : Route} {q : Path} {name : FileName} (h : t.locate r = some q)
    (dir : t.at? q = some .dir) (valid : ValidName name) (tell : (r.child name).CanTell)
    (noLink : ∀ target, t.at? (name :: q) ≠ some (.link target)) :
    t.locate (r.child name) = some (name :: q) := by
  obtain ⟨-, reaches⟩ := locate_iff_reaches.mp h
  exact locate_iff_reaches.mpr ⟨tell, reaches.child dir valid noLink⟩

theorem locateEntry_child_iff {r : Route} {p : Path} {name : FileName} :
    t.locateEntry (r.child name) = some p ↔ (r.child name).CanTell ∧ ValidName name ∧
      ∃ q, t.locate r = some q ∧ t.at? q = some .dir ∧ p = name :: q := by
  have last : (r.child name).segments.getLast? = some name := List.getLast?_concat
  have front : (⟨(r.child name).start, (r.child name).segments.dropLast⟩ : Route) = r := by
    simp [Route.child]
  rw [locateEntry, last]
  simp only [front]
  constructor
  · intro h
    split at h
    · rename_i told
      obtain ⟨q, hq, hp⟩ := Option.bind_eq_some_iff.mp h
      split at hp
      · exact ⟨told.1, told.2, q, hq, ‹_›, (Option.some.inj hp).symm⟩
      · cases hp
    · cases h
  · rintro ⟨tell, valid, q, hq, dir, rfl⟩
    simp [tell, valid, hq, dir]

/-- A route ends at an entry that is no link, or in a directory at a name that is free. -/
theorem Reaches.ends {links : Nat} {here q : Path} {segments : List FileName}
    (h : Reaches t links here segments q)
    (start : ∃ e, t.at? here = some e ∧ ∀ target, e ≠ .link target) :
    (∃ e, t.at? q = some e ∧ ∀ target, e ≠ .link target) ∨
      ∃ name parent, q = name :: parent ∧ ValidName name ∧ t.at? parent = some .dir ∧
        t.at? q = none := by
  induction h with
  | done => exact Or.inl start
  | idle _ _ _ ih => exact ih start
  | up dir _ ih => exact ih ⟨.dir, at?_tail dir, by simp⟩
  | link dir _ _ _ ih =>
    refine ih ⟨.dir, ?_, by simp⟩
    split
    · exact t.at?_nil
    · exact dir
  | enter _ _ hat noLink _ ih => exact ih ⟨_, hat, noLink⟩
  | fresh dir valid hat => exact Or.inr ⟨_, _, rfl, valid, dir, hat⟩

theorem Reaches.start_dir {links : Nat} {here q : Path} {segments : List FileName}
    (h : Reaches t links here segments q) (some_ : segments ≠ []) : t.at? here = some .dir := by
  cases h with
  | done => exact absurd rfl some_
  | idle dir => exact dir
  | up dir => exact dir
  | link dir => exact dir
  | enter dir => exact dir
  | fresh dir => exact dir

theorem ends_of_locate {r : Route} {q : Path} (h : t.locate r = some q) (some_ : r.segments ≠ []) :
    (∃ e, t.at? q = some e ∧ ∀ target, e ≠ .link target) ∨
      ∃ name parent, q = name :: parent ∧ ValidName name ∧ t.at? parent = some .dir ∧
        t.at? q = none := by
  obtain ⟨-, reaches⟩ := locate_iff_reaches.mp h
  exact reaches.ends ⟨.dir, reaches.start_dir some_, by simp⟩

/-- No route with segments ends at a link. -/
theorem not_link_of_locate {r : Route} {q : Path} (h : t.locate r = some q)
    (some_ : r.segments ≠ [])
    (target : String) : t.at? q ≠ some (.link target) := by
  intro hlink
  obtain ⟨e, hat, noLink⟩ | ⟨_, _, -, -, -, hnone⟩ := ends_of_locate h some_
  · exact noLink target (Option.some.inj (hat.symm.trans hlink))
  · simp [hnone] at hlink

/-- Where a route leads, a file can be written unless a directory stands there. -/
theorem canPlace_of_locate {r : Route} {q : Path} (h : t.locate r = some q)
    (some_ : r.segments ≠ [])
    (noDir : t.at? q ≠ some .dir) : t.CanPlace q := by
  obtain ⟨e, hat, noLink⟩ | ⟨name, parent, rfl, valid, dir, -⟩ := ends_of_locate h some_
  · cases e with
    | file content => exact canPlace_of_file hat
    | dir => exact absurd hat noDir
    | link target => exact absurd rfl (noLink target)
  · exact ⟨valid, dir, noDir⟩

/-- A route leads behind the segments that it begins with only if these lead to a directory. -/
theorem Reaches.exists_front {links : Nat} {here q : Path} {segments front rest : List FileName}
    (h : Reaches t links here segments q) (hsegments : segments = front ++ rest)
    (some_ : rest ≠ []) :
    ∃ dir, Reaches t links here front dir ∧ t.at? dir = some .dir := by
  have start := h.start_dir (by simp [hsegments, some_])
  induction h generalizing front with
  | done => simp [some_] at hsegments
  | idle dir stays onward ih =>
    cases front with
    | nil => exact ⟨_, .done, start⟩
    | cons first front =>
      obtain ⟨rfl, rfl⟩ := List.cons.inj hsegments
      obtain ⟨q', reaches, hdir⟩ := ih rfl (onward.start_dir (by simp [some_]))
      exact ⟨q', .idle dir stays reaches, hdir⟩
  | up dir onward ih =>
    cases front with
    | nil => exact ⟨_, .done, start⟩
    | cons first front =>
      obtain ⟨rfl, rfl⟩ := List.cons.inj hsegments
      obtain ⟨q', reaches, hdir⟩ := ih rfl (onward.start_dir (by simp [some_]))
      exact ⟨q', .up dir reaches, hdir⟩
  | link dir valid hat onward ih =>
    cases front with
    | nil => exact ⟨_, .done, start⟩
    | cons first front =>
      obtain ⟨rfl, rfl⟩ := List.cons.inj hsegments
      obtain ⟨q', reaches, hdir⟩ := ih (List.append_assoc _ _ _).symm
        (onward.start_dir (by simp [some_]))
      exact ⟨q', .link dir valid hat reaches, hdir⟩
  | enter dir valid hat noLink onward ih =>
    cases front with
    | nil => exact ⟨_, .done, start⟩
    | cons first front =>
      obtain ⟨rfl, rfl⟩ := List.cons.inj hsegments
      obtain ⟨q', reaches, hdir⟩ := ih rfl (onward.start_dir (by simp [some_]))
      exact ⟨q', .enter dir valid hat noLink reaches, hdir⟩
  | fresh dir valid hat =>
    cases front with
    | nil => exact ⟨_, .done, start⟩
    | cons first front =>
      obtain ⟨rfl, hrest⟩ := List.cons.inj hsegments
      simp [some_] at hrest

theorem isDir_of_locate {start : Path} {front rest : List FileName} {q : Path}
    (h : t.locate ⟨start, front ++ rest⟩ = some q) (some_ : rest ≠ []) :
    t.isDir ⟨start, front⟩ = true := by
  obtain ⟨tell, reaches⟩ := locate_iff_reaches.mp h
  obtain ⟨dir, front_, hdir⟩ := reaches.exists_front rfl some_
  have hlocate : t.locate ⟨start, front⟩ = some dir :=
    locate_iff_reaches.mpr ⟨tell.of_sublist (List.sublist_append_left front rest), front_⟩
  simp [isDir, lookup?, hlocate, hdir]

/-- Behind a route to anything but a directory no name leads on. -/
theorem locate_child_eq_none {r : Route} {q : Path} {name : FileName} (h : t.locate r = some q)
    (noDir : t.at? q ≠ some .dir) : t.locate (r.child name) = none := by
  cases hchild : t.locate (r.child name) with
  | none => rfl
  | some p =>
    have front : t.isDir r = true := isDir_of_locate hchild (by simp)
    simp [isDir, lookup?, h, noDir] at front

theorem not_dir_of_place? {path : Path} {e : Entry} (h : t.place? path e = some t') :
    t.at? path ≠ some .dir := by
  unfold place? at h
  split at h
  · rename_i can
    cases path with
    | nil => exact can.elim
    | cons name parent => exact can.2.2
  · cases h

/-! ## 3. Trees that grow -/

/-- From `t` to `t'` directories and links stay as they are, and no links come. -/
structure Extends (t t' : FileTree) : Prop where
  keeps : ∀ {p e}, t.at? p = some e → (∀ content, e ≠ .file content) → t'.at? p = some e
  noLink : ∀ {p target}, t'.at? p = some (.link target) → t.at? p = some (.link target)

namespace Extends

theorem refl (t : FileTree) : Extends t t := ⟨fun h _ => h, fun h => h⟩

theorem trans (h : Extends t t') (h' : Extends t' t'') : Extends t t'' :=
  ⟨fun hat noFile => h'.keeps (h.keeps hat noFile) noFile, fun hlink => h.noLink (h'.noLink hlink)⟩

theorem reaches (h : Extends t t') {links : Nat} {here q : Path} {segments : List FileName}
    (reaches : Reaches t links here segments q) : Reaches t' links here segments q := by
  have free : ∀ {p}, (∀ target, t.at? p ≠ some (.link target)) →
      ∀ target, t'.at? p ≠ some (.link target) := fun noLink target hlink =>
    noLink target (h.noLink hlink)
  have dir : ∀ {p}, t.at? p = some .dir → t'.at? p = some .dir := fun hdir => h.keeps hdir (by simp)
  -- where the route ends, whatever has come to stand there is no link
  have last : ∀ {links here s}, t.at? here = some .dir → ValidName s →
      (∀ target, t.at? (s :: here) ≠ some (.link target)) →
      Reaches t' links here [s] (s :: here) := fun hdir valid noLink =>
    .name (dir hdir) valid (free noLink)
  induction reaches with
  | done => exact .done
  | idle hdir stays _ ih => exact .idle (dir hdir) stays ih
  | up hdir _ ih => exact .up (dir hdir) ih
  | link hdir valid hat _ ih => exact .link (dir hdir) valid (h.keeps hat (by simp)) ih
  | @enter _ _ _ rest e _ hdir valid hat noLink onward ih =>
    cases rest with
    | nil =>
      cases onward
      exact last hdir valid fun target hlink =>
        noLink target (Option.some.inj (hat.symm.trans hlink))
    | cons _ _ =>
      have inside := onward.start_dir (by simp)
      obtain rfl : e = .dir := Option.some.inj (hat.symm.trans inside)
      exact .enter (dir hdir) valid (dir hat) (by simp) ih
  | fresh hdir valid hat => exact last hdir valid (by simp [hat])

/-- **In a tree that has grown a route leads where it led.** -/
theorem locate (h : Extends t t') {r : Route} {q : Path} (hlocate : t.locate r = some q) :
    t'.locate r = some q := by
  obtain ⟨tell, reaches⟩ := locate_iff_reaches.mp hlocate
  exact locate_iff_reaches.mpr ⟨tell, h.reaches reaches⟩

theorem of_place? {path : Path} {e : Entry} (h : t.place? path e = some t')
    (noLink : ∀ target, t.at? path ≠ some (.link target)) (plain : ∀ target, e ≠ .link target) :
    Extends t t' := by
  have noDir := not_dir_of_place? h
  refine ⟨fun {p e'} hat noFile => ?_, fun {p target} hlink => ?_⟩
  · rw [at?_place? h, if_neg, hat]
    rintro rfl
    cases e' with
    | file content => exact noFile content rfl
    | dir => exact noDir hat
    | link target => exact noLink target hat
  · rw [at?_place? h] at hlink
    split at hlink
    · exact absurd (Option.some.inj hlink) (plain target)
    · exact hlink

theorem of_file {p : Path} (other : ∀ q, q ≠ p → t'.at? q = t.at? q)
    (before : ∀ e, t.at? p = some e → ∃ content, e = .file content)
    (after : ∀ e, t'.at? p = some e → ∃ content, e = .file content) : Extends t t' := by
  constructor
  · intro q e hat noFile
    rw [other q, hat]
    rintro rfl
    obtain ⟨content, rfl⟩ := before e hat
    exact noFile content rfl
  · intro q target hlink
    rwa [← other q]
    rintro rfl
    obtain ⟨content, hfile⟩ := after _ hlink
    cases hfile

end Extends

/-! ## 4. Room for a directory -/

/-- A route leads to a directory, or it ends in a name that is free for one. -/
def RoomForDir (t : FileTree) (r : Route) (p : Path) : Prop :=
  t.locate r = some p ∧ t.at? p = some .dir ∨ t.locateEntry r = some p ∧ t.at? p = none

namespace RoomForDir

variable {r : Route} {name : FileName} {p : Path}

theorem locate (h : t.RoomForDir (r.child name) p) : t.locate (r.child name) = some p := by
  obtain ⟨hlocate, -⟩ | ⟨hentry, free⟩ := h
  · exact hlocate
  · obtain ⟨tell, valid, q, hq, dir, rfl⟩ := locateEntry_child_iff.mp hentry
    exact locate_child hq dir valid tell (by simp [free])

/-- The route without its last name leads to a directory. -/
theorem isDir (h : t.RoomForDir (r.child name) p) : t.isDir r = true :=
  isDir_of_locate h.locate (by simp)

theorem of_extends (h : t.RoomForDir (r.child name) p) (grown : Extends t t')
    (dir : t'.at? p = some .dir) : t'.RoomForDir (r.child name) p :=
  Or.inl ⟨grown.locate h.locate, dir⟩

/-- Where there is room for it, a directory is made or passed through. -/
theorem makeDirsFrom_run (h : t.RoomForDir (r.child name) p) (rest : List FileName) :
    ∃ t', t.makeDirsFrom r (name :: rest) = t'.makeDirsFrom (r.child name) rest ∧ Extends t t' ∧
      ∀ q, t'.at? q = if q = p then some .dir else t.at? q := by
  have leads := h.locate
  rw [makeDirsFrom]
  obtain ⟨-, dir⟩ | ⟨hentry, free⟩ := h
  · refine ⟨t, if_pos (by simp [FileTree.isDir, lookup?, leads, dir]), Extends.refl t, fun q => ?_⟩
    split
    · rename_i same
      rw [same, dir]
    · rfl
  · have can : t.CanPlace p := by
      obtain ⟨-, valid, q, -, dir, rfl⟩ := locateEntry_child_iff.mp hentry
      exact ⟨valid, dir, by simp [free]⟩
    have placed : t.place? p .dir = some (t.place p .dir can) := dif_pos can
    have made : t.makeDir? (r.child name) = some (t.place p .dir can) := by
      simp [makeDir?, hentry, free, placed]
    refine ⟨t.place p .dir can, ?_, .of_place? placed (by simp [free]) (by simp), at?_place? placed⟩
    rw [if_neg (by simp [FileTree.isDir, lookup?, leads, free]), made]

end RoomForDir

/-! ## 5. Directories that come -/

/-- From `t` to `t'` nothing has happened but that directories have come. -/
def OnlyDirsCome (t t' : FileTree) : Prop :=
  ∀ p, t'.at? p = t.at? p ∨ (t.at? p = none ∧ t'.at? p = some .dir)

namespace OnlyDirsCome

theorem refl (t : FileTree) : OnlyDirsCome t t := fun _ => Or.inl rfl

theorem trans (h : OnlyDirsCome t t') (h' : OnlyDirsCome t' t'') : OnlyDirsCome t t'' := by
  intro p
  rcases h' p with same | ⟨hnone, hdir⟩
  · rw [same]; exact h p
  · rcases h p with same | ⟨-, hdir'⟩
    · exact Or.inr ⟨same ▸ hnone, hdir⟩
    · simp [hnone] at hdir'

theorem at?_of_some (h : OnlyDirsCome t t') {p : Path} {e : Entry} (hat : t.at? p = some e) :
    t'.at? p = some e := by
  rcases h p with same | ⟨hnone, -⟩
  · rw [same, hat]
  · simp [hnone] at hat

theorem extends_ (h : OnlyDirsCome t t') : Extends t t' := by
  refine ⟨fun hat _ => h.at?_of_some hat, fun {p target} hlink => ?_⟩
  rcases h p with same | ⟨-, hdir⟩
  · rwa [← same]
  · simp [hdir] at hlink

end OnlyDirsCome

/-- A directory is made only where nothing stands. -/
theorem fresh_of_makeDir? {start : Path} {name : FileName}
    (h : t.makeDir? ⟨start, [name]⟩ = some t') :
    t.at? (name :: start) = none := by
  obtain ⟨path, hpath, fresh, -⟩ := exists_of_makeDir? h
  exact path_of_locateEntry_name hpath ▸ fresh

theorem onlyDirsCome_makeDir? {r : Route} (h : t.makeDir? r = some t') : OnlyDirsCome t t' := by
  obtain ⟨path, -, fresh, hplace⟩ := exists_of_makeDir? h
  intro p
  rw [at?_place? hplace]
  split
  · rename_i same
    exact Or.inr ⟨same ▸ fresh, rfl⟩
  · exact Or.inl rfl

theorem onlyDirsCome_makeDirsFrom {r : Route} {names : List FileName} :
    OnlyDirsCome t (t.makeDirsFrom r names).2 := by
  induction names generalizing t r with
  | nil => exact OnlyDirsCome.refl t
  | cons name rest ih =>
    rw [makeDirsFrom]
    split
    · exact ih
    · split
      · rename_i t₁ hmake
        exact (onlyDirsCome_makeDir? hmake).trans ih
      · exact OnlyDirsCome.refl t

/-- Directories are made and nothing else happens, wherever links lead. -/
theorem onlyDirsCome_makeDirs (t : FileTree) (r : Route) : OnlyDirsCome t (t.makeDirs r).2 := by
  unfold makeDirs
  split
  · exact onlyDirsCome_makeDirsFrom
  · exact OnlyDirsCome.refl t

end LocalVcs.FileTree
