/-
# Sparing subdirectories

The working tree is flat.  What a command writes and deletes are single names in the working
directory and whatever lies in the repository's own directory, so it reaches into no other
directory. Such a directory stays as it is with all it holds; but where a working file is to be
written under its name, it gives place to it as a whole.  This is so however damaged the repository
is, as long as no link stands in its way.

* `Inward`: texts that lead nowhere but into a directory.
* `Spared`: what becomes of the subdirectories of a working directory.
* `Spared.of_write?`, `Spared.of_makeDirs` and the like: what is done along a route into the
  repository's own directory spares all subdirectories.
* `Edits.spared`: so do all edits that stage nothing but under texts that lead inward.
-/
import LocalVcs.Proofs.Edits
import LocalVcs.Proofs.FileTree.ShownNames

namespace LocalVcs

open FileTree Layout

variable {root : Path} {may : FileName → Prop} {t t' t'' : FileTree}

/-! ## 1. Texts that lead inward -/

/-- A text that leads from a directory nowhere but into it. -/
structure Inward (text : String) : Prop where
  relative : isAbsolute text = false
  level : (".." : FileName) ∉ segmentsOf text

namespace Inward

theorem of_names {text name : String} (h : Worktree.Names text name) : Inward text := by
  refine ⟨h.relative, fun hup => h.noUp ?_⟩
  have stays : (".." : FileName) ∈ (segmentsOf text).filter Route.goes :=
    List.mem_filter.mpr ⟨hup, by decide⟩
  rw [h.steps] at stays
  exact (FileName.text.inj (List.mem_singleton.mp stays)).symm

/-- What is shown of a name leads to an entry, be it that of the name or another one. -/
theorem of_validName {name : FileName} (h : ValidName name) : Inward name.shown := by
  obtain ⟨-, -, noUp, noSlash, -⟩ := h
  have noSlash : '/' ∉ name.shown.toList := fun hslash =>
    noSlash (FileName.mem_chars_of_mem_shown (by decide) hslash)
  have noUp : name.shown ≠ ".." := FileName.shown_ne (by decide) noUp
  refine ⟨?_, by simpa [segmentsOf_of_noSlash noSlash] using Ne.symm noUp⟩
  rw [isAbsolute, decide_eq_false_iff_not]
  exact fun hfirst => noSlash (List.mem_of_mem_head? hfirst)

end Inward

/-! ## 2. What becomes of subdirectories -/

/-- From `t` to `t'` each subdirectory of the working directory stays as it is with all it holds,
unless working files of its name may be written; such a one may also be no directory any more.  No
subdirectories and no links are made. -/
structure Spared (root : Path) (may : FileName → Prop) (t t' : FileTree) : Prop where
  kept : ∀ dir : FileName, dir ≠ metaName → t.at? (dir :: root) = some .dir →
    (∀ p, dir :: root <:+ p → t'.at? p = t.at? p) ∨ may dir ∧ t'.at? (dir :: root) ≠ some .dir
  noDir : ∀ dir : FileName, dir ≠ metaName → t'.at? (dir :: root) = some .dir →
    t.at? (dir :: root) = some .dir
  noLink : ∀ p target, t'.at? p = some (.link target) → t.at? p = some (.link target)

/-- No link stands at the repository's own directory or in it, nor under the name of a working file
that may be written. -/
structure Unlinked (root : Path) (may : FileName → Prop) (t : FileTree) : Prop where
  inside : t.LinkFree (metaPath root)
  named : ∀ name, may name → ∀ target, t.at? (name :: root) ≠ some (.link target)

namespace Spared

theorem refl (root : Path) (may : FileName → Prop) (t : FileTree) : Spared root may t t :=
  ⟨fun _ _ _ => Or.inl fun _ _ => rfl, fun _ _ h => h, fun _ _ h => h⟩

theorem trans (h : Spared root may t t') (h' : Spared root may t' t'') : Spared root may t t'' where
  kept dir notMeta hdir := by
    obtain same | ⟨can, gone⟩ := h.kept dir notMeta hdir
    · obtain same' | lost := h'.kept dir notMeta (by rw [same _ (List.suffix_refl _), hdir])
      · exact Or.inl fun p below => (same' p below).trans (same p below)
      · exact Or.inr lost
    · exact Or.inr ⟨can, fun back => gone (h'.noDir dir notMeta back)⟩
  noDir dir notMeta hdir := h.noDir dir notMeta (h'.noDir dir notMeta hdir)
  noLink p target hlink := h.noLink p target (h'.noLink p target hlink)

theorem unlinked (h : Spared root may t t') (free : Unlinked root may t) :
    Unlinked root may t' where
  inside p target below hlink := free.inside p target below (h.noLink p target hlink)
  named name can target hlink := free.named name can target (h.noLink _ target hlink)

/-- What is done in the repository's own directory spares all others. -/
theorem of_inside (frame : ∀ p, ¬metaPath root <:+ p → t'.at? p = t.at? p)
    (noLink : ∀ p target, t'.at? p = some (.link target) → t.at? p = some (.link target)) :
    Spared root may t t' := by
  have away : ∀ {dir : FileName}, dir ≠ metaName →
      ∀ {p}, dir :: root <:+ p → ¬metaPath root <:+ p :=
    fun notMeta _ below => (Area.holds_work notMeta below).outside rfl
  refine ⟨fun dir notMeta _ => Or.inl fun p below => frame p (away notMeta below), ?_, noLink⟩
  intro dir notMeta hdir
  rwa [← frame _ (away notMeta (List.suffix_refl _))]

/-- An edit of one working file spares all directories but one of its name. -/
theorem of_workEdit {name : String} (edit : WorkEdit root name t t')
    (can : t.at? (name :: root) = some .dir → may name)
    (noDir : t'.at? (name :: root) ≠ some .dir) : Spared root may t t' where
  kept dir _ hdir := by
    by_cases same : dir = .text name
    · subst same
      exact Or.inr ⟨can hdir, noDir⟩
    · refine Or.inl fun p below => edit.frame p fun other => same ?_
      have := (List.suffix_of_suffix_length_le below other (by simp)).eq_of_length (by simp)
      exact (List.cons.inj this).1
  noDir dir _ hdir := by
    by_cases same : dir = .text name
    · subst same
      exact absurd hdir noDir
    · rwa [← edit.frame _ (not_suffix_of_name_ne same)]
  noLink := edit.noLink

end Spared

/-! ## 3. The repository's own directory -/

theorem Route.Inside.join {r : Route} (h : r.Inside root) {text : String} (inward : Inward text) :
    (r.join text).Inside root := by
  obtain ⟨segments, rfl, level⟩ := h
  refine ⟨segments ++ segmentsOf text, ?_, by simpa using ⟨level, inward.level⟩⟩
  rw [Route.join, if_neg (by simp [inward.relative])]
  rfl

namespace Spared

variable {r : Route} {q : Path}

theorem of_place? {e : Entry} (below : metaPath root <:+ q) (h : t.place? q e = some t')
    (noLink : ∀ target, e ≠ .link target) : Spared root may t t' := by
  refine of_inside (fun p outside => ?_) fun p target hlink => ?_
  · rw [at?_place? h, if_neg]
    rintro rfl
    exact outside below
  · rw [at?_place? h] at hlink
    split at hlink
    · exact absurd (Option.some.inj hlink) (noLink target)
    · exact hlink

theorem of_cut (below : metaPath root <:+ q) : Spared root may t (t.cut q) := by
  have top : q ≠ [] := by
    rintro rfl
    simp [metaPath] at below
  have cutAt := at?_cut (t := t) top
  refine of_inside (fun p outside => ?_) fun p target hlink => ?_
  · rw [cutAt, if_neg fun more => outside (below.trans more)]
  · rw [cutAt] at hlink
    split at hlink
    · cases hlink
    · exact hlink

section Requests

variable (free : t.LinkFree (metaPath root)) (inside : r.Inside root)

include free inside

theorem of_write? {content : Content} (h : t.write? r content = some t') :
    Spared root may t t' := by
  obtain ⟨q, hq, hplace⟩ := exists_of_write? h
  exact of_place? (inside.below_of_locate free hq) hplace (by simp)

theorem of_replace? {content : Content} (h : t.replace? r content = some t') :
    Spared root may t t' := by
  obtain ⟨q, hq, hplace⟩ := exists_of_replace? h
  exact of_place? (inside.below_of_locateEntry free hq) hplace (by simp)

theorem of_removeFile? (h : t.removeFile? r = some t') : Spared root may t t' := by
  obtain ⟨q, -, hq, -, -, rfl⟩ := exists_of_removeFile? h
  exact of_cut (inside.below_of_locateEntry free hq)

theorem of_removeEmptyDir? (h : t.removeEmptyDir? r = some t') : Spared root may t t' := by
  obtain ⟨q, hq, rfl⟩ := exists_of_removeEmptyDir? h
  exact of_cut (inside.below_of_locateEntry free hq)

theorem of_makeDir? (h : t.makeDir? r = some t') : Spared root may t t' := by
  obtain ⟨q, hq, -, hplace⟩ := exists_of_makeDir? h
  exact of_place? (inside.below_of_locateEntry free hq) hplace (by simp)

end Requests

/-- All directories that are made one in the other from a route on are in the repository's own one
where the first of them is. -/
theorem of_makeDirsFrom {names : List FileName} (free : t.LinkFree (metaPath root))
    (inside : ∀ name rest, names = name :: rest →
      (r.child name).Inside root ∧ (".." : FileName) ∉ rest) :
    Spared root may t (t.makeDirsFrom r names).2 := by
  induction names generalizing t r with
  | nil => exact refl _ _ _
  | cons name rest ih =>
    obtain ⟨here, level⟩ := inside name rest rfl
    have onward : ∀ next more, rest = next :: more →
        ((r.child name).child next).Inside root ∧ (".." : FileName) ∉ more := by
      rintro next more rfl
      simp only [List.mem_cons, not_or] at level
      exact ⟨here.child level.1, level.2⟩
    rw [makeDirsFrom]
    split
    · exact ih free onward
    · cases hmade : t.makeDir? (r.child name) with
      | none => exact refl _ _ _
      | some t' =>
        have first : Spared root may t t' := of_makeDir? free here hmade
        refine first.trans (ih (fun p target below hlink => ?_) onward)
        exact free p target below (first.noLink p target hlink)

theorem of_makeDirs (free : t.LinkFree (metaPath root)) (inside : r.Inside root) :
    Spared root may t (t.makeDirs r).2 := by
  obtain ⟨segments, rfl, level⟩ := inside
  unfold makeDirs
  split
  · refine of_makeDirsFrom free ?_
    intro name rest hsteps
    obtain ⟨rfl, rfl⟩ : .text metaName = name ∧ segments.filter Route.goes = rest := by
      simpa [Route.steps, show Route.goes metaName = true by decide] using hsteps
    exact ⟨Route.Inside.metaDir, fun hup => level (List.mem_of_mem_filter hup)⟩
  · exact refl _ _ _

end Spared

/-! ## 4. Working files -/

namespace Worktree

variable {text name : String}

/-- A file that is written takes the place of whatever else than a directory stands under its
name. -/
theorem spared_of_write? {content : Content} (named : fileName? text = some name)
    (noLink : ∀ target, t.at? (name :: root) ≠ some (.link target))
    (h : t.write? ⟨root, [name]⟩ content = some t') : Spared root may t t' := by
  have hplace := place?_of_write? named noLink h
  refine .of_workEdit (.of_place? hplace (List.suffix_refl _) (by simp)) (fun hdir => ?_) ?_
  · rw [place?, dif_neg fun can => can.2.2 hdir] at hplace
    cases hplace
  · rw [at?_place? hplace, if_pos rfl]
    simp

theorem spared_of_cut (can : t.at? (name :: root) = some .dir → may name) :
    Spared root may t (t.cut (name :: root)) :=
  .of_workEdit .of_cut can (by simp [at?_cut (List.cons_ne_nil (.text name) root)])

end Worktree

/-! ## 5. All edits -/

theorem Spared.of_edit {scope : Scope} (inward : ∀ text, scope.stages text → Inward text)
    (can : ∀ text name, scope.writes text → Worktree.fileName? text = some name → may name)
    (free : Unlinked root may t) (h : Edit root scope t t') : Spared root may t t' := by
  cases h with
  | headDir => exact of_makeDirs free.inside .metaDir
  | head _ h => exact of_write? free.inside .head h
  | dirs _ into => exact of_makeDirs free.inside into.inside
  | put _ below _ h =>
    exact h.elim (of_write? free.inside below.inside) (of_replace? free.inside below.inside)
  | drop _ below h =>
    exact h.elim (of_removeFile? free.inside below.inside)
      (of_removeEmptyDir? free.inside below.inside)
  | @stage what name _ _ _ staged h =>
    exact of_write? free.inside ((Route.Inside.staged what).join (inward name staged)) h
  | @write text name _ _ writes named h =>
    exact Worktree.spared_of_write? named (free.named name (can text name writes named)) h
  | @clear text name _ writes named h =>
    exact Worktree.eq_cut_of_removeAll? h ▸
      Worktree.spared_of_cut fun _ => can text name writes named
  | delete _ h =>
    obtain ⟨rfl, noDir⟩ := Worktree.eq_cut_of_removeFile? h
    exact Worktree.spared_of_cut fun hdir => absurd hdir noDir

/-- **Edits spare subdirectories**, where what is staged is staged under texts that lead inward. -/
theorem Edits.spared {scope : Scope} (inward : ∀ text, scope.stages text → Inward text)
    (can : ∀ text name, scope.writes text → Worktree.fileName? text = some name → may name)
    (h : Edits root scope t t') (free : Unlinked root may t) : Spared root may t t' :=
  h.closed (.refl root may) .trans Spared.unlinked (.of_edit inward can) free

end LocalVcs
