/-
# Staged changes are changes

A file is staged with its contents only where the current commit holds other ones or none, and only
a file that the current commit tracks is staged for removal.  Whatever takes the current commit to
another one leaves nothing staged, so this holds of every state; and as a commit needs something
staged, none holds the very snapshot of the one before it.

* `RealChanges`: what is staged differs from what the current commit tracks.
* `RealChanges.stageContent`, `RealChanges.remove`: what staging a file keeps of it.
* `RealChanges.of_effect`: what every request keeps of it; `Run.realChanges`: whole runs.
* `ChangesParent`: no commit with one parent holds the snapshot of that parent.
* `Run.stages_real_changes`: both, in every state of a run.
-/
import LocalVcs.Proofs.CommitOutcome
import LocalVcs.Proofs.Pointers

namespace LocalVcs

open FileTree Layout

variable {root : Path} {t t' : FileTree} {mine mine' : Branch} {head head' : Commit}
  {staging staging' : Staging} {date : Time.Moment} {past : List Recording}

/-! ## 1. What is staged -/

/-- What is staged differs from what the commit `head` tracks. -/
structure RealChanges (root : Path) (t : FileTree) (head : Commit) (s : Staging) : Prop where
  oneWay : s.OneWay
  /-- What is staged to be recorded is not held with the same contents. -/
  added : ∀ (name : String) bytes, s.additions[name]? = some bytes →
    head.manifest[name]? ≠ some (Object.blobId bytes)
  /-- What is staged to be dropped is held, with the contents that are staged. -/
  removed : ∀ (name : String) bytes, s.removals[name]? = some bytes →
    ∃ blob, head.manifest[name]? = some blob ∧ Blobs.load root t blob = .ok bytes

namespace RealChanges

theorem empty : RealChanges root t head Staging.empty where
  oneWay := Staging.oneWay_empty
  added _ _ h := by simp [Staging.empty] at h
  removed _ _ h := by simp [Staging.empty] at h

variable {s : Staging} (real : RealChanges root t head s)

include real

theorem mono (h : Intact root t) (h' : Intact root t') (grows : Grows root t t') :
    RealChanges root t' head s where
  oneWay := real.oneWay
  added := real.added
  removed name bytes hbytes := by
    obtain ⟨blob, hblob, hload⟩ := real.removed name bytes hbytes
    exact ⟨blob, hblob, h'.loadBlob_iff.mpr (grows _ _ _ (h.loadBlob_iff.mp hload))⟩

theorem unstageAddition (file : String) : RealChanges root t head (s.unstageAddition file) where
  oneWay := real.oneWay.unstageAddition file
  added name bytes hbytes := real.added name bytes (NameMap.of_getElem?_erase hbytes)
  removed := real.removed

theorem unstageRemoval (file : String) : RealChanges root t head (s.unstageRemoval file) where
  oneWay := real.oneWay.unstageRemoval file
  added := real.added
  removed name bytes hbytes := real.removed name bytes (NameMap.of_getElem?_erase hbytes)

theorem add {file : String} {content : Bytes}
    (new : head.manifest[file]? ≠ some (Object.blobId content)) :
    RealChanges root t head (s.add file content) where
  oneWay := real.oneWay.add file content
  added name bytes hbytes := by
    rcases NameMap.of_getElem?_insert hbytes with ⟨rfl, rfl⟩ | hbytes
    · exact new
    · exact real.added name bytes hbytes
  removed name bytes hbytes := real.removed name bytes (NameMap.of_getElem?_erase hbytes)

theorem remove {file : String} {blob : ObjectId} {content : Bytes}
    (held : head.manifest[file]? = some blob) (hload : Blobs.load root t blob = .ok content) :
    RealChanges root t head (s.remove file content) where
  oneWay := real.oneWay.remove file content
  added name bytes hbytes := real.added name bytes (NameMap.of_getElem?_erase hbytes)
  removed name bytes hbytes := by
    rcases NameMap.of_getElem?_insert hbytes with ⟨rfl, rfl⟩ | hbytes
    · exact ⟨blob, held, hload⟩
    · exact real.removed name bytes hbytes

/-- **Staging a file** compares it with what the current commit tracks. -/
theorem stageContent (file : String) (content : Bytes) :
    RealChanges root t head (Command.stageContent head s file content) := by
  unfold Command.stageContent
  split
  · exact (real.unstageAddition file).unstageRemoval file
  · rename_i new
    exact (real.add new).unstageRemoval file

/-- **What is staged makes a difference**: the next commit does not hold the current snapshot. -/
theorem nextManifest_ne (something : s.isEmpty = false) :
    s.nextManifest head.manifest ≠ head.manifest := by
  intro same
  have held (name : String) : head.manifest[name]? = if name ∈ s.removals then none
      else (s.additions[name]?.map Object.blobId).or head.manifest[name]? := by
    rw [← Staging.getElem?_nextManifest, same]
  have noAdditions : s.additions = ∅ := by
    refine Std.ExtTreeMap.ext_getElem? fun name => ?_
    cases hbytes : s.additions[name]? with
    | none => simp
    | some bytes =>
      have notRemoved := real.oneWay name (NameMap.mem_iff_exists_getElem?.mpr ⟨bytes, hbytes⟩)
      have unchanged := held name
      rw [if_neg notRemoved, hbytes] at unchanged
      exact absurd unchanged (real.added name bytes hbytes)
  have noRemovals : s.removals = ∅ := by
    refine Std.ExtTreeMap.ext_getElem? fun name => ?_
    cases hbytes : s.removals[name]? with
    | none => simp
    | some bytes =>
      obtain ⟨blob, hblob, -⟩ := real.removed name bytes hbytes
      have unchanged := held name
      rw [if_pos (NameMap.mem_iff_exists_getElem?.mpr ⟨bytes, hbytes⟩), hblob] at unchanged
      cases unchanged
  simp [Staging.isEmpty, noAdditions, noRemovals] at something

end RealChanges

/-! ## 2. What requests keep -/

namespace RealChanges

/-- With nothing staged there is nothing to be shown. -/
theorem of_empty (nothing : Shows root t' Staging.empty)
    (finds' : Finds root t' mine' head' staging') : RealChanges root t' head' staging' := by
  have h' := finds'.intact
  obtain rfl := Except.ok.inj
    ((Staging.load_of_shows h'.housed h'.index nothing).symm.trans finds'.staging)
  exact empty

/-- Where the current branch stays where it is, so do the changes that are staged. -/
theorem of_same {s : Staging} (real : RealChanges root t head s)
    (finds : Finds root t mine head staging) (finds' : Finds root t' mine' head' staging')
    (same : Branches.current root t' = .ok mine) (objects : SameObjects root t t')
    (shows_ : Shows root t' s) : RealChanges root t' head' staging' := by
  have h := finds.intact
  have h' := finds'.intact
  obtain rfl := Except.ok.inj (same.symm.trans finds'.current)
  obtain rfl := Except.ok.inj
    ((h.load_of_grows h' objects.grows finds.load).symm.trans finds'.load)
  obtain rfl := Except.ok.inj
    ((Staging.load_of_shows h'.housed h'.index shows_).symm.trans finds'.staging)
  -- what is loaded are the same contents, marked as unchanged
  obtain ⟨oneWay, added, removed⟩ := real.mono h h' objects.grows
  exact ⟨oneWay, added, removed⟩

/-- **Every request keeps the staged changes real.** -/
theorem of_effect {request : Request} {r : Except Fault Unit}
    (effect : Effect root t mine head staging date request r t')
    (real : RealChanges root t head staging) (finds : Finds root t mine head staging)
    (plain : PlainName mine.name.text) (hplain : request.Plain)
    (finds' : Finds root t' mine' head' staging') : RealChanges root t' head' staging' := by
  have h := finds.intact
  have h' := finds'.intact
  obtain ⟨-, shows_⟩ := Staging.load_spec h.housed h.index finds.staging
  have stays {areas : List Area} (touch : Touches root areas t t') (notHead : .head ∉ areas)
      (notBranches : .branches ∉ areas) : Branches.current root t' = .ok mine :=
    (Branches.current_congr h.housed h'.housed touch notHead notBranches).trans finds.current
  have moves (touch : Touches root [.branches] t t')
      (tip : Branches.tips root t' mine.name = Branches.tips root t mine.name) :
      RealChanges root t' head' staging' :=
    real.of_same finds finds' (Branches.current_of_tips h h' plain finds.current
      (touch.at?_eq Area.holds_head (by simp)) tip) (touch.sameObjects (by simp))
      (shows_.of_touches touch (by simp))
  cases effect with
  | refused | reported | behind =>
    exact real.of_same finds finds' finds.current (SameObjects.refl root t) shows_
  | staged _ _ touch shows' =>
    exact (real.stageContent _ _).of_same finds finds' (stays touch (by simp) (by simp))
      (touch.sameObjects (by simp)) shows'
  | dropped held hload touch shows' =>
    exact ((real.unstageAddition _).remove held hload).of_same finds finds'
      (stays touch (by simp) (by simp)) (touch.sameObjects (by simp)) shows'
  | unstaged _ _ touch shows' =>
    exact (real.unstageAddition _).of_same finds finds' (stays touch (by simp) (by simp))
      (touch.sameObjects (by simp)) shows'
  | restored _ _ _ trackable edit =>
    have touch := edit.touches trackable.notMeta
    exact real.of_same finds finds' (stays touch (by simp) (by simp)) (touch.sameObjects (by simp))
      (shows_.of_touches touch (by simp))
  | @branched name _ absent _ touch repointed =>
    have other : mine.name ≠ name := by
      rintro rfl
      rw [(Branches.of_current finds.current).2] at absent
      cases absent
    refine moves touch ?_
    rw [Branches.tips_of_repointed h h' hplain.1 repointed, Function.update_of_ne other]
  | halted touch same => exact moves touch (by rw [Branches.tips_of_sameFiles h h' same])
  | removed hname _ other touch repointed =>
    subst hname
    refine moves touch ?_
    rw [Branches.tips_of_repointed h h' hplain.1 repointed, Function.update_of_ne other.symm]
  | committed _ _ recorded => exact of_empty recorded.index finds'
  | switched _ switched | reset _ switched | forwarded _ _ switched =>
    exact of_empty switched.index finds'
  | merged _ merged => exact of_empty merged.recorded.index finds'

end RealChanges

/-- **In every state of a run the staged changes are real.** -/
theorem Run.realChanges (run : Run root Request.Plain Settings.Dates past t)
    (finds : Finds root t mine head staging) : RealChanges root t head staging := by
  induction run generalizing mine head staging with
  | start free hinit =>
    exact RealChanges.of_empty (Command.begun_of_init free hinit).index finds
  | edit run edit ih =>
    obtain ⟨mine₀, head₀, staging₀, finds₀, -⟩ := run.exists_finds
    have h := finds₀.intact
    obtain ⟨-, shows_⟩ := Staging.load_spec h.housed h.index finds₀.staging
    exact (ih finds₀).of_same finds₀ finds ((edit.current_eq h.housed.free).trans finds₀.current)
      edit.sameObjects
      (shows_.congr fun what name => edit.at?_eq (holds_staged what name) (by simp))
  | other run here dates hallowed hrun _ ih | recording run here dates hallowed hrun _ _ ih =>
    obtain ⟨mine₀, head₀, staging₀, date, finds₀, plain, effect⟩ :=
      run.exists_effect here dates hrun
    exact (ih finds₀).of_effect effect finds₀ plain hallowed finds

/-! ## 3. What commits change -/

/-- No commit with one parent holds the snapshot of that parent. -/
def ChangesParent (root : Path) (t : FileTree) : Prop :=
  ∀ (c : Commit) (p : ObjectId), CommitStored root t c → c.parents = [p] →
    ∃ parent, Commits.load root t p = .ok parent ∧ c.manifest ≠ parent.manifest

namespace ChangesParent

/-- A commit of before still differs from its parent. -/
theorem of_before (changes : ChangesParent root t) (h : Intact root t) (h' : Intact root t')
    (grows : Grows root t t') {c : Commit} {p : ObjectId} (stored : CommitStored root t c)
    (single : c.parents = [p]) :
    ∃ parent, Commits.load root t' p = .ok parent ∧ c.manifest ≠ parent.manifest := by
  obtain ⟨parent, hload, differs⟩ := changes c p stored single
  exact ⟨parent, h.load_of_grows h' grows hload, differs⟩

theorem congr (changes : ChangesParent root t) (h : Intact root t) (h' : Intact root t')
    (same : SameObjects root t t') : ChangesParent root t' := fun _ _ stored =>
  changes.of_before h h' same.grows ⟨stored.readable, same.stored_iff.mp stored.stored⟩

theorem of_begun (begun : Begun root t t') : ChangesParent root t' := by
  intro c p stored single
  obtain ⟨-, -, henc⟩ := begun.objects _ _ _ stored.stored
  obtain rfl := stored.readable.eq_of_encoding_eq begun.stored.readable henc
  cases single

end ChangesParent

/-- A commit that does not merge records a snapshot of its own. -/
theorem Records.changes {request : Request} {date' : Time.Moment} {rec : Recording}
    (hrec : Records root t date request rec) (finds : Finds root t mine head staging)
    (effect : Effect root t mine head staging date' request (.ok ()) t')
    (real : RealChanges root t head staging) (single : rec.merged = none) :
    rec.made.manifest ≠ rec.parent.manifest := by
  cases hrec with
  | commit hcurrent hload hstaging =>
    obtain rfl := Except.ok.inj (hcurrent.symm.trans finds.current)
    obtain rfl := Except.ok.inj (hload.symm.trans finds.load)
    obtain rfl := Except.ok.inj (hstaging.symm.trans finds.staging)
    cases effect with
    | reported reports => exact reports.elim
    | committed _ something _ => exact real.nextManifest_ne something
  | merge => cases single

/-- **No commit of a run with one parent holds the snapshot of that parent.** -/
theorem Run.changesParent (run : Run root Request.Plain Settings.Dates past t) :
    ChangesParent root t := by
  induction run with
  | start free hinit => exact ChangesParent.of_begun (Command.begun_of_init free hinit)
  | edit run edit ih => exact ih.congr run.intact (run.edit edit).intact edit.sameObjects
  | other run here dates _ hrun none_ ih =>
    have kept := Request.kept_of_perform False run.intact here dates False.elim hrun none_
    exact ih.congr run.intact kept.intact kept.objects
  | recording run here dates _ hrun hdate hrec ih =>
    have h := run.intact
    obtain ⟨mine, head, staging, date', finds, -, effect⟩ := run.exists_effect here dates hrun
    obtain ⟨b, t₁, -, kept, -, recorded⟩ :=
      Request.recorded_of_perform False h here dates False.elim hrun hdate hrec
    have grows := kept.objects.grows.trans recorded.objects.grows
    intro c p stored single
    rcases recorded.commitStored_cases stored with rfl | before
    · -- the new commit comes behind the one that was current
      obtain ⟨rfl, merged⟩ := List.cons.inj single
      have parent := h.load_commit (hrec.parent h)
      exact ⟨_, h.load_of_grows recorded.intact grows parent, hrec.changes finds effect
        (run.realChanges finds) (Option.toList_eq_nil_iff.mp merged)⟩
    · exact ih.of_before h recorded.intact grows
        ⟨before.readable, kept.objects.stored_iff.mp before.stored⟩ single

/-! ## 4. In a run -/

/-- **Only changes are staged**, in every state of a run: no name is staged both ways, contents are
staged only where the current commit does not hold them, and what is staged to be dropped it holds
with the contents that are staged.  So no commit with one parent holds the snapshot of that
parent. -/
theorem Run.stages_real_changes (run : Run root Request.Plain Settings.Dates past t) :
    ∃ mine head staging, Branches.current root t = .ok mine ∧
      Commits.load root t mine.tip = .ok head ∧ Staging.load root t = .ok staging ∧
      (∀ name ∈ staging.additions, name ∉ staging.removals) ∧
      (∀ (name : String) bytes, staging.additions[name]? = some bytes →
        head.manifest[name]? ≠ some (Object.blobId bytes)) ∧
      (∀ (name : String) bytes, staging.removals[name]? = some bytes →
        ∃ blob, head.manifest[name]? = some blob ∧ Blobs.load root t blob = .ok bytes) ∧
      ∀ id c p, Commits.load root t id = .ok c → c.parents = [p] →
        ∃ parent, Commits.load root t p = .ok parent ∧ c.manifest ≠ parent.manifest := by
  obtain ⟨mine, head, staging, finds, -⟩ := run.exists_finds
  have real := run.realChanges finds
  exact ⟨mine, head, staging, finds.current, finds.load, finds.staging, real.oneWay, real.added,
    real.removed, fun _ c p hload => run.changesParent c p (finds.intact.of_load hload).2.1⟩

namespace Apart

/-- The one file that has been committed is removed again. -/
theorem stages_real_changes_left : ∃ t staging bytes parent,
    Run [] Request.Plain Settings.Dates [left] t ∧
    Staging.load [] t = .ok staging ∧ staging.removals["file"]? = some bytes ∧
    Blobs.load [] t (Object.blobId [1]) = .ok bytes ∧
    Commits.load [] t Commit.initial.id = .ok parent ∧ left.made.manifest ≠ parent.manifest := by
  obtain ⟨t₁, run₁, nothing, -, -, hcurrent₁, -⟩ := exists_begun
  have h₁ := run₁.intact
  obtain ⟨hload₁, -⟩ := loads_left run₁
  have hstaging₁ := Staging.load_of_shows h₁.housed h₁.index nothing
  have tracked : left.made.manifest["file"]? = some (Object.blobId [1]) := by
    rw [left, made_manifest, if_pos rfl]
  -- the file is removed
  obtain ⟨bytes, t, -, hrm, touch, kept, shows_⟩ :=
    Command.rm_run False h₁ hstaging₁ hcurrent₁ hload₁ tracked ""
  have removes : (Request.rm "file").run [] settings.zone Time.Moment.epoch ⟨t₁, ""⟩ =
      (.ok (), ⟨t, ""⟩) := hrm
  have plain : Request.Plain (.rm "file") := trivial
  have run := run₁.next here rfl plain removes trivial (by rintro _ _ ⟨⟩)
  have h := run.intact
  have hcurrent := (Branches.current_congr h₁.housed h.housed touch (by simp) (by simp)).trans
    hcurrent₁
  have hload := h₁.load_of_grows h kept.objects.grows hload₁
  have hstaging := Staging.load_of_shows h.housed h.index shows_
  obtain ⟨mine, head, staging, hmine, hhead, hstaging', -, -, removed, changes⟩ :=
    run.stages_real_changes
  obtain rfl := Except.ok.inj (hmine.symm.trans hcurrent)
  obtain rfl := Except.ok.inj (hhead.symm.trans hload)
  obtain rfl := Except.ok.inj (hstaging'.symm.trans hstaging)
  have staged : ((Staging.empty.unstageAddition "file").remove "file" bytes).removals["file"]? =
      some bytes := by simp [Staging.remove]
  obtain ⟨blob, hblob, hbytes⟩ := removed "file" bytes staged
  obtain rfl := Option.some.inj (hblob.symm.trans tracked)
  obtain ⟨parent, hparent, differs⟩ := changes _ _ _ hload rfl
  exact ⟨t, _, bytes, parent, run, hstaging, staged, hbytes, hparent, differs⟩

end Apart

end LocalVcs
