/-
# A merged branch stays merged

A merge commit has two parents, so all that came before the other branch's tip comes before the
current one from then on.  Staging, committing and editing files never take that back: what they
record comes behind the current commit, and they move no other branch.  So merging the branch once
more has nothing to do, however the current branch has grown.

* `LiesBehind`: a branch whose tip is an ancestor of the current commit.
* `LiesBehind.of_touches`, `LiesBehind.of_recorded`: what keeps it so.
* `Run.liesBehind_later`: it stays so over whole runs.
* `Intact.ancestor_iff_of_new`: what comes before a new commit, such as that of a merge.
* `Run.stays_merged`: the second merge.
-/
import LocalVcs.Proofs.MergeShortcuts

namespace LocalVcs

open FileTree Layout History

variable {root : Path} {t t' : FileTree} {name : String} {a : BranchName} {mine theirs : Branch}
  {head other : Commit} {staging : Staging} {date : Time.Moment} {past past' : List Recording}
  {rec : Recording}

/-! ## 1. Behind the current commit -/

/-- A branch is there and its tip is an ancestor of the current commit; the current branch, of the
name `a`, is another one. -/
structure LiesBehind (root : Path) (t : FileTree) (a : BranchName) (theirs : Branch) : Prop where
  stands : Branches.get? root t theirs.name = .ok (some theirs)
  apart : branchPath root theirs.name ≠ branchPath root a
  current : ∃ tip, Branches.current root t = .ok ⟨a, tip⟩ ∧
    Ancestor (Commits.load root t) theirs.tip tip

namespace LiesBehind

/-- As long as neither branches nor objects change, a branch lies behind. -/
theorem congr (h : LiesBehind root t a theirs) (intact : Intact root t) (intact' : Intact root t')
    (same : t'.at? (headPath root) = t.at? (headPath root))
    (branches : ∀ name, t'.at? (branchPath root name) = t.at? (branchPath root name))
    (objects : SameObjects root t t') : LiesBehind root t' a theirs := by
  obtain ⟨tip, hcurrent, behind⟩ := h.current
  refine ⟨?_, h.apart, tip, ?_, behind.mono fun _ _ => intact.load_of_grows intact' objects.grows⟩
  · rw [Branches.get?_congr intact.housed.free intact'.housed.free (branches _), h.stands]
  · rw [Branches.current_congr_of_at? intact.housed.free intact'.housed.free same branches,
      hcurrent]

theorem of_touches (h : LiesBehind root t a theirs) (intact : Intact root t)
    (intact' : Intact root t') {areas : List Area} (touch : Touches root areas t t')
    (notHead : .head ∉ areas) (notBranches : .branches ∉ areas)
    (notStores : ∀ kind, .store kind ∉ areas) : LiesBehind root t' a theirs :=
  h.congr intact intact' (touch.at?_eq Area.holds_head notHead)
    (fun name => touch.at?_eq (Branches.holds_branchPath root name) notBranches)
    (touch.sameObjects notStores)

/-- A commit that is recorded behind the current one leaves the branch behind. -/
theorem of_recorded (h : LiesBehind root t a theirs) (intact : Intact root t)
    (hcurrent : Branches.current root t = .ok mine)
    (hparent : Commits.load root t mine.tip = .ok rec.parent)
    (recorded : Recorded root mine rec t t') (stored : CommitStored root t' rec.made) :
    LiesBehind root t' a theirs := by
  obtain ⟨tip, hcurrent', behind⟩ := h.current
  obtain rfl := Except.ok.inj (hcurrent.symm.trans hcurrent')
  refine ⟨?_, h.apart, rec.made.id, recorded.current intact hcurrent, ?_⟩
  · rw [recorded.moved.get?_eq intact.housed.free recorded.intact.housed.free h.apart, h.stands]
  · have parent : rec.parent.id = tip := Commits.id_of_load hparent
    have first : tip ∈ rec.made.parents := by
      rw [← parent]
      exact List.mem_cons_self
    have onward := (parent_iff (recorded.intact.load_commit stored)).mpr first
    exact (behind.mono fun _ _ => intact.load_of_grows recorded.intact recorded.objects.grows).trans
      onward.ancestor

/-- Merging it has nothing to do, and is refused where something is staged. -/
theorem merge_run (h : LiesBehind root t a theirs) (intact : Intact root t)
    (hstaging : Staging.load root t = .ok staging) (date : Time.Moment) (printed : String) :
    Command.merge root date theirs.name.text ⟨t, printed⟩ =
      if staging.isEmpty then (.ok (), ⟨t, printed ++ behindNotice⟩)
      else (.error (.user .uncommittedChanges), ⟨t, printed⟩) := by
  obtain ⟨tip, hcurrent, behind⟩ := h.current
  split
  · rename_i nothing
    have hfound : Branches.find? root t theirs.name.text = .ok (some theirs) := by
      rw [Branches.find?_text, h.stands]
    obtain ⟨head, -, htip, hhead⟩ := intact.load_of_current hcurrent
    obtain ⟨other, hother⟩ := Command.load_of_find? intact hfound
    have htheirs : other.id = theirs.tip := Commits.id_of_load hother
    have hhead' := intact.load_commit (intact.of_load hhead).2.1
    have hother' := intact.load_commit (intact.of_load hother).2.1
    obtain ⟨split, hmeet, -⟩ := intact.splitPoint_run hhead' hother'
    have atOther : split.id = other.id :=
      ((intact.meet_of_tips hhead hother hmeet).2.mpr behind).trans htheirs.symm
    rw [atOther] at hmeet
    have distinct : theirs.name ≠ a := fun same => h.apart (congrArg (branchPath root) same)
    exact Command.merge_behind
      ⟨⟨staging, hstaging, nothing⟩, hcurrent, hfound, distinct, hhead, hother, hmeet⟩ date printed
  · rename_i something
    unfold Command.merge
    dsimp only
    rw [Action.bind_run_ok (Action.read_run hstaging), if_neg something]
    rfl

end LiesBehind

/-! ## 2. Staging and committing -/

/-- Whether a request stages something or commits it. -/
def Request.StagesOrCommits : Request → Prop
  | .add _ | .rm _ | .commit _ => True
  | _ => False

namespace Request

theorem StagesOrCommits.plain {request : Request} (h : request.StagesOrCommits) :
    request.Plain := by
  cases request <;> trivial

open LocalVcs.Action in
/-- Staging touches working files and the staging area only. -/
theorem touches_of_stages (finds : Finds root t mine head staging) {settings : Settings}
    (here : settings.root = root) {request : Request} (dates : settings.Dates request)
    (stages : request.StagesOrCommits) {guarded : Bool} {printed : String} {r : Except Fault Unit}
    {w' : World}
    (hrun : request.perform settings guarded ⟨t, printed⟩ = (r, w'))
    (none_ : ∀ date rec, r = .ok () → commitMoment settings = .ok date →
      ¬Records root t date request rec) :
    Touches root [.work, .index .addition, .index .removal] t w'.tree := by
  cases hdate : commitMoment settings with
  | error fault =>
    rw [perform_run_error hdate] at hrun
    obtain ⟨-, rfl⟩ := Prod.mk.inj hrun
    exact Touches.refl root t
  | ok date =>
    have effect := run_effect finds request (dates date hdate) settings.zone printed
    rw [Leads, ← perform_run finds.intact here hdate guarded printed, hrun] at effect
    generalize w'.tree = t' at effect ⊢
    cases effect with
    | refused => exact Touches.refl root t
    | reported reports => cases request <;> first | exact stages.elim | exact reports.elim
    | staged _ _ touch | unstaged _ _ touch => exact touch.mono (by simp)
    | dropped _ _ touch => exact touch
    | committed =>
      exact absurd (.commit finds.current finds.load finds.staging) (none_ date _ rfl hdate)
    | _ => exact stages.elim

end Request

/-! ## 3. In later states -/

/-- **A branch that lies behind stays behind** while files are staged and committed and the user
edits them. -/
theorem Run.liesBehind_later (run : Run root Request.Plain Settings.Dates past t)
    (behind : LiesBehind root t a theirs)
    (later : Later root Request.StagesOrCommits Settings.Dates past t past' t')
    (free : CollisionFree past') :
    LiesBehind root t' a theirs := by
  induction later with
  | here => exact behind
  | edit later edit ih =>
    have h := (run.later (fun _ => Request.StagesOrCommits.plain) later).intact
    have kept : Kept False root _ _ := edit.keeps h
    exact (ih free).congr h kept.intact (edit.at?_eq Area.holds_head (by simp))
      (fun name => edit.at?_eq (Branches.holds_branchPath root name) (by simp)) edit.sameObjects
  | other later here dates stages hrun none_ ih =>
    have run₁ := run.later (fun _ => Request.StagesOrCommits.plain) later
    obtain ⟨mine, head, staging, finds, -⟩ := run₁.exists_finds
    have touch := Request.touches_of_stages finds here dates stages hrun none_
    exact (ih free).of_touches run₁.intact (run₁.other here dates stages.plain hrun none_).intact
      touch
      (by simp) (by simp) (by simp)
  | recording later here dates stages hrun hdate hrec ih =>
    have run₁ := run.later (fun _ => Request.StagesOrCommits.plain) later
    have h₁ := run₁.intact
    obtain ⟨mine, t₁, hcurrent, kept, touch, recorded⟩ :=
      Request.recorded_of_perform False h₁ here dates False.elim hrun hdate hrec
    have archive := (run₁.recording here dates stages.plain hrun hdate hrec).archive free
    cases hrec with
    | commit hcurrent' hload hstaging =>
      obtain rfl := Except.ok.inj (hcurrent.symm.trans hcurrent')
      have behind₁ := (ih (free.mono (List.subset_cons_self _ _))).of_touches h₁ kept.intact touch
        (by simp) (by simp) (by simp)
      refine behind₁.of_recorded kept.intact ?_ ?_ recorded
        (archive.commitStored List.mem_cons_self)
      · rw [Branches.current_congr h₁.housed kept.intact.housed touch (by simp) (by simp), hcurrent]
      · exact h₁.load_of_grows kept.intact kept.objects.grows hload
    | merge => exact stages.elim

/-! ## 4. The merge -/

namespace Intact

/-- The walk from a stored commit yields its ancestors. -/
theorem ancestors_run (h : Intact root t) {id : ObjectId} {c : Commit}
    (hload : Commits.load root t id = .ok c) :
    ∃ cs, Commits.ancestors root t id = .ok cs ∧
      ∀ a, a ∈ cs.map Commit.id ↔ Ancestor (Commits.load root t) a id := by
  obtain ⟨ids, hids, hcard⟩ := h.exists_ids
  exact collect_start (h.closed hids) ((hids id).mpr ⟨c, hload⟩) (Nat.le_succ_of_le hcard)

/-- **The ancestors of a new commit** are itself and those that its parents have had before. -/
theorem ancestor_iff_of_new (h : Intact root t) (grows : Grows root t t') {made : Commit}
    (h' : Intact root t') (hmade : Commits.load root t' made.id = .ok made)
    (old : ∀ p ∈ made.parents, ∃ c, Commits.load root t p = .ok c) (id : ObjectId) :
    Ancestor (Commits.load root t') id made.id ↔
      id = made.id ∨ ∃ p ∈ made.parents, Ancestor (Commits.load root t) id p := by
  obtain ⟨ids, hids, -⟩ := h.exists_ids
  rw [ancestor_iff_parents hmade]
  refine or_congr_right (exists_congr fun p => and_congr_right fun hp => ?_)
  exact (h.closed hids).ancestor_iff_of_grows (fun _ _ => h.load_of_grows h' grows)
    ((hids p).mpr (old p hp))

end Intact

/-- The other branch lies behind the merge commit. -/
theorem LiesBehind.of_merged {split : Commit} {steps : List MergeStep} {t₁ : FileTree}
    (h : Intact root t) (three : ThreeWay root t name mine theirs head other split)
    (work : Touches root [.work] t t₁) (h₁ : Intact root t₁)
    (recorded : Recorded root mine (mergeRecording date mine theirs head other steps) t₁ t')
    (stored : CommitStored root t' (mergeRecording date mine theirs head other steps).made)
    (apart : branchPath root theirs.name ≠ branchPath root mine.name) :
    LiesBehind root t' mine.name theirs where
  stands := by
    have h' := recorded.intact
    obtain ⟨branchName, -, hget⟩ := Branches.of_find? three.found
    obtain ⟨rfl, -⟩ := Branches.get?_eq_some_iff.mp hget
    rw [recorded.moved.get?_eq h₁.housed.free h'.housed.free apart,
      Branches.get?_congr h.housed.free h₁.housed.free
        (work.at?_eq (Branches.holds_branchPath root _) (by simp)), hget]
  apart := apart
  current := by
    have tip : other.id = theirs.tip := Commits.id_of_load three.loadOther
    have second : theirs.tip ∈ (mergeRecording date mine theirs head other steps).made.parents := by
      rw [← tip]
      exact List.mem_cons_of_mem _ List.mem_cons_self
    refine ⟨_, recorded.current h₁ ?_,
      ((parent_iff (recorded.intact.load_commit stored)).mpr second).ancestor⟩
    rw [Branches.current_congr h.housed h₁.housed work (by simp) (by simp), three.current]

namespace Apart

/-- The contents of the file that they differ in, once they have been merged. -/
def marked : Bytes := conflictContent (some [2]) (some [1])

/-- The merge of the branch that is left into the current one. -/
def both : Recording := mergeRecording Time.Moment.epoch ⟨BranchName.master, right.made.id⟩
  ⟨Apart.other, left.made.id⟩ right.made left.made [.write "file" marked]

/-- What is stored once they are merged. -/
def mergedObjects : List Object := objects ++ [.blob marked, .commit both.made]

/-- Their digests differ. -/
theorem nodup_mergedIds : (mergedObjects.map Object.id).Nodup := by decide +kernel

theorem mem_of_occurs_both {o : Object} (h : Occurs [both, right, left] o) :
    o ∈ mergedObjects := by
  have old {o : Object} (h : Occurs [right, left] o) : o ∈ mergedObjects :=
    List.mem_append_left _ (mem_of_occurs h)
  cases h with
  | first => exact old .first
  | brought hr brings =>
    rcases List.mem_cons.mp hr with rfl | hr
    · cases brings with
      | commit => simp [mergedObjects]
      | @blob name content hadded =>
        have staged : content = marked := by
          simp only [both, mergeRecording, MergeStep.stageAll, List.foldl_cons, List.foldl_nil,
            MergeStep.getElem?_additions_stage] at hadded
          split at hadded
          · exact (Option.some.inj hadded).symm
          · simp [Staging.empty] at hadded
        simp [mergedObjects, staged]
    · exact old (.brought hr brings)

theorem collisionFree_both : CollisionFree [both, right, left] := by
  intro o o' ho ho' hid
  rw [List.inj_on_of_nodup_map nodup_mergedIds (mem_of_occurs_both ho) (mem_of_occurs_both ho') hid]

/-- They are merged from the first commit on. -/
theorem threeWay {t : FileTree} (run : Run [] Request.Plain Settings.Dates [right, left] t)
    (nothing : Shows [] t Staging.empty)
    (hcurrent : Branches.current [] t = .ok ⟨BranchName.master, right.made.id⟩)
    (hfound : Branches.find? [] t Apart.other.text = .ok (some ⟨Apart.other, left.made.id⟩)) :
    ThreeWay [] t Apart.other.text ⟨BranchName.master, right.made.id⟩
      ⟨Apart.other, left.made.id⟩ right.made left.made Commit.initial := by
  have h := run.intact
  obtain ⟨hleft, hright, hfirst⟩ := loads run
  exact ⟨⟨_, Staging.load_of_shows h.housed h.index nothing,
      by simp [Staging.isEmpty, Staging.empty]⟩,
    hcurrent, hfound, hright, hleft, splitPoint_run run, hfirst,
    id_ne (by simp [objects]) (by simp [objects]) (by decide),
    id_ne (by simp [objects]) (by simp [objects]) (by decide)⟩

/-- The one step of the merge writes the marked contents. -/
theorem steps_eq {t t₁ t' : FileTree} (run : Run [] Request.Plain Settings.Dates [right, left] t)
    {mine theirs : Branch} {steps : List MergeStep}
    (merged : Merged [] Time.Moment.epoch mine theirs right.made left.made Commit.initial steps
      t t₁ t') : steps = [.write "file" marked] := by
  have archive := run.archive collisionFree
  have h := run.intact
  -- the file is the only one that they differ in
  have named : ∀ step ∈ steps, step.name = "file" := by
    intro step hstep
    by_contra other
    have changed := (mem_touchedNames.mp (merged.touched_of_step hstep)).1
    rw [left, made_manifest, if_neg other] at changed
    exact changed (by simp [Commit.initial])
  have tracked {message : String} {content : Bytes}
      (hr : recording message content ∈ [right, left]) :
      MergeStep.trackedContent [] t (recording message content).made "file" =
        .ok (some content) := by
    have staged : (recording message content).staged.additions["file"]? = some content := by
      simp [recording, Staging.single]
    have hblob := h.loadBlob_iff.mpr (archive.stored (.blob content) (.brought hr (.blob staged)))
    have held : (recording message content).made.tracked? "file" =
        some (Object.blobId content) := (made_manifest message content "file").trans (if_pos rfl)
    rw [MergeStep.trackedContent, held]
    exact congrArg (Except.map some) hblob
  have ours : MergeStep.trackedContent [] t right.made "file" = .ok (some [2]) :=
    tracked (by simp [right])
  have theirs : MergeStep.trackedContent [] t left.made "file" = .ok (some [1]) :=
    tracked (by simp [left])
  have differ : Object.blobId [2] ≠ Object.blobId [1] := by
    intro same
    have one : Object.blob [1] ∈ objects := by simp [objects]
    have two : Object.blob [2] ∈ objects := by simp [objects]
    cases List.inj_on_of_nodup_map nodup_ids two one same
  have manifests : Commit.initial.manifest["file"]? = none ∧
      right.made.manifest["file"]? = some (Object.blobId [2]) ∧
      left.made.manifest["file"]? = some (Object.blobId [1]) :=
    ⟨by simp [Commit.initial], (made_manifest _ _ _).trans (if_pos rfl),
      (made_manifest _ _ _).trans (if_pos rfl)⟩
  have step := merged.step_of_touched h ours theirs (mem_touchedNames.mpr (by
    simp [manifests, differ]))
  simp only [manifests, LocalVcs.merged, reduceCtorEq, false_or, if_false, Option.some.injEq,
    differ] at step
  -- no other step is for this name
  have same : ∀ s ∈ steps, s = .write "file" marked := fun s hs =>
    List.inj_on_of_nodup_map merged.nodup hs step (named s hs)
  have alone := List.eq_replicate_of_mem same
  have nodup := List.Nodup.of_map _ merged.nodup
  rw [alone, List.nodup_replicate] at nodup
  have some_ : 0 < steps.length := List.length_pos_of_mem step
  rw [alone, show steps.length = 1 by omega]
  rfl

end Apart

end LocalVcs
