/-
# Merging

A merge looks at everything before it changes anything; then nothing can go wrong any more.  So it
fails and leaves the file tree alone, or it fast-forwards, or it goes through to the recording of a
merge commit.

* `ThreeWay`: the state of affairs in which three snapshots are merged.
* `Command.mergeTips_run`: what such a merge does.
* `Command.leads_merge`: the rule for merging, by the four outcomes that it has.
* `Command.merge_leads`: what merging leads to in an intact repository.
-/
import LocalVcs.Proofs.Commands.Keeping
import LocalVcs.Proofs.Commands.Recording
import LocalVcs.Proofs.History.Ancestry
import LocalVcs.Proofs.MergeSteps

namespace LocalVcs

open FileTree Layout

variable {root : Path} {t t' : FileTree} {plain : Prop}

/-! ## 1. Three snapshots -/

/-- A merge is asked for between the current branch and another one that have gone apart, with
nothing staged. -/
structure ThreeWay (root : Path) (t : FileTree) (name : String) (mine theirs : Branch)
    (head other split : Commit) : Prop where
  nothing : ∃ staging, Staging.load root t = .ok staging ∧ staging.isEmpty = true
  current : Branches.current root t = .ok mine
  found : Branches.find? root t name = .ok (some theirs)
  loadHead : Commits.load root t mine.tip = .ok head
  loadOther : Commits.load root t theirs.tip = .ok other
  meet : History.splitPoint (Commits.load root t) (Commits.walkBound t) head.id other.id =
    .ok (some split.id)
  loadSplit : Commits.load root t split.id = .ok split
  ahead : split.id ≠ head.id
  behind : split.id ≠ other.id

/-- Branches that have gone apart are different ones. -/
theorem ThreeWay.distinct (h : Intact root t) {name : String} {mine theirs : Branch}
    {head other split : Commit} (m : ThreeWay root t name mine theirs head other split) :
    theirs.name ≠ mine.name := by
  intro heq
  obtain ⟨found, -, hget⟩ := Branches.of_find? m.found
  obtain ⟨c, -, htheirs, -, -⟩ := Branches.of_get? h.housed h.refs hget
  have hfound : found = mine.name := by rw [← heq, htheirs]
  have hmine := (Branches.of_current m.current).2
  obtain rfl : theirs = mine := by
    rw [hfound, hmine] at hget
    exact (Option.some.inj (Except.ok.inj hget)).symm
  obtain rfl : head = other := Except.ok.inj (m.loadHead.symm.trans m.loadOther)
  obtain ⟨-, stored, -, -⟩ := h.of_load m.loadHead
  have hload : Commits.load root t head.id = .ok head := h.load_iff.mpr ⟨rfl, stored⟩
  exact m.ahead (History.splitPoint_self hload rfl m.meet)

/-- A merge is asked for of another branch, with nothing staged, and the two histories part at one
commit. -/
structure TwoTips (root : Path) (t : FileTree) (name : String) (mine theirs : Branch)
    (head other : Commit) (meet : ObjectId) : Prop where
  nothing : ∃ staging, Staging.load root t = .ok staging ∧ staging.isEmpty = true
  current : Branches.current root t = .ok mine
  found : Branches.find? root t name = .ok (some theirs)
  distinct : theirs.name ≠ mine.name
  loadHead : Commits.load root t mine.tip = .ok head
  loadOther : Commits.load root t theirs.tip = .ok other
  meet : History.splitPoint (Commits.load root t) (Commits.walkBound t) head.id other.id =
    .ok (some meet)

/-- How the names of three snapshots are resolved. -/
def resolvedNames (split head other : Commit) : NameMap Resolution :=
  Resolution.plan split.manifest head.manifest other.manifest

/-- The names whose working files are written or deleted. -/
def touchedNames (split head other : Commit) : List String :=
  ((resolvedNames split head other).filter fun _ resolution => resolution.touches).keys

/-- The message of a merge commit. -/
def mergeMessage (mine theirs : Branch) : String :=
  "Merged " ++ theirs.name.text ++ " into " ++ mine.name.text ++ "."

/-- What a merge prints where sides conflict. -/
def conflictNotice (split head other : Commit) : String :=
  if (resolvedNames split head other).toList.any fun entry => entry.2 = .conflict then
    "Encountered a merge conflict.\n"
  else ""

/-- What the commit of a merge is made from. -/
def mergeRecording (date : Time.Moment) (mine theirs : Branch) (head other : Commit)
    (steps : List MergeStep) : Recording :=
  ⟨mergeMessage mine theirs, date, head, MergeStep.stageAll steps Staging.empty, some other.id⟩

/-- The commit of a merge can be recorded where nothing else is staged. -/
theorem mergeRecording_fits {date : Time.Moment} (mine theirs : Branch) {head other : Commit}
    {steps : List MergeStep} (stored : CommitStored root t head) (rooted : Rooted root t other.id)
    (trackable : ∀ step ∈ steps, Trackable root step.name) (tellable : date.Tellable)
    (empty : Shows root t Staging.empty) :
    (mergeRecording date mine theirs head other steps).Fits root t where
  parent := stored
  merged id hid := by
    obtain rfl : other.id = id := by simpa [mergeRecording] using hid
    exact rooted
  names n hn := by
    rcases MergeStep.exists_step_of_staged hn with ⟨step, hstep, rfl⟩ | hempty
    · exact trackable step hstep
    · simp [Staging.empty] at hempty
  tellable := tellable
  current hchanged := by
    have same : (mergeRecording date mine theirs head other steps).staged = Staging.empty :=
      MergeStep.stageAll_of_unchanged hchanged
    exact same ▸ empty

theorem Staging.eq_empty {s : Staging} (h : s.isEmpty = true) (unchanged : s.changed = false) :
    s = Staging.empty := by
  cases s
  simp_all [Staging.isEmpty, Staging.empty]

/-- What is taken from the other side is held by it. -/
theorem of_resolved_takeOther {split head other : Commit} {n : String} {blob : ObjectId}
    (h : (resolvedNames split head other)[n]? = some (.takeOther blob)) :
    other.manifest[n]? = some blob := by
  rw [resolvedNames, Resolution.getElem?_plan] at h
  split at h
  · have := Option.some.inj h
    unfold Resolution.resolve at this
    split at this
    · cases hother : other.manifest[n]? <;> simp_all
    · split at this
      · split at this <;> cases this
      · split at this <;> cases this
  · cases h

theorem trackable_of_resolved {split head other : Commit} (hsplit : Sound root t split)
    (hhead : Sound root t head) (hother : Sound root t other) {n : String} {resolution : Resolution}
    (h : (resolvedNames split head other)[n]? = some resolution) : Trackable root n := by
  rw [resolvedNames, Resolution.getElem?_plan] at h
  split at h
  · rename_i known
    rcases known with known | known | known
    · exact hsplit.names n known
    · exact hhead.names n known
    · exact hother.names n known
  · cases h

/-! ## 2. Merging three snapshots -/

/-- From `t` to `t'` two snapshots have been merged with these steps: in `t₁` the working files are
as the steps leave them, and then the commit has been recorded. -/
structure Merged (root : Path) (date : Time.Moment) (mine theirs : Branch)
    (head other split : Commit)
    (steps : List MergeStep) (t t₁ t' : FileTree) : Prop where
  planned : MergeStep.plan root t head other (resolvedNames split head other) = .ok steps
  nodup : (steps.map MergeStep.name).Nodup
  mem : ∀ step, step ∈ steps ↔ ∃ resolution,
    (resolvedNames split head other)[step.name]? = some resolution ∧
      MergeStep.ofResolution root t head other step.name resolution = .ok (some step)
  work : Touches root [.work] t t₁
  written : ∀ n content, MergeStep.write n content ∈ steps →
    t₁.at? (n :: root) = some (.file (.plain content))
  removed : ∀ n content, MergeStep.remove n content ∈ steps →
    ∀ c, t₁.at? (n :: root) ≠ some (.file c)
  frame : ∀ p, (∀ step ∈ steps, ¬.text step.name :: root <:+ p) → t₁.at? p = t.at? p
  recorded : Recorded root mine (mergeRecording date mine theirs head other steps) t₁ t'

namespace Command

open LocalVcs.Action

/-- **Merging three snapshots succeeds**, unless a file that no commit holds is in the way; then
nothing is changed. -/
theorem mergeTips_run (h : Intact root t) {name : String} {mine theirs : Branch}
    {head other split : Commit} (m : ThreeWay root t name mine theirs head other split)
    {date : Time.Moment} (tellable : date.Tellable) (printed : String) :
    ∃ working, Worktree.list root t = .ok working ∧
      if (untrackedInTheWay? working head.manifest
          (touchedNames split head other)).isSome = true then
        mergeTips root date Staging.empty (mergeMessage mine theirs) split head other ⟨t, printed⟩ =
          (.error (.user .untrackedFileInTheWay), ⟨t, printed⟩)
      else ∃ steps t₁ t',
        mergeTips root date Staging.empty (mergeMessage mine theirs) split head other ⟨t, printed⟩ =
          (.ok (), ⟨t', printed ++ conflictNotice split head other⟩) ∧
        Merged root date mine theirs head other split steps t t₁ t' := by
  obtain ⟨working, hlist, -⟩ := Worktree.list_eq h.housed
  refine ⟨working, hlist, ?_⟩
  split
  · rename_i blocked
    unfold mergeTips
    dsimp only
    rw [bind_run_ok (read_run hlist), touchedNames, resolvedNames] at *
    rw [if_pos blocked]
    rfl
  · rename_i free
    obtain ⟨hheadId, storedHead, soundHead, -⟩ := h.of_load m.loadHead
    obtain ⟨hotherId, storedOther, soundOther, rootedOther⟩ := h.of_load m.loadOther
    obtain ⟨-, -, soundSplit, -⟩ := h.of_load m.loadSplit
    have taken : ∀ (n : String) blob,
        (resolvedNames split head other)[n]? = some (.takeOther blob) →
        other.manifest[n]? = some blob := fun _ _ => of_resolved_takeOther
    obtain ⟨steps, hplan, nodup, hmem⟩ := MergeStep.plan_run h soundHead soundOther taken
    have trackable : ∀ step ∈ steps, Trackable root step.name := by
      intro step hstep
      obtain ⟨resolution, hresolved, -⟩ := (hmem step).mp hstep
      exact trackable_of_resolved soundSplit soundHead soundOther hresolved
    -- the working files are written and deleted
    obtain ⟨t₁, hrun₁, touch₁, written, removed, frame⟩ :=
      MergeStep.applyAll_run h.housed nodup trackable Staging.empty printed
    have kept₁ : Kept True root t t₁ := Kept.of_work h touch₁
    have grows := kept₁.objects.grows
    -- then the commit is recorded
    obtain ⟨staging, hstaging, nothing⟩ := m.nothing
    obtain ⟨unchanged, shows_⟩ := Staging.load_spec h.housed h.index hstaging
    obtain rfl := Staging.eq_empty nothing unchanged
    have fits := mergeRecording_fits mine theirs (storedHead.mono grows) (rootedOther.mono grows)
      trackable tellable (shows_.of_touches touch₁ (by simp))
    have hcurrent : Branches.current root t₁ = .ok mine := by
      rw [Branches.current_congr h.housed kept₁.intact.housed touch₁ (by simp) (by simp), m.current]
    have hload : Commits.load root t₁ mine.tip = .ok head :=
      kept₁.intact.load_iff.mpr ⟨hheadId, storedHead.mono grows⟩
    obtain ⟨t', hrun', recorded⟩ := record_run kept₁.intact fits hcurrent hload
      (by simp [mergeRecording, mergeMessage]) (by simp [mergeRecording]) printed
    refine ⟨steps, t₁, t', ?_, hplan, nodup, hmem, touch₁, written, removed, frame, recorded⟩
    have hrecord : record root date (MergeStep.stageAll steps Staging.empty)
        (mergeMessage mine theirs) (some other.id) ⟨t₁, printed⟩ = (.ok (), ⟨t', printed⟩) := hrun'
    unfold mergeTips
    dsimp only
    rw [touchedNames, resolvedNames] at free
    rw [resolvedNames] at hplan
    rw [bind_run_ok (read_run hlist), if_neg free, bind_run_ok (undamaged_run hplan),
      bind_run_ok hrun₁, bind_run_ok hrecord, conflictNotice, resolvedNames]
    split
    · rfl
    · rw [String.append_empty]; rfl

/-! ## 3. The command -/

/-- In that state of affairs a merge is one of three snapshots. -/
theorem merge_of_threeWay (h : Intact root t) {name : String} {mine theirs : Branch}
    {head other split : Commit} (m : ThreeWay root t name mine theirs head other split)
    (date : Time.Moment) (printed : String) :
    merge root date name ⟨t, printed⟩ =
      mergeTips root date Staging.empty (mergeMessage mine theirs) split head other
        ⟨t, printed⟩ := by
  obtain ⟨staging, hstaging, nothing⟩ := m.nothing
  obtain rfl := Staging.eq_empty nothing (Staging.load_spec h.housed h.index hstaging).1
  have hmeet : undamaged (fun t => History.splitPoint (Commits.load root t) (Commits.walkBound t)
      head.id other.id) ⟨t, printed⟩ = (.ok (some split.id), ⟨t, printed⟩) := undamaged_run m.meet
  unfold merge
  dsimp only
  rw [bind_run_ok (read_run hstaging), if_pos nothing, bind_run_ok (resolveBranch_run m.found),
    bind_run_ok (read_run m.current), if_neg (m.distinct h),
      bind_run_ok (loadCommit_run m.loadHead),
    bind_run_ok (loadCommit_run m.loadOther), bind_run_ok hmeet]
  dsimp only
  rw [if_neg m.behind, if_neg m.ahead, bind_run_ok (loadCommit_run m.loadSplit)]
  rfl

/-- **A merge has four outcomes**, whatever the repository is like: it is refused, or the other
branch is behind the current one and nothing is to be done, or it is ahead and the merge goes over
to its tip, or three snapshots are merged. -/
theorem leads_merge {date : Time.Moment} {name printed : String}
    {Q : Except Fault Unit → World → Prop} (refused : ∀ fault, Q (.error fault) ⟨t, printed⟩)
    (behind : ∀ mine theirs head other, TwoTips root t name mine theirs head other other.id →
      Q (.ok ()) ⟨t, printed ++ "Given branch is an ancestor of the current branch.\n"⟩)
    (ahead : ∀ staging mine theirs head other, Staging.load root t = .ok staging →
      TwoTips root t name mine theirs head other head.id → head.id ≠ other.id →
      (switchTo root staging theirs >>= fun _ =>
        print "Current branch fast-forwarded.\n").Leads ⟨t, printed⟩ Q)
    (apart : ∀ staging mine theirs head other split, Staging.load root t = .ok staging →
      ThreeWay root t name mine theirs head other split →
      (mergeTips root date staging (mergeMessage mine theirs) split head other).Leads
        ⟨t, printed⟩ Q) :
    (merge root date name).Leads ⟨t, printed⟩ Q := by
  unfold merge
  refine leads_read_bind ?_ fun _ _ => refused _
  intro staging hstaging
  dsimp only
  split
  · rename_i nothing
    refine leads_resolveBranch_bind ?_ fun _ => refused _
    intro theirs hfound
    refine leads_read_bind ?_ fun _ _ => refused _
    intro mine hcurrent
    split
    · exact leads_fail_bind (refused _)
    · rename_i distinct
      refine leads_undamaged_bind ?_ fun _ => refused _
      intro head hhead
      refine leads_undamaged_bind ?_ fun _ => refused _
      intro other hother
      refine leads_undamaged_bind ?_ fun _ => refused _
      intro meet hmeet
      split
      · exact refused _
      · rename_i found
        have tips : TwoTips root t name mine theirs head other found :=
          ⟨⟨staging, hstaging, nothing⟩, hcurrent, hfound, distinct, hhead, hother, hmeet⟩
        split
        · rename_i same
          exact leads_print (behind mine theirs head other (same ▸ tips))
        · rename_i notBehind
          split
          · rename_i same
            subst same
            exact ahead staging mine theirs head other hstaging tips notBehind
          · rename_i notAhead
            refine leads_undamaged_bind ?_ fun _ => refused _
            intro split hsplit
            obtain rfl := Commits.id_of_load hsplit
            exact apart staging mine theirs head other split hstaging
              ⟨⟨staging, hstaging, nothing⟩, hcurrent, hfound, hhead, hother, hmeet, hsplit,
                notAhead, notBehind⟩
  · exact leads_fail_bind (refused _)

/-- Where there are no three snapshots to merge, one of the other outcomes comes about. -/
theorem leads_merge_of_not_threeWay {date : Time.Moment} {name : String}
    (none_ : ∀ mine theirs head other split, ¬ThreeWay root t name mine theirs head other split)
    {printed : String} {Q : Except Fault Unit → FileTree → Prop}
    (refused : ∀ fault, Q (.error fault) t)
    (behind : ∀ mine theirs head other, TwoTips root t name mine theirs head other other.id →
      Q (.ok ()) t)
    (ahead : ∀ staging mine theirs head other, Staging.load root t = .ok staging →
      TwoTips root t name mine theirs head other head.id → head.id ≠ other.id →
      (switchTo root staging theirs).Leads ⟨t, printed⟩ fun r w' => Q r w'.tree) :
    (merge root date name).Leads ⟨t, printed⟩ fun r w' => Q r w'.tree := by
  refine leads_merge refused behind ?_ fun _ mine theirs head other split _ three =>
    absurd three (none_ mine theirs head other split)
  intro staging mine theirs head other hstaging tips notBehind
  exact (ahead staging mine theirs head other hstaging tips notBehind).bind
    (fun _ _ holds => leads_print holds) fun _ _ holds => holds

/-- **What merging leads to.**  Nothing is recorded and all objects stay as they are, or three
snapshots have been merged. -/
theorem merge_leads (h : Intact root t) {date : Time.Moment} (tellable : date.Tellable)
    {name : String} (hplain : plain → PlainName name) (printed : String) :
    (merge root date name).Leads ⟨t, printed⟩ fun r w' =>
      (Kept plain root t w'.tree ∧ (r = .ok () → ∀ mine theirs head other split,
        ¬ThreeWay root t name mine theirs head other split)) ∨
      ∃ mine theirs head other split steps t₁, r = .ok () ∧
        ThreeWay root t name mine theirs head other split ∧
        Merged root date mine theirs head other split steps t t₁ w'.tree := by
  have same : Kept plain root t t := Kept.refl h
  by_cases apart : ∃ mine theirs head other split,
      ThreeWay root t name mine theirs head other split
  · obtain ⟨mine, theirs, head, other, split, m⟩ := apart
    obtain ⟨working, -, hrun⟩ := mergeTips_run h m tellable printed
    split at hrun
    · exact Leads.of_run ((merge_of_threeWay h m date printed).trans hrun)
        (Or.inl ⟨same, fun hok => by cases hok⟩)
    · obtain ⟨steps, t₁, t', hrun, merged⟩ := hrun
      exact Leads.of_run ((merge_of_threeWay h m date printed).trans hrun)
        (Or.inr ⟨mine, theirs, head, other, split, steps, t₁, rfl, m, merged⟩)
  · have none_ : ∀ mine theirs head other split,
        ¬ThreeWay root t name mine theirs head other split :=
      fun mine theirs head other split m => apart ⟨mine, theirs, head, other, split, m⟩
    refine (leads_merge_of_not_threeWay none_ (Q := fun _ => Kept plain root t) (fun _ => same)
      (fun _ _ _ _ _ => same) ?_).mono fun _ _ kept => Or.inl ⟨kept, fun _ => none_⟩
    intro staging mine theirs head other hstaging tips _
    exact switchTo_keeps h hstaging tips.found hplain printed

end Command

end LocalVcs
