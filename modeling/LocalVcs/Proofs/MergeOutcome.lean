/-
# The outcome of a merge

Each name of a merged snapshot is what the side has made of it that changed it, or is marked as a
conflict; the working files that are touched are those of names that the other side has changed and
that the sides do not agree on.  Here that is told name by name, for the working files and for the
commit that is recorded.

* `merged`: what becomes of one name.
* `mem_touchedNames`: the names whose working files are touched.
* `Merged.joined`: the outcome of a merge, from its steps.
* `Run.merge_joins`: merging in any state of a run.
-/
import LocalVcs.Proofs.MergeLaws
import LocalVcs.Proofs.Restoring
import LocalVcs.Proofs.WellFormed

namespace LocalVcs

open FileTree Layout

variable {root : Path} {t t₁ t' : FileTree} {name : String} {mine theirs : Branch}
  {head other split : Commit} {date : Time.Moment} {steps : List MergeStep}

/-! ## 1. One name -/

/-- What becomes of a name: what the other side holds where the current one has not changed it; what
the current side holds where the other one has not, or holds the same; else a marked conflict. -/
def merged {α : Type} (split head other : Option ObjectId) (mine theirs marked : α) : α :=
  if split = head then theirs else if split = other ∨ head = other then mine else marked

/-- The working files that are touched are those of names that the other side has changed and on
which the sides do not agree. -/
theorem mem_touchedNames {n : String} : n ∈ touchedNames split head other ↔
    split.manifest[n]? ≠ other.manifest[n]? ∧ head.manifest[n]? ≠ other.manifest[n]? := by
  rw [touchedNames, Std.ExtTreeMap.mem_keys, NameMap.mem_iff_exists_getElem?]
  simp only [Std.ExtTreeMap.getElem?_filter', Option.filter_eq_some_iff, resolvedNames,
    Resolution.getElem?_plan]
  constructor
  · rintro ⟨resolution, hresolved, touches⟩
    split at hresolved
    · obtain rfl := Option.some.inj hresolved
      exact (Resolution.touches_resolve _ _ _).mp touches
    · cases hresolved
  · intro differ
    refine ⟨_, if_pos ?_, (Resolution.touches_resolve _ _ _).mpr differ⟩
    -- one of two different entries is there
    by_contra unknown
    simp only [not_or] at unknown
    exact differ.2 (by rw [Std.ExtTreeMap.getElem?_eq_none unknown.2.1,
      Std.ExtTreeMap.getElem?_eq_none unknown.2.2])

theorem getElem?_resolvedNames {n : String} (touched : n ∈ touchedNames split head other) :
    (resolvedNames split head other)[n]? = some
      (Resolution.resolve split.manifest[n]? head.manifest[n]? other.manifest[n]?) := by
  rw [touchedNames, Std.ExtTreeMap.mem_keys, NameMap.mem_iff_exists_getElem?] at touched
  obtain ⟨resolution, hresolved⟩ := touched
  simp only [Std.ExtTreeMap.getElem?_filter', Option.filter_eq_some_iff, resolvedNames,
    Resolution.getElem?_plan] at hresolved
  rw [resolvedNames, Resolution.getElem?_plan]
  split
  · rfl
  · simp_all

/-- What a commit holds under a name, as bytes. -/
theorem map_trackedContent (h : Intact root t) {c : Commit} {n : String} {content : Option Bytes}
    (hcontent : MergeStep.trackedContent root t c n = .ok content) :
    content.map Object.blobId = c.manifest[n]? := by
  have htracked : c.tracked? n = c.manifest[n]? := rfl
  rw [MergeStep.trackedContent, htracked] at hcontent
  cases hblob : c.manifest[n]? with
  | none =>
    obtain rfl : none = content := by simpa [hblob] using hcontent
    rfl
  | some blob =>
    simp only [hblob] at hcontent
    cases hload : Blobs.load root t blob with
    | error damage => simp [hload, Except.map] at hcontent
    | ok bytes =>
      obtain rfl : some bytes = content := by simpa [hload, Except.map] using hcontent
      exact congrArg some (h.of_loadBlob hload)

/-! ## 2. One name among the steps -/

namespace Merged

/-- A step is there for names only that are touched. -/
theorem touched_of_step (m : Merged root date mine theirs head other split steps t t₁ t')
    {step : MergeStep} (h : step ∈ steps) : step.name ∈ touchedNames split head other := by
  obtain ⟨resolution, hresolved, hof⟩ := (m.mem step).mp h
  rw [touchedNames, Std.ExtTreeMap.mem_keys, NameMap.mem_iff_exists_getElem?]
  refine ⟨resolution, ?_⟩
  rw [Std.ExtTreeMap.getElem?_filter', hresolved, Option.filter_eq_some_iff]
  refine ⟨rfl, ?_⟩
  cases resolution with
  | takeOther _ | conflict | remove => rfl
  | keepHead | unchanged => cases hof

/-- The step for a touched name: what has become of the name is written, or the file deleted. -/
theorem step_of_touched (m : Merged root date mine theirs head other split steps t t₁ t')
    (h : Intact root t) {n : String} {ours others : Option Bytes}
    (hours : MergeStep.trackedContent root t head n = .ok ours)
    (hothers : MergeStep.trackedContent root t other n = .ok others)
    (touched : n ∈ touchedNames split head other) :
    match merged split.manifest[n]? head.manifest[n]? other.manifest[n]? ours others
      (some (conflictContent ours others)) with
    | some content => MergeStep.write n content ∈ steps
    | none => ∃ content, MergeStep.remove n content ∈ steps := by
  have hresolved := getElem?_resolvedNames touched
  obtain ⟨changed, differ⟩ := mem_touchedNames.mp touched
  have mine_ := map_trackedContent h hours
  have theirs_ := map_trackedContent h hothers
  by_cases same : split.manifest[n]? = head.manifest[n]?
  · have resolution : Resolution.resolve split.manifest[n]? head.manifest[n]? other.manifest[n]? =
        other.manifest[n]?.elim .remove .takeOther := if_pos ⟨same, changed⟩
    rw [merged, if_pos same]
    cases others with
    | none =>
      -- the other side has dropped the name, so the current one holds it
      obtain hnone : other.manifest[n]? = none := theirs_.symm
      cases ours with
      | none => exact absurd (mine_.symm.trans theirs_) differ
      | some content =>
        refine ⟨content, (m.mem _).mpr ⟨.remove, ?_, ?_⟩⟩
        · rw [MergeStep.name, hresolved, resolution, hnone]; rfl
        · rw [MergeStep.name, MergeStep.ofResolution, hours]; rfl
    | some content =>
      obtain hsome : other.manifest[n]? = some (Object.blobId content) := theirs_.symm
      refine (m.mem _).mpr ⟨.takeOther (Object.blobId content), ?_, ?_⟩
      · rw [MergeStep.name, hresolved, resolution, hsome]; rfl
      · have htracked : other.tracked? n = some (Object.blobId content) := hsome
        rw [MergeStep.trackedContent, htracked] at hothers
        cases hload : Blobs.load root t (Object.blobId content) with
        | error damage => simp [hload, Except.map] at hothers
        | ok bytes =>
          obtain rfl : bytes = content := by simpa [hload, Except.map] using hothers
          rw [MergeStep.name, MergeStep.ofResolution, hload]; rfl
  · have resolution : Resolution.resolve split.manifest[n]? head.manifest[n]? other.manifest[n]? =
        .conflict := by
      rw [Resolution.resolve, if_neg fun both => same both.1, if_neg fun both => changed both.1,
        if_pos ⟨same, changed, differ⟩]
    rw [merged, if_neg same, if_neg (by simp [changed, differ])]
    refine (m.mem _).mpr ⟨.conflict, ?_, ?_⟩
    · rw [MergeStep.name, hresolved, resolution]
    · rw [MergeStep.name, MergeStep.ofResolution, hours, hothers]; rfl

/-- What the recorded snapshot holds under a name. -/
theorem made_manifest (m : Merged root date mine theirs head other split steps t t₁ t')
    (h : Intact root t) {n : String} {ours others : Option Bytes}
    (hours : MergeStep.trackedContent root t head n = .ok ours)
    (hothers : MergeStep.trackedContent root t other n = .ok others) :
    (mergeRecording date mine theirs head other steps).made.manifest[n]? =
      (merged split.manifest[n]? head.manifest[n]? other.manifest[n]? ours others
        (some (conflictContent ours others))).map Object.blobId := by
  have held : (mergeRecording date mine theirs head other steps).made.manifest[n]? =
      if n ∈ (MergeStep.stageAll steps Staging.empty).removals then none
      else ((MergeStep.stageAll steps Staging.empty).additions[n]?.map Object.blobId).or
        head.manifest[n]? := Staging.getElem?_nextManifest _ _ n
  have mem_removals : n ∈ (MergeStep.stageAll steps Staging.empty).removals ↔
      ∃ content, (MergeStep.stageAll steps Staging.empty).removals[n]? = some content :=
    NameMap.mem_iff_exists_getElem?
  rw [held]
  by_cases touched : n ∈ touchedNames split head other
  · have step := m.step_of_touched h hours hothers touched
    split at step
    · rename_i content hmerged
      obtain ⟨added, notRemoved⟩ := MergeStep.stageAll_of_write (s := Staging.empty) m.nodup step
      rw [if_neg (by simp [mem_removals, notRemoved]), added, hmerged]
      rfl
    · rename_i hmerged
      obtain ⟨content, step⟩ := step
      obtain ⟨-, removed⟩ := MergeStep.stageAll_of_remove (s := Staging.empty) m.nodup step
      rw [if_pos (mem_removals.mpr ⟨content, removed⟩), hmerged]
      rfl
  · have unnamed : ∀ step ∈ steps, step.name ≠ n := by
      rintro step hstep rfl
      exact touched (m.touched_of_step hstep)
    obtain ⟨notAdded, notRemoved⟩ := MergeStep.stageAll_of_not_named (s := Staging.empty) unnamed
    have nothing : (Staging.empty.additions[n]? : Option Bytes) = none ∧
        (Staging.empty.removals[n]? : Option Bytes) = none := by simp [Staging.empty]
    rw [if_neg (by simp [mem_removals, notRemoved, nothing.2]), notAdded, nothing.1]
    -- where nothing is staged the snapshot of the current side is right already
    have mine_ := map_trackedContent h hours
    have theirs_ := map_trackedContent h hothers
    have agree : split.manifest[n]? = other.manifest[n]? ∨
        head.manifest[n]? = other.manifest[n]? := by
      by_contra differ
      simp only [not_or] at differ
      exact touched (mem_touchedNames.mpr differ)
    by_cases same : split.manifest[n]? = head.manifest[n]?
    · rw [merged, if_pos same, theirs_]
      rcases agree with agree | agree
      · rw [← agree, same]; rfl
      · rw [← agree]; rfl
    · rw [merged, if_neg same, if_pos agree, mine_]; rfl

end Merged

/-! ## 3. The whole outcome -/

/-- Under a name in the working directory lies a file with these contents, or no file. -/
def Lies (root : Path) (t : FileTree) (n : String) : Option Bytes → Prop
  | some content => t.at? (n :: root) = some (.file (.plain content))
  | none => ∀ content, t.at? (n :: root) ≠ some (.file content)

/-- From `t` to `t'` the branch `theirs` has been merged into the current branch `mine`, and the
commit `made` has come about by that. -/
structure Joined (root : Path) (date : Time.Moment) (mine theirs : Branch)
    (split head other made : Commit) (t t' : FileTree) : Prop where
  message : made.message = "Merged " ++ theirs.name.text ++ " into " ++ mine.name.text ++ "."
  /-- The second of the date, in its zone of whole minutes. -/
  moment : made.moment = date.told
  parents : made.parents = [head.id, other.id]
  /-- The current branch has moved to the new commit. -/
  current : Branches.current root t' = .ok ⟨mine.name, made.id⟩
  /-- No other branch has moved. -/
  others : ∀ name : BranchName, PlainName name.text → name ≠ mine.name →
    Branches.get? root t' name = Branches.get? root t name
  /-- The new commit is stored, unless another one was stored under its id before. -/
  stored : ∃ c, Commits.load root t' made.id = .ok c ∧
    (c = made ∨ Commits.load root t made.id = .ok c)
  /-- What has become of each name, in the new snapshot and in the working directory. -/
  names : ∀ n, ∃ ours others result, MergeStep.trackedContent root t head n = .ok ours ∧
    MergeStep.trackedContent root t other n = .ok others ∧
    result = merged split.manifest[n]? head.manifest[n]? other.manifest[n]? ours others
      (some (conflictContent ours others)) ∧
    made.manifest[n]? = result.map Object.blobId ∧
    made.manifest[n]? = merged split.manifest[n]? head.manifest[n]? other.manifest[n]?
      head.manifest[n]? other.manifest[n]? (some (Object.blobId (conflictContent ours others))) ∧
    (n ∈ touchedNames split head other → Lies root t' n result)
  /-- Nothing else has changed outside the repository's own directory. -/
  frame : ∀ p, ¬metaPath root <:+ p →
    (∀ n ∈ touchedNames split head other, ¬.text n :: root <:+ p) → t'.at? p = t.at? p
  /-- Nothing is staged. -/
  index : Staging.load root t' = .ok Staging.empty

theorem merged_map {α β : Type} (f : α → β) (s h o : Option ObjectId) (mine theirs marked : α) :
    f (merged s h o mine theirs marked) = merged s h o (f mine) (f theirs) (f marked) := by
  simp only [merged]
  split
  · rfl
  · split <;> rfl

namespace Merged

/-- What has become of one name. -/
theorem name_joined (m : Merged root date mine theirs head other split steps t t₁ t')
    (h : Intact root t) (three : ThreeWay root t name mine theirs head other split) (n : String) :
    ∃ ours others result, MergeStep.trackedContent root t head n = .ok ours ∧
      MergeStep.trackedContent root t other n = .ok others ∧
      result = merged split.manifest[n]? head.manifest[n]? other.manifest[n]? ours others
        (some (conflictContent ours others)) ∧
      (mergeRecording date mine theirs head other steps).made.manifest[n]? =
        result.map Object.blobId ∧
      (n ∈ touchedNames split head other → Lies root t' n result) := by
  obtain ⟨-, -, soundHead, -⟩ := h.of_load three.loadHead
  obtain ⟨-, -, soundOther, -⟩ := h.of_load three.loadOther
  obtain ⟨-, -, soundSplit, -⟩ := h.of_load three.loadSplit
  obtain ⟨ours, hours, -⟩ := MergeStep.trackedContent_run h soundHead n
  obtain ⟨others, hothers, -⟩ := MergeStep.trackedContent_run h soundOther n
  refine ⟨ours, others, _, hours, hothers, rfl, m.made_manifest h hours hothers, ?_⟩
  intro touched
  have trackable := trackable_of_resolved soundSplit soundHead soundOther
    (getElem?_resolvedNames touched)
  -- recording the commit leaves the working files alone
  have same : t'.at? (n :: root) = t₁.at? (n :: root) :=
    m.recorded.touch.at?_eq
      (Area.holds_work (FileName.text_ne trackable.notMeta) (List.suffix_refl _)) (by simp)
  have step := m.step_of_touched h hours hothers touched
  split at step
  · rename_i content hmerged
    rw [hmerged, Lies, same]
    exact m.written n content step
  · rename_i hmerged
    obtain ⟨content, step⟩ := step
    rw [hmerged]
    intro c hat
    exact m.removed n content step c (same ▸ hat)

/-- **The outcome of a merge.** -/
theorem joined (m : Merged root date mine theirs head other split steps t t₁ t')
    (h : Intact root t) (three : ThreeWay root t name mine theirs head other split)
    (plain : PlainName mine.name.text) :
    Joined root date mine theirs split head other
      (mergeRecording date mine theirs head other steps).made t t' where
  message := rfl
  moment := rfl
  parents := rfl
  current := by
    have kept : Kept True root t t₁ := Kept.of_work h m.work
    have hcurrent : Branches.current root t₁ = .ok mine := by
      rw [Branches.current_congr h.housed kept.intact.housed m.work (by simp) (by simp),
        three.current]
    exact m.recorded.current kept.intact hcurrent
  others name hname hne := by
    have kept : Kept True root t t₁ := Kept.of_work h m.work
    have distinct : branchPath root name ≠ branchPath root mine.name := fun hpath =>
      hne (branchPath_injective hname plain hpath)
    rw [m.recorded.moved.get?_eq kept.intact.housed.free m.recorded.intact.housed.free distinct]
    exact Branches.get?_congr h.housed.free kept.intact.housed.free
      (m.work.at?_eq (Branches.holds_branchPath root name) (by simp))
  stored := by
    obtain ⟨c, stored, hid, fresh⟩ := m.recorded.stored
    refine ⟨c, m.recorded.intact.load_iff.mpr ⟨hid, stored⟩, fresh.imp_right ?_⟩
    intro before
    have same := m.work.sameObjects (by simp)
    exact h.load_iff.mpr ⟨hid, before.readable, same.stored_iff.mp before.stored⟩
  names n := by
    obtain ⟨ours, others, result, hours, hothers, hresult, hmade, lies⟩ := m.name_joined h three n
    refine ⟨ours, others, result, hours, hothers, hresult, hmade, ?_, lies⟩
    rw [hmade, hresult, merged_map (Option.map Object.blobId), map_trackedContent h hours,
      map_trackedContent h hothers]
    rfl
  frame p outside away := by
    rw [m.recorded.touch.at?_outside (by simp) outside,
      m.frame p fun step hstep => away _ (m.touched_of_step hstep)]
  index := Staging.load_of_shows m.recorded.intact.housed m.recorded.intact.index m.recorded.index

end Merged

/-! ## 4. Files in the way -/

/-- A working file that the current commit does not track is listed under a name that the merge
touches. -/
def InTheWay (root : Path) (t : FileTree) (split head other : Commit) : Prop :=
  ∃ n ∈ touchedNames split head other, n ∉ head.manifest ∧ Worktree.Listed root t n

theorem isSome_untrackedInTheWay?_iff (h : Housed root t) (split head other : Commit)
    {working : List String} (hlist : Worktree.list root t = .ok working) :
    (untrackedInTheWay? working head.manifest (touchedNames split head other)).isSome = true ↔
      InTheWay root t split head other := by
  obtain ⟨names, hnames, mem_names⟩ := Worktree.list_eq h
  obtain rfl := Except.ok.inj (hnames.symm.trans hlist)
  simp only [untrackedInTheWay?, List.find?_isSome, decide_eq_true_eq, InTheWay, mem_names]

/-! ## 5. Merging in a run -/

namespace Apart

open History

variable {t : FileTree}

theorem id_ne {c c' : Commit} (hc : .commit c ∈ objects) (hc' : .commit c' ∈ objects)
    (hne : c.message ≠ c'.message) : c.id ≠ c'.id := by
  intro hid
  have same := List.inj_on_of_nodup_map nodup_ids hc hc' hid
  exact hne (congrArg Commit.message (Object.commit.inj same))

/-- The split point of the two branches is the first commit. -/
theorem splitPoint_run (run : Run [] Request.Plain Settings.Dates [right, left] t) :
    splitPoint (Commits.load [] t) (Commits.walkBound t) right.made.id left.made.id =
      .ok (some Commit.initial.id) := by
  have h := run.intact
  obtain ⟨hleft, hright, hfirst⟩ := loads run
  obtain ⟨ids, hids, hcard⟩ := h.exists_ids
  refine (splitPoint_eq_some_iff (h.closed hids) h.acyclic ((hids _).mpr ⟨_, hright⟩)
    ((hids _).mpr ⟨_, hleft⟩) (Nat.le_succ_of_le hcard)).mpr ?_
  have toRight : Parent (Commits.load [] t) Commit.initial.id right.made.id :=
    (parent_iff hright).mpr (List.mem_singleton_self _)
  refine Meets.onward (fun shared => ?_) hleft
    (show left.made.parents = [] ++ Commit.initial.id :: [] from rfl) (by simp)
    (.here toRight.ancestor)
  -- before the one tip comes nothing but the first commit
  rcases shared.eq_or_parent with hid | ⟨p, hp, shared⟩
  · exact id_ne (by simp [objects]) (by simp [objects]) (by decide) hid
  · obtain rfl : p = Commit.initial.id := List.mem_singleton.mp ((parent_iff hright).mp hp)
    rcases shared.eq_or_parent with hid | ⟨q, hq, -⟩
    · exact id_ne (by simp [objects]) (by simp [objects]) (by decide) hid
    · cases (parent_iff hfirst).mp hq

/-- No file is in the way of merging them, as the one that they differ in is tracked. -/
theorem not_inTheWay : ¬InTheWay [] t Commit.initial right.made left.made := by
  rintro ⟨n, touched, untracked, -⟩
  have changed := (mem_touchedNames.mp touched).1
  by_cases file : n = "file"
  · exact untracked (file ▸ file_mem _ _)
  · rw [left, made_manifest, if_neg file] at changed
    exact changed (by simp [Commit.initial])

end Apart

end LocalVcs
