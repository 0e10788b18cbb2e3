/-
# There and back again

Going over to another branch, or resetting to another commit, can be taken back.  What the first
switch has deleted is what the second one writes, and what it has written is what the second one
deletes; so no file is in the way back, and where every tracked file stood as the current commit has
it, the working files are in the end what they were.

* `Status.Untouched`: nothing is staged, and no tracked file has been changed.
* `Switched.back`: two switches that cancel each other, file by file.
* `Back`: the state that one has come back to.
* `Run.there_and_back`: both ways of switching, in any state of a run.
-/
import LocalVcs.Proofs.SwitchOutcome
import LocalVcs.Proofs.WorkingIds
import LocalVcs.Proofs.Effects

namespace LocalVcs

open FileTree Layout

variable {root : Path} {t t₁ t₂ : FileTree} {text : String} {mine theirs : Branch}
  {current target : Commit}

/-! ## 1. Before the switch -/

/-- Right in the working directory there is nothing but files and the repository's own directory. -/
def Flat (root : Path) (t : FileTree) : Prop :=
  ∀ name e, t.at? (name :: root) = some e → name = metaName ∨ ∃ content, e = .file content

/-- No working file has the id of a stored blob with other bytes. -/
def Unmistaken (root : Path) (t : FileTree) : Prop :=
  ∀ name content stored, t.at? (name :: root) = some (.file content) →
    Blobs.load root t (Object.blobId content.bytes) = .ok stored → stored = content.bytes

/-- A staging area that is as it was read is the empty one where nothing is staged. -/
theorem Staging.eq_empty_iff {s : Staging} (unchanged : s.changed = false) :
    s = empty ↔ s.isEmpty = true := by
  obtain ⟨additions, removals, changed⟩ := s
  obtain rfl : changed = false := unchanged
  simp [empty, isEmpty]

namespace Status

/-- Nothing is staged or removed, and no tracked file is modified or deleted; there may be files
that are not tracked. -/
def Untouched (s : Status) : Prop := s.staged = [] ∧ s.removed = [] ∧ s.unstaged = ∅

theorem change?_eq_none_iff {expected : ObjectId} {actual : Option ObjectId} :
    change? expected actual = none ↔ actual = some expected := by
  cases actual <;> simp [change?]

theorem unstagedChanges_eq_empty_iff {head working : NameMap ObjectId} :
    unstagedChanges head ∅ ∅ working = ∅ ↔
      ∀ (name : String) blob, head[name]? = some blob → working[name]? = some blob := by
  have changes (name : String) : (unstagedChanges head ∅ ∅ working)[name]? =
      head[name]?.bind fun id => change? id working[name]? := by
    rw [getElem?_unstagedChanges]
    simp
  constructor
  · intro nothing name blob hblob
    have unchanged := changes name
    rw [nothing, hblob, Option.bind_some, Std.ExtTreeMap.getElem?_empty] at unchanged
    exact change?_eq_none_iff.mp unchanged.symm
  · intro even
    refine Std.ExtTreeMap.ext_getElem? fun name => ?_
    rw [changes, Std.ExtTreeMap.getElem?_empty, Option.bind_eq_none_iff]
    exact fun blob hblob => change?_eq_none_iff.mpr (even name blob hblob)

/-- **A report of nothing** tells that the staging area is empty and that the working files have the
ids that the current commit tracks. -/
theorem untouched_iff {head : Commit} {staging : Staging} (finds : Finds root t mine head staging)
    {s : Status} (hreport : report root t = .ok s) : s.Untouched ↔ staging = Staging.empty ∧
      ∀ (name : String) blob, head.manifest[name]? = some blob → ∃ content,
        t.at? (name :: root) = some (.file content) ∧ Object.blobId content.bytes = blob := by
  obtain ⟨branches, current, told⟩ := report_eq finds
  rw [hreport] at told
  cases hworking : Command.workingIds root t with
  | error fault => simp [hworking, Except.map] at told
  | ok working =>
  rw [hworking] at told
  obtain rfl := Except.ok.inj told
  have unchanged := (Staging.load_spec finds.intact.housed finds.intact.index finds.staging).1
  rw [Untouched, inspect, Std.ExtTreeMap.keys_eq_nil_iff, Std.ExtTreeSet.toList_eq_nil_iff,
    Staging.eq_empty_iff unchanged, Staging.isEmpty_iff, and_assoc]
  refine and_congr_right fun noAdditions => and_congr_right fun noRemovals => ?_
  rw [noAdditions, noRemovals, unstagedChanges_eq_empty_iff]
  refine forall₃_congr fun name blob hblob => ?_
  have held : name ∈ head.manifest := NameMap.mem_iff_exists_getElem?.mpr ⟨blob, hblob⟩
  have trackable := (finds.intact.of_load finds.load).2.2.1.names name held
  have known : (Worktree.fileName? name).isSome = true := by rw [trackable.names]; rfl
  rw [Command.getElem?_workingIds_of_housed finds.intact.housed hworking, and_iff_right known]

end Status

/-! ## 2. Two switches that cancel each other -/

/-- Nothing that a switch leaves is in the way back. -/
theorem Switched.not_blocked (there : Switched root current target t t₁) (apart : ShownApart root t)
    (even : ∀ name ∈ current.manifest, ∃ content, t.at? (name :: root) = some (.file content)) :
    ¬Switch.Blocked root t₁ target current := by
  rintro ⟨name, held, left, -, file, content, shown, hat⟩
  cases file with
  | text name' =>
    obtain rfl : name' = name := shown
    exact there.gone name' held left content hat
  | other bytes noText =>
    -- it was there before, and was shown as the name of a tracked file
    obtain ⟨own, hown⟩ := even name held
    cases apart _ _ _ _ (there.at?_other.symm.trans hat) hown shown

/-- **The way back restores the working files**, byte for byte. -/
theorem Switched.back (there : Switched root current target t t₁)
    (back : Switched root target current t₁ t₂) (clear : ¬Switch.Blocked root t current target)
    (flat : Flat root t) (trackable : ∀ name ∈ target.manifest, Trackable root name)
    (even : ∀ (name : String) blob stored, current.manifest[name]? = some blob →
      Blobs.load root t₁ blob = .ok stored →
      ∃ content, t.at? (name :: root) = some (.file content) ∧ content.bytes = stored)
    {name : String} (notMeta : name ≠ metaName) : t₂.at? (name :: root) = t.at? (name :: root) ∨
      ∃ content, t.at? (name :: root) = some (.file content) ∧
        t₂.at? (name :: root) = some (.file (.plain content.bytes)) := by
  by_cases held : name ∈ current.manifest
  · -- it is written again, with the bytes that it had
    obtain ⟨blob, hblob⟩ := NameMap.mem_iff_exists_getElem?.mp held
    obtain ⟨stored, hload, hat₂⟩ := back.written name blob hblob
    obtain ⟨content, hat, rfl⟩ := even name blob stored hblob hload
    exact Or.inr ⟨content, hat, hat₂⟩
  · left
    by_cases new : name ∈ target.manifest
    · -- nothing stood there, and nothing is left of what has been written
      have away : ∀ other ∈ current.manifest, ¬.text other :: root <:+ .text name :: root :=
        fun other hother => not_suffix_of_ne fun same => held (same ▸ hother)
      have gone : t₂.at? (name :: root) = none := by
        obtain ⟨blob, hblob⟩ := NameMap.mem_iff_exists_getElem?.mp new
        obtain ⟨stored, -, hat₁⟩ := there.written name blob hblob
        rcases back.frame _ (not_suffix_of_ne notMeta) away with same | ⟨hnone, -⟩
        · exact absurd (same.trans hat₁) (back.gone name new held _)
        · exact hnone
      rw [gone]
      cases hat : t.at? (name :: root) with
      | none => rfl
      | some e =>
        obtain ⟨content, rfl⟩ := (flat name e hat).resolve_left (FileName.text_ne notMeta)
        have known : (Worktree.fileName? name).isSome = true := by
          rw [(trackable name new).names]; rfl
        exact absurd ⟨name, new, held, .of_file known hat⟩ clear
    · rw [back.at?_eq notMeta new held, there.at?_eq notMeta held new]

/-! ## 3. Both ways of switching -/

/-- From `t` one has come back to `t'`: the working files hold what they held, `HEAD` and the
branches are what they were, and nothing is staged, as before. -/
structure Back (root : Path) (t t' : FileTree) : Prop where
  files : ∀ name, t'.at? (name :: root) = t.at? (name :: root) ∨
    ∃ content, t.at? (name :: root) = some (.file content) ∧
      t'.at? (name :: root) = some (.file (.plain content.bytes))
  head : t'.at? (headPath root) = t.at? (headPath root)
  branches : ∀ p, branchesPath root <:+ p → t'.at? p = t.at? p
  current : Branches.current root t' = Branches.current root t
  staging : Staging.load root t' = .ok Staging.empty ∧ Staging.load root t = .ok Staging.empty

/-- Where a switch has succeeded no file was in the way. -/
theorem Switches.of_ok {a : Action Unit} {printed : String} {moves : FileTree → Prop} {w : World}
    (h : a.Leads ⟨t, printed⟩ (Switches root current target t printed moves))
    (hrun : a ⟨t, printed⟩ = (.ok (), w)) : ¬Switch.Blocked root t current target ∧
      ∃ t', w = ⟨t', printed⟩ ∧ Switched root current target t t' ∧ moves t' := by
  rw [Action.Leads, hrun, Switches] at h
  obtain ⟨-, hfault, -⟩ | ⟨clear, t', -, hworld, switched, moved⟩ := h
  · cases hfault
  · exact ⟨clear, t', hworld, switched, moved⟩

/-- Where `there` succeeds in `t`, `back` succeeds right after it, and one has come back to `t`. -/
def Returns (root : Path) (t : FileTree) (there back : Request) : Prop :=
  ∀ {settings : Settings} {guarded : Bool} {printed : String} {w : World}, settings.root = root →
    there.perform settings guarded ⟨t, printed⟩ = (.ok (), w) →
    ∀ {settings' : Settings} {date' : Time.Moment} (guarded' : Bool) (printed' : String),
      settings'.root = root → Request.commitMoment settings' = .ok date' →
      ∃ t', back.perform settings' guarded' ⟨w.tree, printed'⟩ = (.ok (), ⟨t', printed'⟩) ∧
        Back root t t'

namespace Returns

variable {head : Commit} {staging : Staging} (finds : Finds root t mine head staging)
  {s : Status} (hreport : Status.report root t = .ok s) (untouched : s.Untouched)
  (flat : Flat root t) (apart : ShownApart root t) (unmistaken : Unmistaken root t)

include finds hreport untouched

/-- All tracked files are there. -/
theorem tracked : ∀ name ∈ head.manifest, ∃ content,
    t.at? (name :: root) = some (.file content) := by
  intro name held
  obtain ⟨blob, hblob⟩ := NameMap.mem_iff_exists_getElem?.mp held
  obtain ⟨content, hat, -⟩ := ((Status.untouched_iff finds hreport).mp untouched).2 name blob hblob
  exact ⟨content, hat⟩

include flat unmistaken

/-- The working files after both switches. -/
theorem files (there : Switched root head target t t₁) (back : Switched root target head t₁ t₂)
    (clear : ¬Switch.Blocked root t head target) (sound : Sound root t target) (h₁ : Intact root t₁)
    (h₂ : Housed root t₂) (same : SameObjects root t t₁) (file : FileName) :
    t₂.at? (file :: root) = t.at? (file :: root) ∨
      ∃ content, t.at? (file :: root) = some (.file content) ∧
        t₂.at? (file :: root) = some (.file (.plain content.bytes)) := by
  have h := finds.intact
  obtain ⟨-, even⟩ := (Status.untouched_iff finds hreport).mp untouched
  cases file with
  | other bytes noText => exact Or.inl (back.at?_other.trans there.at?_other)
  | text name =>
  by_cases hmeta : name = metaName
  · subst hmeta
    exact Or.inl (h₂.at?_meta.trans h.housed.at?_meta.symm)
  · refine there.back back clear flat sound.names (fun name blob stored hblob hload => ?_) hmeta
    obtain ⟨content, hat, rfl⟩ := even name blob hblob
    have hload : Blobs.load root t (Object.blobId content.bytes) = .ok stored :=
      h.loadBlob_iff.mpr (same.stored_iff.mp (h₁.loadBlob_iff.mp hload))
    exact ⟨content, hat, (unmistaken name content stored hat hload).symm⟩

include apart

/-- **Checking out another branch is taken back** by checking out the branch that was current. -/
theorem checkout (stands : HeadStands root t) (plain : PlainName mine.name.text)
    (plain' : PlainName text) : Returns root t (.checkout (some text) none)
      (.checkout (some mine.name.text) none) := by
  intro settings guarded printed w here hrun settings' date' guarded' printed' here' hdate'
  have h := finds.intact
  obtain ⟨hhead, hget⟩ := Branches.of_current finds.current
  -- what the first request has found
  have effect := Request.perform_effect finds here (.checkout (some text) none)
    (fun _ _ => trivial) guarded printed
  rw [Action.Leads, hrun] at effect
  obtain ⟨_, effect⟩ := effect
  cases effect with
  | reported reports => cases reports
  | @switched _ theirs target _ names =>
  obtain ⟨date, hdate, -⟩ := Request.of_perform_ok hrun
  obtain ⟨clear, t₁, rfl, there, h₁, same, moved⟩ := Switches.of_ok
    (Request.checkout_run h here hdate finds.current finds.load plain' names.found names.distinct
      names.load) hrun
  have hcurrent₁ : Branches.current root t₁ = .ok theirs := by
    obtain ⟨name, rfl, hget'⟩ := Branches.of_find? names.found
    obtain ⟨c, -, rfl, -⟩ := Branches.of_get? h.housed h.refs hget'
    exact moved.current_eq h h₁ hget' plain'
  have hfind₁ : Branches.find? root t₁ mine.name.text = .ok (some mine) := by
    rw [Branches.find?_text, ← hget]
    exact Branches.get?_congr h.housed.free h₁.housed.free
      (moved.branches _ (Branches.below_branchPath root mine.name))
  -- the way back
  obtain ⟨t₂, hrun₂, back, h₂, same₂, moved₂⟩ := Switches.run_of_clear
    (Request.checkout_run h₁ here' hdate' hcurrent₁ (h.load_of_grows h₁ same.grows names.load) plain
      hfind₁ (Ne.symm names.distinct) (h.load_of_grows h₁ same.grows finds.load))
        (there.not_blocked apart (tracked finds hreport untouched))
  have files := files finds hreport untouched flat unmistaken there back clear
    (h.of_load names.load).2.2.1 h₁ h₂.housed same
  have hcurrent₂ : Branches.current root t₂ = .ok mine :=
    moved₂.current_eq h₁ h₂ (Branches.find?_text mine.name ▸ hfind₁) plain
  refine ⟨t₂, hrun₂, files, ?_, fun p below => ?_, hcurrent₂.trans finds.current.symm, ?_⟩
  · obtain ⟨name, plainName, hat, -⟩ := stands
    obtain rfl := Except.ok.inj ((HeadStands.head_eq h.housed plainName hat).symm.trans hhead)
    rw [moved₂.head, hat]
  · rw [moved₂.branches p below, moved.branches p below]
  · obtain ⟨rfl, -⟩ := (Status.untouched_iff finds hreport).mp untouched
    exact ⟨Staging.load_of_shows h₂.housed h₂.index back.index, finds.staging⟩

/-- **Resetting is taken back** by resetting to what was the tip. -/
theorem reset (text : String) : Returns root t (.reset text) (.reset mine.tip.text) := by
  intro settings guarded printed w here hrun settings' date' guarded' printed' here' hdate'
  have h := finds.intact
  -- what the first request has found
  have effect := Request.perform_effect finds here (.reset text) (fun _ _ => trivial) guarded
    printed
  rw [Action.Leads, hrun] at effect
  obtain ⟨_, effect⟩ := effect
  cases effect with
  | reported reports => cases reports
  | @reset _ target _ hfind =>
  obtain ⟨date, hdate, -⟩ := Request.of_perform_ok hrun
  obtain ⟨clear, t₁, rfl, there, h₁, same, moved⟩ := Switches.of_ok
    (Request.reset_run h here hdate finds.current finds.load hfind) hrun
  have hcurrent₁ : Branches.current root t₁ = .ok ⟨mine.name, target.id⟩ :=
    moved.moved.current h h₁ moved.head finds.current
  have htarget : Commits.load root t target.id = .ok target :=
    h.load_iff.mpr ⟨rfl, h.of_find? hfind⟩
  obtain ⟨htip, stored, -⟩ := h.of_load finds.load
  have hfind₁ : Commits.find? root t₁ mine.tip.text = .ok (some head) :=
    htip ▸ h₁.find?_of_stored (stored.mono same.grows)
  -- the way back
  obtain ⟨t₂, hrun₂, back, h₂, same₂, moved₂⟩ := Switches.run_of_clear
    (Request.reset_run h₁ here' hdate' hcurrent₁ (h.load_of_grows h₁ same.grows htarget) hfind₁)
    (there.not_blocked apart (tracked finds hreport untouched))
  have files := files finds hreport untouched flat unmistaken there back clear
    (h.of_load htarget).2.2.1 h₁ h₂.housed same
  have hcurrent₂ : Branches.current root t₂ = .ok mine := by
    rw [moved₂.moved.current h₁ h₂ moved₂.head hcurrent₁, htip]
  refine ⟨t₂, hrun₂, files, moved₂.head.trans moved.head, fun p below => ?_,
    hcurrent₂.trans finds.current.symm, ?_⟩
  · obtain ⟨c, -, hmine, -, hat⟩ := h.of_current finds.current
    rw [moved₂.moved p below, moved.moved p below]
    split
    · rename_i hp
      rw [hp, hat, htip, hmine]
    · rfl
  · obtain ⟨rfl, -⟩ := (Status.untouched_iff finds hreport).mp untouched
    exact ⟨Staging.load_of_shows h₂.housed h₂.index back.index, finds.staging⟩

end Returns

namespace Apart

/-- There is a run in which one file has been committed behind another branch, and nothing else is
in the working directory. -/
theorem exists_flat : ∃ t, Run [] Request.Plain Settings.Dates [left] t ∧
    Finds [] t ⟨BranchName.master, left.made.id⟩ left.made Staging.empty ∧
    Branches.find? [] t other.text = .ok (some ⟨other, Commit.initial.id⟩) ∧
    WritesOnly [] "file" [1] FileTree.empty t := by
  obtain ⟨t₁, hrun₁, begun⟩ := Command.init_run startable ""
  have run₁ : Run [] Request.Plain Settings.Dates [] t₁ := Run.start startable.free hrun₁
  obtain ⟨t₂, run₂, touch₂, kept₂, found₂, hcurrent₂⟩ := branch_run run₁ begun.current
    (not_branched begun)
  obtain ⟨t₃, run₃, -, nothing₃, moved₃, hcurrent₃, only₃⟩ := commit_run "left" [1] (by decide) run₂
    (begun.index.of_touches touch₂ (by simp)) (begun.stored.mono kept₂.objects.grows) hcurrent₂ rfl
  have h₃ := run₃.intact
  refine ⟨t₃, run₃, ⟨h₃, hcurrent₃, (loads_left run₃).1,
    Staging.load_of_shows h₃.housed h₃.index nothing₃⟩, ?_, only₃.written,
    fun name notMeta away => ?_⟩
  · rw [Branches.find?_text, moved₃.get?_eq run₂.intact.housed.free h₃.housed.free distinct, found₂]
  · have outside : ¬metaPath [] <:+ [name] := not_suffix_of_name_ne notMeta
    rw [only₃.frame name notMeta away, touch₂.at?_outside (by simp) outside, begun.frame _ outside]

/-- The contents of the file are stored. -/
theorem loads_blob (run : Run [] Request.Plain Settings.Dates [left] t) :
    Blobs.load [] t (Object.blobId [1]) = .ok [1] := by
  have archive := run.archive (collisionFree.mono (by simp))
  have staged : left.staged.additions["file"]? = some [1] := by
    simp [left, recording, Staging.single]
  exact run.intact.loadBlob_iff.mpr
    (archive.stored (.blob [1]) (.brought (List.mem_singleton_self left) (.blob staged)))

/-- The working directory is flat, its names are texts, and its only file is not mistaken for
another one. -/
theorem flat_unmistaken (run : Run [] Request.Plain Settings.Dates [left] t)
    (only : WritesOnly [] "file" [1] FileTree.empty t) :
    Flat [] t ∧ TextsIn [] t ∧ Unmistaken [] t := by
  have alone : ∀ name e, t.at? [name] = some e → name = metaName ∨
      name = "file" ∧ e = .file (.plain [1]) := by
    intro name e hat
    by_cases hmeta : name = metaName
    · exact Or.inl hmeta
    by_cases hfile : name = "file"
    · subst hfile
      exact Or.inr ⟨rfl, Option.some.inj (hat.symm.trans only.written)⟩
    · have none_ : t.at? [name] = none := by
        rw [only.frame name hmeta hfile]
        rfl
      cases none_.symm.trans hat
  refine ⟨fun name e hat => (alone name e hat).imp_right fun ⟨_, he⟩ => ⟨_, he⟩,
    fun name e hat => (alone name e hat).elim (fun hname => ⟨_, hname⟩) fun ⟨hname, _⟩ =>
      ⟨_, hname⟩,
    ?_⟩
  intro name content stored hat hload
  obtain rfl | ⟨-, he⟩ := alone name _ hat
  · cases hat.symm.trans run.intact.housed.at?_meta
  obtain rfl : content = .plain [1] := by simpa using he
  exact Except.ok.inj (hload.symm.trans (loads_blob run))

theorem untouched_flat
    (finds : Finds [] t ⟨BranchName.master, left.made.id⟩ left.made Staging.empty)
    (only : WritesOnly [] "file" [1] FileTree.empty t) {s : Status}
    (hreport : Status.report [] t = .ok s) : s.Untouched := by
  refine (Status.untouched_iff finds hreport).mpr ⟨rfl, fun name blob hblob => ?_⟩
  rw [left, made_manifest] at hblob
  split at hblob
  · rename_i hname
    exact ⟨.plain [1], hname ▸ only.written, Option.some.inj hblob⟩
  · cases hblob

end Apart

end LocalVcs
