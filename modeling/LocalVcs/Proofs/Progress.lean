/-
# What can be done next

An intact repository is not stuck: a working file can be staged, what is staged can be committed, a
branch can be made, and the current branch can be taken back to an earlier commit.  So runs go on
from every state, and there are runs in which two branches go apart.

* `Command.add_run`, `Command.rm_run`, `Command.commit_run`, `Command.branch_run`,
  `Command.reset_run`: these commands succeed.
* `Run.commit_file`: in a run with nothing staged, a file can be written and committed.
-/
import LocalVcs.Proofs.Commands.Switching
import LocalVcs.Proofs.Runs

namespace LocalVcs

open FileTree Layout

variable {root : Path} {t t' : FileTree} {plain : Prop} {b : Branch} {head : Commit}

/-! ## 1. Staging and committing -/

namespace Command

open LocalVcs.Action

theorem trackable_stageContent (head : Commit) {s : Staging} {name : String} (content : Bytes)
    (hname : Trackable root name) (additions : ∀ n ∈ s.additions, Trackable root n)
    (removals : ∀ n ∈ s.removals, Trackable root n) :
    (∀ n ∈ (stageContent head s name content).additions, Trackable root n) ∧
      ∀ n ∈ (stageContent head s name content).removals, Trackable root n := by
  refine ⟨fun n hn => ?_, fun n hn => removals n (mem_stageContent.2 n hn)⟩
  rcases mem_stageContent.1 n hn with rfl | hn
  · exact hname
  · exact additions n hn

/-- A working file that is there is staged with what it holds, as the current commit has it or
not. -/
theorem add_of_present {name : String} (present : Worktree.contains root t name = true)
    {content : Bytes} (hread : Worktree.read root t name = .ok content) {staging : Staging}
    (hstaging : Staging.load root t = .ok staging) (printed : String) :
    add root name ⟨t, printed⟩ = (headCommit root >>= fun head =>
      discard ((stageContent head staging name content).save root)) ⟨t, printed⟩ := by
  have contained : Action.read (fun t => .ok (Worktree.contains root t name)) ⟨t, printed⟩ =
      (.ok true, ⟨t, printed⟩) := read_run (by rw [present])
  unfold add
  dsimp only
  rw [bind_run_ok contained, if_pos rfl, bind_run_ok (read_run hstaging),
    bind_run_ok (read_run hread)]

variable (plain) in
/-- What a working file holds can be staged. -/
theorem add_run_of_read (h : Intact root t) {name : String} (hname : Trackable root name)
    (present : Worktree.contains root t name = true) {content : Bytes}
    (hread : Worktree.read root t name = .ok content) {staging : Staging}
    (hstaging : Staging.load root t = .ok staging) (hcurrent : Branches.current root t = .ok b)
    (hhead : Commits.load root t b.tip = .ok head) (printed : String) :
    ∃ t', add root name ⟨t, printed⟩ = (.ok (), ⟨t', printed⟩) ∧
      Touches root [.index .addition, .index .removal] t t' ∧ Kept plain root t t' ∧
      Shows root t' (stageContent head staging name content) := by
  obtain ⟨-, shows_⟩ := Staging.load_spec h.housed h.index hstaging
  obtain ⟨additions, removals⟩ := shows_.trackable h.index
  obtain ⟨additions', removals'⟩ := trackable_stageContent head content hname additions removals
  obtain ⟨t', hrun, touch, index, shows'⟩ := Staging.save_run h.housed h.index additions' removals'
    (fun unchanged => by rw [stageContent_of_unchanged unchanged]; exact shows_) printed
  refine ⟨t', ?_, touch, Kept.of_touches h touch index (by simp) (by simp) (by simp), shows'⟩
  rw [add_of_present present hread hstaging, bind_run_ok (headCommit_run hcurrent hhead),
    discard_run, hrun]
  rfl

variable (plain) in
/-- **A working file can be staged**, with the contents that it has. -/
theorem add_run (h : Intact root t) {name : String} (hname : Trackable root name) {content : Bytes}
    (hat : t.at? (name :: root) = some (.file (.plain content))) {staging : Staging}
    (hstaging : Staging.load root t = .ok staging) (hcurrent : Branches.current root t = .ok b)
    (hhead : Commits.load root t b.tip = .ok head) (printed : String) :
    ∃ t', add root name ⟨t, printed⟩ = (.ok (), ⟨t', printed⟩) ∧
      Touches root [.index .addition, .index .removal] t t' ∧ Kept plain root t t' ∧
      Shows root t' (stageContent head staging name content) :=
  add_run_of_read plain h hname ((Worktree.contains_iff h.housed hname).mpr ⟨_, hat⟩)
    (Worktree.read_eq h.housed hname hat) hstaging hcurrent hhead printed

variable (plain) in
/-- A tracked file is deleted, if it is there, and then staged for removal. -/
theorem rm_deletes (h : Intact root t) {name : String} {blob : ObjectId} {staging : Staging}
    (hstaging : Staging.load root t = .ok staging) (hcurrent : Branches.current root t = .ok b)
    (hhead : Commits.load root t b.tip = .ok head) (htracked : head.manifest[name]? = some blob)
    (printed : String) :
    ∃ content t₁ t', Blobs.load root t blob = .ok content ∧
      rm root name ⟨t, printed⟩ = (.ok (), ⟨t', printed⟩) ∧
      FilesGone root [name] t t₁ ∧ (∀ content, t₁.at? (name :: root) ≠ some (.file content)) ∧
      Touches root [.index .addition, .index .removal] t₁ t' ∧ Kept plain root t t' ∧
      Shows root t' ((staging.unstageAddition name).remove name content) := by
  obtain ⟨-, shows_⟩ := Staging.load_spec h.housed h.index hstaging
  obtain ⟨additions, removals⟩ := shows_.trackable h.index
  have sound := (h.of_load hhead).2.2.1
  have hname := sound.names name (NameMap.mem_iff_exists_getElem?.mpr ⟨blob, htracked⟩)
  obtain ⟨content, hload, -⟩ := h.loadBlob_of_tracked sound htracked
  obtain ⟨t₁, hrun₁, gone, noFile⟩ := Worktree.remove_gone h.housed hname printed
  have kept₁ : Kept plain root t t₁ :=
    Kept.of_work h (gone.touches (List.forall_mem_singleton.mpr hname.notMeta))
  obtain ⟨t', hrun, touch, index, shows'⟩ := Staging.save_run kept₁.intact.housed kept₁.intact.index
    (s := (staging.unstageAddition name).remove name content)
    (fun n hn => additions n (Std.ExtTreeMap.mem_erase.mp (Std.ExtTreeMap.mem_erase.mp hn).2).2)
    (fun n hn => by
      rcases Std.ExtTreeMap.mem_insert.mp hn with heq | hn
      · exact Std.LawfulEqCmp.eq_of_compare heq ▸ hname
      · exact removals n hn)
    (by simp [Staging.remove]) printed
  refine ⟨content, t₁, t', hload, ?_, gone, noFile, touch,
    kept₁.trans (Kept.of_touches kept₁.intact touch index (by simp) (by simp) (by simp)), shows'⟩
  have tracked : head.tracked? name = some blob := htracked
  have hblob : loadBlob root blob ⟨t, printed⟩ = (.ok content, ⟨t, printed⟩) := undamaged_run hload
  unfold rm
  rw [bind_run_ok (read_run hstaging), bind_run_ok (headCommit_run hcurrent hhead), tracked]
  dsimp only
  rw [bind_run_ok hblob, bind_run_ok hrun₁, discard_run, hrun]
  rfl

variable (plain) in
/-- **A tracked file can be staged for removal**, with the contents that the current commit has. -/
theorem rm_run (h : Intact root t) {name : String} {blob : ObjectId} {staging : Staging}
    (hstaging : Staging.load root t = .ok staging) (hcurrent : Branches.current root t = .ok b)
    (hhead : Commits.load root t b.tip = .ok head) (htracked : head.manifest[name]? = some blob)
    (printed : String) :
    ∃ content t', Blobs.load root t blob = .ok content ∧
      rm root name ⟨t, printed⟩ = (.ok (), ⟨t', printed⟩) ∧
      Touches root [.work, .index .addition, .index .removal] t t' ∧ Kept plain root t t' ∧
      Shows root t' ((staging.unstageAddition name).remove name content) := by
  obtain ⟨content, t₁, t', hload, hrun, gone, -, touch, kept, shows'⟩ :=
    rm_deletes plain h hstaging hcurrent hhead htracked printed
  have hname := (h.of_load hhead).2.2.1.names name
    (NameMap.mem_iff_exists_getElem?.mpr ⟨blob, htracked⟩)
  have touch₁ := gone.touches (List.forall_mem_singleton.mpr hname.notMeta)
  exact ⟨content, t', hload, hrun, (touch₁.mono (by simp)).trans (touch.mono (by simp)), kept,
    shows'⟩

/-- **A new file can be taken back from the staging area.** -/
theorem rm_unstages (h : Intact root t) {name : String} {staging : Staging}
    (hstaging : Staging.load root t = .ok staging) (hcurrent : Branches.current root t = .ok b)
    (hhead : Commits.load root t b.tip = .ok head) (new : head.manifest[name]? = none)
    (added : name ∈ staging.additions) (printed : String) :
    ∃ t', rm root name ⟨t, printed⟩ = (.ok (), ⟨t', printed⟩) ∧
      Touches root [.index .addition, .index .removal] t t' ∧ SoundIndex root t' ∧
      Shows root t' (staging.unstageAddition name) := by
  obtain ⟨-, shows_⟩ := Staging.load_spec h.housed h.index hstaging
  obtain ⟨additions, removals⟩ := shows_.trackable h.index
  obtain ⟨t', hrun, touch, index, shows'⟩ := Staging.save_run h.housed h.index
    (s := staging.unstageAddition name)
    (fun n hn => additions n (Std.ExtTreeMap.mem_erase.mp hn).2) removals
    (fun unchanged => by rw [Staging.unstageAddition_of_unchanged unchanged]; exact shows_) printed
  refine ⟨t', ?_, touch, index, shows'⟩
  have untracked : head.tracked? name = none := new
  unfold rm
  rw [bind_run_ok (read_run hstaging), bind_run_ok (headCommit_run hcurrent hhead), untracked]
  dsimp only
  rw [if_pos added, discard_run, hrun]
  rfl

/-- **What is staged can be committed.** -/
theorem commit_run (h : Intact root t) {staging : Staging}
    (hstaging : Staging.load root t = .ok staging) (some_ : staging.isEmpty = false)
    (hcurrent : Branches.current root t = .ok b) (hhead : Commits.load root t b.tip = .ok head)
    {message : String} (hmessage : message ≠ "") {date : Time.Moment} (tellable : date.Tellable)
    (printed : String) :
    ∃ t', commit root date message ⟨t, printed⟩ = (.ok (), ⟨t', printed⟩) ∧
      Recorded root b ⟨message, date, head, staging, none⟩ t t' := by
  obtain ⟨-, shows_⟩ := Staging.load_spec h.housed h.index hstaging
  obtain ⟨additions, -⟩ := shows_.trackable h.index
  have fits : Recording.Fits root t ⟨message, date, head, staging, none⟩ :=
    ⟨(h.of_load hhead).2.1, by simp, additions, tellable, fun _ => shows_⟩
  obtain ⟨t', hrun, recorded⟩ := record_run h fits hcurrent hhead hmessage (by simp [some_]) printed
  exact ⟨t', by rw [commit, bind_run_ok (read_run hstaging)]; exact hrun, recorded⟩

/-! ## 2. Handling branches -/

/-- Where a name has no file yet, a branch of this name is saved. -/
theorem branch_eq_save (h : Intact root t) {name : BranchName}
    (tell : (Branches.route root name).CanTell) (absent : t.at? (branchPath root name) = none)
    (hcurrent : Branches.current root t = .ok b) (printed : String) :
    branch root name.text ⟨t, printed⟩ = Branches.save root ⟨name, b.tip⟩ ⟨t, printed⟩ := by
  have missing : Branches.contains root t name = false := by
    have straight := Branches.straight_route h.housed.free tell
    rw [Branches.contains, Bool.eq_false_iff]
    intro hfile
    obtain ⟨content, hat⟩ := straight.isFile_iff.mp hfile
    rw [Branches.path_route, absent] at hat
    cases hat
  have contains_run : Action.read (fun t => .ok (Branches.contains root t name)) ⟨t, printed⟩ =
      (.ok false, ⟨t, printed⟩) := read_run (by rw [missing])
  unfold branch
  rw [BranchName.ofText?_text]
  dsimp only
  rw [bind_run_ok contains_run, if_neg Bool.false_ne_true, bind_run_ok (read_run hcurrent)]

variable (plain) in
/-- **A branch can be made** where its file can stand. -/
theorem branch_run (h : Intact root t) {name : BranchName}
    (tell : (Branches.route root name).CanTell)
    (can : t.CanPlace (branchPath root name)) (absent : t.at? (branchPath root name) = none)
    (hcurrent : Branches.current root t = .ok b) (printed : String) :
    ∃ t', branch root name.text ⟨t, printed⟩ = (.ok (), ⟨t', printed⟩) ∧
      Touches root [.branches] t t' ∧ Kept plain root t t' ∧ Moved root name b.tip t t' := by
  obtain ⟨t', hrun, touch, placed⟩ := Branches.save_run h.housed tell can b.tip printed
  have moved : Moved root name b.tip t t' := fun p _ => placed p
  have grows := (touch.sameObjects (by simp)).grows
  obtain ⟨c, stored, tip, -⟩ := h.load_of_current hcurrent
  have refs : SoundRefs root t' := by
    rw [tip] at moved
    exact moved.soundRefs h.refs grows (stored.mono grows) tell
  refine ⟨t', ?_, touch, Kept.of_branches h touch refs moved.filesStay, moved⟩
  rw [branch_eq_save h tell absent hcurrent, hrun]

/-- **A branch can be made with its directories**, where nothing is in their way; what is current
stays current. -/
theorem branch_makes (h : Intact root t) {name : BranchName}
    (tell : (Branches.route root name).CanTell)
    (valid : ∀ s ∈ segmentsOf name.text, Route.goes s = true → ValidName s)
    (room : ∀ p, branchesPath root <:+ p → p <:+ branchPath root name → p ≠ branchPath root name →
      t.at? p = none ∨ t.at? p = some .dir)
    (absent : t.at? (branchPath root name) = none) (hcurrent : Branches.current root t = .ok b)
    (printed : String) :
    ∃ t', branch root name.text ⟨t, printed⟩ = (.ok (), ⟨t', printed⟩) ∧
      Touches root [.branches] t t' ∧ Intact root t' ∧
      Branches.get? root t' name = .ok (some ⟨name, b.tip⟩) ∧ Branches.current root t' = .ok b := by
  obtain ⟨t', hrun, touch, hat, files⟩ :=
    Branches.save_makes h.housed tell valid room (by simp [absent]) b.tip printed
  rw [← branch_eq_save h tell absent hcurrent] at hrun
  have kept : Kept False root t t' := by
    have keeps : (branch root name.text).Leads ⟨t, printed⟩ fun _ w' => Kept False root t w'.tree :=
      branch_keeps h name.text printed
    rwa [Leads, hrun] at keeps
  have h' := kept.intact
  refine ⟨t', hrun, touch, h', Branches.get?_of_file h'.housed h'.refs tell hat, ?_⟩
  obtain ⟨c, -, -, -, hfile⟩ := h.of_current hcurrent
  obtain ⟨hhead, hget⟩ := Branches.of_current hcurrent
  have other : branchPath root b.name ≠ branchPath root name := fun heq => by
    simp [← heq, hfile] at absent
  have same := (files _ _ other).mpr hfile
  rw [← hfile] at same
  refine Branches.current_of_head (Eq.trans ?_ hhead) (Eq.trans ?_ hget)
  · exact Branches.head_congr h.housed.free h'.housed.free (touch.at?_eq Area.holds_head (by simp))
  · exact Branches.get?_congr h.housed.free h'.housed.free same

variable (plain) in
/-- **The current branch can be taken back to a stored commit.** -/
theorem reset_run (h : Intact root t) {target : Commit} (stored : CommitStored root t target)
    (hcurrent : Branches.current root t = .ok b) (hhead : Commits.load root t b.tip = .ok head)
    (clear : ¬Switch.Blocked root t head target) (printed : String) :
    ∃ t', reset root target.id.text ⟨t, printed⟩ = (.ok (), ⟨t', printed⟩) ∧
      Kept plain root t t' ∧ Switched root head target t t' ∧
      TipMoved root b.name target.id t t' := by
  have keeps : (reset root target.id.text).Leads ⟨t, printed⟩ fun _ w' =>
      Kept plain root t w'.tree :=
    reset_keeps h target.id.text printed
  obtain ⟨t', hrun, switched, moved⟩ :=
    Switches.run_of_clear (reset_leads h hcurrent hhead (h.find?_of_stored stored) printed) clear
  rw [Leads, hrun] at keeps
  exact ⟨t', hrun, keeps, switched, moved⟩

end Command

/-! ## 3. Runs go on -/

/-- One file staged with its contents. -/
def Staging.single (name : String) (content : Bytes) : Staging :=
  ⟨(∅ : NameMap Bytes).insert name content, ∅, false⟩

/-- From `t` to `t'` a file has been written right in the working directory, and nothing else has
changed there. -/
structure WritesOnly (root : Path) (name : String) (content : Bytes) (t t' : FileTree) : Prop where
  written : t'.at? (name :: root) = some (.file (.plain content))
  frame : ∀ other : FileName, other ≠ metaName → other ≠ name →
    t'.at? (other :: root) = t.at? (other :: root)

theorem WritesOnly.textsIn {name : String} {content : Bytes}
    (only : WritesOnly root name content t t')
    (texts : TextsIn root t) : TextsIn root t' := fun file e hat => by
  by_cases inside : file = metaName
  · exact ⟨_, inside⟩
  · by_cases same : file = name
    · exact ⟨_, same⟩
    · exact texts file e ((only.frame file inside same).symm.trans hat)

theorem Switched.textsIn {current target : Commit} (switched : Switched root current target t t')
    (texts : TextsIn root t) : TextsIn root t' := fun file e hat => by
  cases file with
  | text name => exact ⟨name, rfl⟩
  | other bytes noText => exact texts _ e (switched.at?_other.symm.trans hat)

namespace Run

variable {allowed : Request → Prop} {past : List Recording} {settings : Settings}
  {date : Time.Moment} {request : Request}

/-- A run goes on with a request that succeeds and records nothing. -/
theorem next (run : Run root allowed Settings.Dates past t) (here : settings.root = root)
    (hdate : Request.commitMoment settings = .ok date) (hallowed : allowed request)
    (hrun : request.run root settings.zone date ⟨t, ""⟩ = (.ok (), ⟨t', ""⟩))
    (dated : request.Dated date) (none_ : ∀ date rec, ¬Records root t date request rec) :
    Run root allowed Settings.Dates past t' := by
  have hperform : request.perform settings false ⟨t, ""⟩ = (.ok (), ⟨t', ""⟩) := by
    rw [Request.perform_run run.intact here hdate, hrun]
  exact Run.other run here (.of_moment hdate dated) hallowed hperform fun date rec _ _ =>
    none_ date rec

/-- A run goes on with a request that records a commit. -/
theorem next_recording (run : Run root allowed Settings.Dates past t) (here : settings.root = root)
    (hdate : Request.commitMoment settings = .ok date) (hallowed : allowed request)
    (dated : request.Dated date) {rec : Recording} (hrec : Records root t date request rec)
    (hrun : request.run root settings.zone date ⟨t, ""⟩ = (.ok (), ⟨t', ""⟩)) :
    Run root allowed Settings.Dates (rec :: past) t' := by
  have hperform : request.perform settings false ⟨t, ""⟩ = (.ok (), ⟨t', ""⟩) := by
    rw [Request.perform_run run.intact here hdate, hrun]
  exact Run.recording run here (.of_moment hdate dated) hallowed hperform hdate hrec

/-- The user can write a working file. -/
theorem exists_edit (run : Run root allowed Settings.Dates past t) {name : String}
    (hname : Trackable root name)
    (content : Bytes) :
    ∃ t', UserEdit root t t' ∧ Run root allowed Settings.Dates past t' ∧ Touches root [.work] t t' ∧
      WritesOnly root name content t t' := by
  have h := run.intact
  obtain ⟨t', -, edit, hat⟩ := Worktree.write_run h.housed hname content ""
  have byUser : UserEdit root t t' := .of_workEdit edit hname.notMeta h.housed.free
  exact ⟨t', byUser, run.edit byUser, edit.touches hname.notMeta, hat,
    fun other _ away => edit.frame _ (not_suffix_of_name_ne away)⟩

/-- From any state of a run in which nothing is staged a file can be written and staged. -/
theorem stage_later (run : Run root allowed Settings.Dates past t) (here : settings.root = root)
    (hdate : Request.commitMoment settings = .ok date) (nothing : Shows root t Staging.empty)
    (hcurrent : Branches.current root t = .ok b) (hhead : Commits.load root t b.tip = .ok head)
    {name : String} (hname : Trackable root name) {content : Bytes}
    (new : head.manifest[name]? ≠ some (Object.blobId content)) {kind : Request → Prop}
    (hadd : kind (.add name)) :
    ∃ t', Later root kind Settings.Dates past t past t' ∧ Grows root t t' ∧
      Staging.load root t' = .ok (Staging.single name content) ∧
      Branches.current root t' = .ok b ∧ Commits.load root t' b.tip = .ok head ∧
      (∀ p, branchesPath root <:+ p → t'.at? p = t.at? p) ∧
      WritesOnly root name content t t' := by
  -- the file is written
  have h := run.intact
  obtain ⟨t₁, -, written, hat⟩ := Worktree.write_run h.housed hname content ""
  have edit : UserEdit root t t₁ := .of_workEdit written hname.notMeta h.housed.free
  have touch₁ := written.touches hname.notMeta
  have h₁ := (run.edit edit).intact
  have grows₁ := (touch₁.sameObjects (by simp)).grows
  have hcurrent₁ : Branches.current root t₁ = .ok b := by
    rw [Branches.current_congr h.housed h₁.housed touch₁ (by simp) (by simp), hcurrent]
  have hhead₁ := h.load_of_grows h₁ grows₁ hhead
  have hstaging₁ := Staging.load_of_shows h₁.housed h₁.index (nothing.of_touches touch₁ (by simp))
  -- it is staged
  obtain ⟨t₂, hrun₂, touch₂, kept₂, shows₂⟩ :=
    Command.add_run False h₁ hname hat hstaging₁ hcurrent₁ hhead₁ ""
  have hadded : (Request.add name).perform settings false ⟨t₁, ""⟩ = (.ok (), ⟨t₂, ""⟩) :=
    (Request.perform_run h₁ here hdate false "").trans hrun₂
  have h₂ := kept₂.intact
  have grows₂ := grows₁.trans kept₂.objects.grows
  refine ⟨t₂, (Later.here.edit edit).other here (.of_moment hdate trivial) hadd hadded
    (by rintro _ _ _ _ ⟨⟩), grows₂, ?_, ?_,
    h.load_of_grows h₂ grows₂ hhead, fun p below => ?_, ?_, fun other notMeta away => ?_⟩
  · have tracked : head.tracked? name ≠ some (Object.blobId content) := new
    rw [Staging.load_of_shows h₂.housed h₂.index shows₂, Command.stageContent, if_neg tracked]
    simp [Staging.single, Staging.add, Staging.unstageRemoval, Staging.empty]
  · rw [Branches.current_congr h₁.housed h₂.housed touch₂ (by simp) (by simp), hcurrent₁]
  · rw [touch₂.at?_below_branches (by simp) below, touch₁.at?_below_branches (by simp) below]
  · rw [touch₂.at?_outside (by simp) (not_suffix_of_ne hname.notMeta), hat]
  · rw [touch₂.at?_outside (by simp) (not_suffix_of_name_ne notMeta),
      written.frame _ (not_suffix_of_name_ne away)]

/-- A file can be written and staged in any state of a run in which nothing is staged. -/
theorem stage_file (run : Run root allowed Settings.Dates past t) (here : settings.root = root)
    (hdate : Request.commitMoment settings = .ok date) (nothing : Shows root t Staging.empty)
    (hcurrent : Branches.current root t = .ok b) (hhead : Commits.load root t b.tip = .ok head)
    {name : String} (hname : Trackable root name) {content : Bytes}
    (new : head.manifest[name]? ≠ some (Object.blobId content)) (hadd : allowed (.add name)) :
    ∃ t', Run root allowed Settings.Dates past t' ∧ Grows root t t' ∧
      Staging.load root t' = .ok (Staging.single name content) ∧
      Branches.current root t' = .ok b ∧ Commits.load root t' b.tip = .ok head ∧
      (∀ p, branchesPath root <:+ p → t'.at? p = t.at? p) ∧
      WritesOnly root name content t t' := by
  obtain ⟨t', later, staged⟩ := run.stage_later here hdate nothing hcurrent hhead hname new hadd
  exact ⟨t', run.later (fun _ => id) later, staged⟩

/-- **A file can be written and committed in any state of a run** in which nothing is staged. -/
theorem commit_file (run : Run root allowed Settings.Dates past t) (here : settings.root = root)
    (hdate : Request.commitMoment settings = .ok date) (tellable : date.Tellable)
    (nothing : Shows root t Staging.empty)
    (hcurrent : Branches.current root t = .ok b) (hhead : Commits.load root t b.tip = .ok head)
    {name : String} (hname : Trackable root name) {content : Bytes}
    (new : head.manifest[name]? ≠ some (Object.blobId content)) {message : String}
    (hmessage : message ≠ "") (hadd : allowed (.add name)) (hcommit : allowed (.commit message))
    {r : Recording} (hr : r = ⟨message, date, head, Staging.single name content, none⟩) :
    ∃ t', Run root allowed Settings.Dates (r :: past) t' ∧ Grows root t t' ∧
    Shows root t' Staging.empty ∧
      Moved root b.name r.made.id t t' ∧ Branches.current root t' = .ok ⟨b.name, r.made.id⟩ ∧
      WritesOnly root name content t t' := by
  obtain ⟨t₁, run₁, grows₁, staged, hcurrent₁, hhead₁, same, only⟩ :=
    run.stage_file here hdate nothing hcurrent hhead hname new hadd
  have h₁ := run₁.intact
  obtain ⟨t₂, hrun, recorded⟩ := Command.commit_run h₁ staged
    (by simp [Staging.single, Staging.isEmpty]) hcurrent₁ hhead₁ hmessage tellable ""
  have hcommitted : (Request.commit message).run root settings.zone date ⟨t₁, ""⟩ =
      (.ok (), ⟨t₂, ""⟩) := hrun
  subst hr
  have records : Records root t₁ date (.commit message)
      ⟨message, date, head, Staging.single name content, none⟩ := .commit hcurrent₁ hhead₁ staged
  refine ⟨t₂, run₁.next_recording here hdate hcommit tellable records hcommitted,
    grows₁.trans recorded.objects.grows, recorded.index, fun p below => ?_,
    recorded.current h₁ hcurrent₁, ?_, fun other notMeta away => ?_⟩
  · rw [recorded.moved p below, same p below]
  · rw [recorded.touch.at?_outside (by simp) (not_suffix_of_ne hname.notMeta), only.written]
  · rw [recorded.touch.at?_outside (by simp) (not_suffix_of_name_ne notMeta),
      only.frame _ notMeta away]

end Run

/-! ## 4. Two branches that have gone apart -/

namespace Apart

/-- In each of them one file has been committed behind the first commit, with different contents. -/
def recording (message : String) (content : Bytes) : Recording :=
  ⟨message, Time.Moment.epoch, Commit.initial, Staging.single "file" content, none⟩

/-- The commit of the branch that is left. -/
def left : Recording := recording "left" [1]

/-- The commit of the current branch. -/
def right : Recording := recording "right" [2]

/-- The branch that is left. -/
def other : BranchName := ⟨"other", by decide⟩

/-- The top of the file tree, and the start of 1970. -/
def settings : Settings := ⟨[], none, Time.Moment.epoch, fun _ => 0⟩

theorem here : settings.root = [] := rfl

theorem plain_other : PlainName other.text :=
  .of_checks (by decide) (by decide)

theorem trackable_file : Trackable [] "file" := by
  have name : Worktree.fileName? "file" = some "file" := by decide
  exact .of_names name (by decide) (by decide)

theorem branchPath_other : branchPath [] other = .text "other" :: branchesPath [] := by
  rw [plain_other.branchPath_eq, segmentsOf_of_noSlash (by decide)]
  rfl

theorem distinct : branchPath [] other ≠ branchPath [] BranchName.master := by
  rw [branchPath_other, branchPath_master]
  simp

theorem startable : Startable [] FileTree.empty where
  free p target _ := by
    cases p with
    | nil => simp
    | cons name parent =>
      simp only [at?, Listings.standing?, FileTree.empty, Std.ExtTreeMap.getElem?_insert]
      split <;> simp
  standing := rfl
  fresh := by decide
  room := by decide

/-- A file is committed behind the first commit. -/
theorem commit_run {past : List Recording} {t : FileTree} {b : Branch} (message : String)
    (content : Bytes) (hmessage : message ≠ "") (run : Run [] Request.Plain Settings.Dates past t)
    (nothing : Shows [] t Staging.empty) (stored : CommitStored [] t Commit.initial)
    (hcurrent : Branches.current [] t = .ok b) (htip : b.tip = Commit.initial.id) :
    ∃ t', Run [] Request.Plain Settings.Dates (recording message content :: past) t' ∧
      Grows [] t t' ∧
      Shows [] t' Staging.empty ∧ Moved [] b.name (recording message content).made.id t t' ∧
      Branches.current [] t' = .ok ⟨b.name, (recording message content).made.id⟩ ∧
      WritesOnly [] "file" content t t' :=
  run.commit_file here rfl (by decide) nothing hcurrent
    (run.intact.load_iff.mpr ⟨htip.symm, stored⟩)
    trackable_file (by simp [Commit.initial]) hmessage trivial trivial rfl

theorem made_manifest (message : String) (content : Bytes) (n : String) :
    (recording message content).made.manifest[n]? =
      if n = "file" then some (Object.blobId content) else none := by
  have held : (recording message content).made.manifest[n]? =
      if n ∈ (Staging.single "file" content).removals then none
      else ((Staging.single "file" content).additions[n]?.map Object.blobId).or
        Commit.initial.manifest[n]? := Staging.getElem?_nextManifest _ _ n
  rw [held]
  simp only [Staging.single, Commit.initial, Std.ExtTreeMap.not_mem_empty, if_false,
    Std.ExtTreeMap.getElem?_insert, Std.ExtTreeMap.getElem?_empty, Std.compare_eq_iff_eq,
    eq_comm (a := "file")]
  split <;> rfl

theorem file_mem (message : String) (content : Bytes) :
    "file" ∈ (recording message content).made.manifest :=
  NameMap.mem_iff_exists_getElem?.mpr
    ⟨Object.blobId content, by rw [made_manifest, if_pos rfl]⟩

/-- The other branch is made where the current one stands. -/
theorem branch_run {past : List Recording} {t : FileTree} {tip : ObjectId}
    (run : Run [] Request.Plain Settings.Dates past t)
    (hcurrent : Branches.current [] t = .ok ⟨BranchName.master, tip⟩)
    (absent : t.at? (branchPath [] other) = none) :
    ∃ t', Run [] Request.Plain Settings.Dates past t' ∧ Touches [] [.branches] t t' ∧
    Kept True [] t t' ∧
      Branches.get? [] t' other = .ok (some ⟨other, tip⟩) ∧
      Branches.current [] t' = .ok ⟨BranchName.master, tip⟩ := by
  have can : t.CanPlace (branchPath [] other) := by
    rw [branchPath_other] at absent ⊢
    exact ⟨by decide, run.intact.housed.at?_branches, by simp [absent]⟩
  have tell : (Branches.route [] other).CanTell := by
    rw [Branches.route_eq]
    exact tell_of_names (by decide) (by decide)
  obtain ⟨t', hrun, touch, kept, moved⟩ :=
    Command.branch_run True run.intact tell can absent hcurrent ""
  have hrun' : (Request.branch other.text).run [] settings.zone settings.now ⟨t, ""⟩ =
      (.ok (), ⟨t', ""⟩) := hrun
  have hallowed : Request.Plain (.branch other.text) := plain_other
  exact ⟨t', run.next here rfl hallowed hrun' trivial (by rintro _ _ ⟨⟩), touch, kept,
    moved.get?_self kept.intact.housed kept.intact.refs tell,
    moved.current_of_other run.intact kept.intact (touch.at?_eq Area.holds_head (by simp)) hcurrent
      distinct.symm⟩

/-- The current branch is taken back to the first commit, and its files are gone. -/
theorem reset_run {past : List Recording} {t : FileTree} {tip : ObjectId}
    (run : Run [] Request.Plain Settings.Dates past t) (stored : CommitStored [] t Commit.initial)
    (hcurrent : Branches.current [] t = .ok ⟨BranchName.master, tip⟩) :
    ∃ t', Run [] Request.Plain Settings.Dates past t' ∧ Kept True [] t t' ∧
    Shows [] t' Staging.empty ∧
      Branches.get? [] t' other = Branches.get? [] t other ∧
      Branches.current [] t' = .ok ⟨BranchName.master, Commit.initial.id⟩ ∧
      (∀ c, Commits.load [] t' tip = .ok c → ∀ name ∈ c.manifest, ∀ content,
        t'.at? [name] ≠ some (.file content)) ∧ (TextsIn [] t → TextsIn [] t') := by
  obtain ⟨head, -, -, hhead⟩ := run.intact.load_of_current hcurrent
  obtain ⟨t', hrun, kept, switched, moved⟩ :=
    Command.reset_run True run.intact stored hcurrent hhead
    (by simp [Switch.Blocked, Commit.initial]) ""
  have hrun' : (Request.reset Commit.initial.id.text).run [] settings.zone settings.now ⟨t, ""⟩ =
      (.ok (), ⟨t', ""⟩) := hrun
  have hallowed : Request.Plain (.reset Commit.initial.id.text) := trivial
  refine ⟨t', run.next here rfl hallowed hrun' trivial (by rintro _ _ ⟨⟩), kept, switched.index,
    moved.moved.get?_eq run.intact.housed.free kept.intact.housed.free distinct,
    moved.moved.current run.intact kept.intact moved.head hcurrent, fun c hc name held => ?_,
    switched.textsIn⟩
  have same := run.intact.load_of_grows kept.intact kept.objects.grows hhead
  obtain rfl := Except.ok.inj (hc.symm.trans same)
  exact switched.gone name held (by simp [Commit.initial])

/-- Nothing but the repository's own directory is there from the start. -/
theorem textsIn_of_begun {t' : FileTree} (begun : Begun [] FileTree.empty t') : TextsIn [] t' :=
  fun name e hat => by
    by_cases inside : name = metaName
    · exact ⟨_, inside⟩
    · rw [begun.frame _ (not_suffix_of_name_ne inside)] at hat
      simp [at?, Listings.standing?, FileTree.empty] at hat

/-- The other branch is not there from the start. -/
theorem not_branched {t t' : FileTree} (begun : Begun [] t t') :
    t'.at? (branchPath [] other) = none := by
  cases hat : t'.at? (branchPath [] other) with
  | none => rfl
  | some e =>
    rcases begun.branches _ e (Branches.below_branchPath [] other) hat with hp | hp
    · simp [branchPath_other] at hp
    · exact absurd hp distinct

/-- There is a run in which the one file is committed for the first time. -/
theorem exists_begun : ∃ t, Run [] Request.Plain Settings.Dates [left] t ∧
    Shows [] t Staging.empty ∧
    CommitStored [] t Commit.initial ∧ t.at? (branchPath [] other) = none ∧
    Branches.current [] t = .ok ⟨BranchName.master, left.made.id⟩ ∧ TextsIn [] t := by
  obtain ⟨t₁, hrun₁, begun⟩ := Command.init_run startable ""
  have run₁ : Run [] Request.Plain Settings.Dates [] t₁ := Run.start startable.free hrun₁
  obtain ⟨t₂, run₂, grows₂, nothing₂, moved₂, hcurrent₂, only₂⟩ := commit_run "left" [1] (by decide)
    run₁ begun.index begun.stored begun.current rfl
  refine ⟨t₂, run₂, nothing₂, begun.stored.mono grows₂, ?_, hcurrent₂,
    only₂.textsIn (textsIn_of_begun begun)⟩
  rw [moved₂ _ (Branches.below_branchPath [] other), if_neg distinct, not_branched begun]

/-- There is a run in which the current branch is taken back behind the other one. -/
theorem exists_back : ∃ t, Run [] Request.Plain Settings.Dates [left] t ∧ Shows [] t Staging.empty ∧
    CommitStored [] t Commit.initial ∧
    Branches.current [] t = .ok ⟨BranchName.master, Commit.initial.id⟩ ∧
    Branches.get? [] t other = .ok (some ⟨other, left.made.id⟩) ∧
    (∀ c, Commits.load [] t left.made.id = .ok c → ∀ name ∈ c.manifest, ∀ content,
      t.at? [name] ≠ some (.file content)) ∧ TextsIn [] t := by
  obtain ⟨t₂, run₂, -, stored₂, absent, hcurrent₂, texts₂⟩ := exists_begun
  obtain ⟨t₃, run₃, touch₃, kept₃, found₃, hcurrent₃⟩ := branch_run run₂ hcurrent₂ absent
  have stored₃ := stored₂.mono kept₃.objects.grows
  obtain ⟨t₄, run₄, kept₄, nothing₄, found₄, hcurrent₄, gone, texts₄⟩ :=
    reset_run run₃ stored₃ hcurrent₃
  exact ⟨t₄, run₄, nothing₄, stored₃.mono kept₄.objects.grows, hcurrent₄, found₄.trans found₃, gone,
    texts₄ (texts₂.of_touches touch₃ (by simp))⟩

/-- There is a run in which both branches come about. -/
theorem exists_run : ∃ t, Run [] Request.Plain Settings.Dates [right, left] t ∧
    Shows [] t Staging.empty ∧
    Branches.current [] t = .ok ⟨BranchName.master, right.made.id⟩ ∧
    Branches.find? [] t other.text = .ok (some ⟨other, left.made.id⟩) ∧ TextsIn [] t := by
  obtain ⟨t, run, nothing, stored, hcurrent, found, -, texts⟩ := exists_back
  obtain ⟨t', run', -, nothing', moved, hcurrent', only⟩ := commit_run "right" [2] (by decide) run
    nothing stored hcurrent rfl
  refine ⟨t', run', nothing', hcurrent', ?_, only.textsIn texts⟩
  rw [Branches.find?_text, moved.get?_eq run.intact.housed.free run'.intact.housed.free distinct,
    found]

end Apart

end LocalVcs
