/-
# What a request does

A request that is carried out in an intact repository is refused and changes nothing, or it goes
through; making a branch is the only thing that can stop half way, and leaves no more behind than
directories.  `Effect` says once for each request what going through means: what is written, what is
staged, and where branches and `HEAD` come to point.  What every request keeps follows by cases.

* `Finds`: what a command finds before it begins.
* `Effect`: what it has done.
* `Command.merge_effect` and its like: one statement for each command.
* `Request.run_of_no_current`: how little a request does where no branch is current.
* `Run.performs`: this for every state that a run comes to, with the state that follows.
-/
import LocalVcs.Proofs.CurrentBranch

namespace LocalVcs

open FileTree Layout

/-! ## 1. Before and after -/

/-- What commands find in an intact repository: the current branch, its tip, and what is staged. -/
structure Finds (root : Path) (t : FileTree) (mine : Branch) (head : Commit) (staging : Staging) :
    Prop where
  intact : Intact root t
  current : Branches.current root t = .ok mine
  load : Commits.load root t mine.tip = .ok head
  staging : Staging.load root t = .ok staging

/-- Whether a request does nothing but report. -/
def Request.Reports : Request → Prop
  | .log | .globalLog | .find _ | .status => True
  | _ => False

/-- A text names another branch than the current one, which stands for a commit. -/
structure NamesOther (root : Path) (t : FileTree) (text : String) (mine theirs : Branch)
    (other : Commit) : Prop where
  found : Branches.find? root t text = .ok (some theirs)
  distinct : theirs.name ≠ mine.name
  load : Commits.load root t theirs.tip = .ok other

section

variable (root : Path) (t : FileTree) (mine : Branch) (head : Commit) (staging : Staging)
  (date : Time.Moment)

/-- What a request has done to the file tree `t`, with its result and the tree that it leaves. -/
inductive Effect : Request → Except Fault Unit → FileTree → Prop
  | refused {request : Request} {fault : Fault} : Effect request (.error fault) t
  | reported {request : Request} : request.Reports → Effect request (.ok ()) t
  /-- A working file has been staged. -/
  | staged {file : String} {content : Bytes} {t' : FileTree} :
      Worktree.contains root t file = true → Worktree.read root t file = .ok content →
      Touches root [.index .addition, .index .removal] t t' →
      Shows root t' (Command.stageContent head staging file content) →
      Effect (.add file) (.ok ()) t'
  /-- A tracked file has been deleted and staged for removal. -/
  | dropped {file : String} {blob : ObjectId} {content : Bytes} {t' : FileTree} :
      head.manifest[file]? = some blob → Blobs.load root t blob = .ok content →
      Touches root [.work, .index .addition, .index .removal] t t' →
      Shows root t' ((staging.unstageAddition file).remove file content) →
      Effect (.rm file) (.ok ()) t'
  /-- A new file is no longer staged. -/
  | unstaged {file : String} {t' : FileTree} :
      file ∉ head.manifest → file ∈ staging.additions →
      Touches root [.index .addition, .index .removal] t t' →
      Shows root t' (staging.unstageAddition file) → Effect (.rm file) (.ok ()) t'
  | committed {message : String} {t' : FileTree} :
      message ≠ "" → staging.isEmpty = false →
      Recorded root mine ⟨message, date, head, staging, none⟩ t t' →
      Effect (.commit message) (.ok ()) t'
  /-- A file has been taken out of a commit. -/
  | restored {target : Option String} {file : String} {c : Commit} {blob : ObjectId}
      {content : Bytes} {t' : FileTree} :
      CommitStored root t c → c.manifest[file]? = some blob →
      Blobs.load root t blob = .ok content → Trackable root file → WorkEdit root file t t' →
      t'.at? (file :: root) = some (.file (.plain content)) →
      Effect (.checkout target (some file)) (.ok ()) t'
  /-- Another branch has been checked out. -/
  | switched {text : String} {theirs : Branch} {target : Commit} {t' : FileTree} :
      NamesOther root t text mine theirs target → Switched root head target t t' →
      HeadMoved root theirs.name t t' → Effect (.checkout (some text) none) (.ok ()) t'
  /-- The current branch has been taken to a commit. -/
  | reset {text : String} {target : Commit} {t' : FileTree} :
      Commits.find? root t text = .ok (some target) → Switched root head target t t' →
      TipMoved root mine.name target.id t t' → Effect (.reset text) (.ok ()) t'
  /-- A branch has been made where there was none. -/
  | branched {name : BranchName} {t' : FileTree} :
      Branches.get? root t name = .ok none → (Branches.route root name).CanTell →
      Touches root [.branches] t t' → Repointed root name (some mine.tip) t t' →
      Effect (.branch name.text) (.ok ()) t'
  /-- A branch could not be made. -/
  | halted {text : String} {fault : Fault} {t' : FileTree} :
      Touches root [.branches] t t' → SameFiles root t t' → Effect (.branch text) (.error fault) t'
  /-- A branch that is not current has been removed. -/
  | removed {text : String} {name : BranchName} {b : Branch} {t' : FileTree} :
      name.text = text → Branches.get? root t name = .ok (some b) → name ≠ mine.name →
      Touches root [.branches] t t' → Repointed root name none t t' →
      Effect (.rmBranch text) (.ok ()) t'
  /-- The branch to be merged is behind the current one. -/
  | behind {text : String} {theirs : Branch} {other : Commit} :
      TwoTips root t text mine theirs head other other.id → Effect (.merge text) (.ok ()) t
  /-- The branch to be merged is ahead of the current one, and has been gone over to. -/
  | forwarded {text : String} {theirs : Branch} {other : Commit} {t' : FileTree} :
      TwoTips root t text mine theirs head other head.id → head.id ≠ other.id →
      Switched root head other t t' → HeadMoved root theirs.name t t' →
      Effect (.merge text) (.ok ()) t'
  /-- Two branches that have gone apart have been merged. -/
  | merged {text : String} {theirs : Branch} {other split : Commit} {steps : List MergeStep}
      {t₁ t' : FileTree} :
      ThreeWay root t text mine theirs head other split →
      Merged root date mine theirs head other split steps t t₁ t' → Effect (.merge text) (.ok ()) t'

end

variable {root : Path} {t : FileTree} {mine : Branch} {head : Commit} {staging : Staging}
  {date : Time.Moment}

/-! ## 2. Staging and committing -/

namespace Command

open LocalVcs.Action

section

variable (finds : Finds root t mine head staging)

include finds

/-- Where a file cannot be tracked, staging it fails and changes nothing. -/
theorem add_stops {file : String} (untrackable : ¬Trackable root file)
    (present : Worktree.contains root t file = true) {content : Bytes}
    (hread : Worktree.read root t file = .ok content) (printed : String) :
    add root file ⟨t, printed⟩ =
      (.error (.refused (.stage file (stagedPlace .addition))), ⟨t, printed⟩) := by
  have h := finds.intact
  obtain ⟨-, shows_⟩ := Staging.load_spec h.housed h.index finds.staging
  -- what the current commit tracks can be tracked, so these contents are new to it
  have new : head.tracked? file ≠ some (Object.blobId content) := fun held =>
    untrackable ((h.of_load finds.load).2.2.1.names file
      (NameMap.mem_iff_exists_getElem?.mpr ⟨_, held⟩))
  have hstop := Staging.save_stops h.housed h.index shows_ content (fileName?_of_contains present)
    untrackable printed
  rw [add_of_present present hread finds.staging,
    bind_run_ok (headCommit_run finds.current finds.load), discard_run, stageContent, if_neg new,
    hstop]
  rfl

/-- Where a file is neither tracked nor staged, there is no reason to remove it. -/
theorem rm_refuses {file : String} (new : head.manifest[file]? = none)
    (notAdded : file ∉ staging.additions) (printed : String) :
    rm root file ⟨t, printed⟩ = (.error (.user .noReasonToRemove), ⟨t, printed⟩) := by
  have untracked : head.tracked? file = none := new
  unfold rm
  rw [bind_run_ok (read_run finds.staging), bind_run_ok (headCommit_run finds.current finds.load),
    untracked]
  dsimp only
  rw [if_neg notAdded]
  rfl

theorem add_effect (file printed : String) : (add root file).Leads ⟨t, printed⟩ fun r w' =>
    Effect root t mine head staging date (.add file) r w'.tree := by
  have h := finds.intact
  cases present : Worktree.contains root t file with
  | false =>
    unfold add
    refine leads_read_bind_ok (by rw [present]) ?_
    exact leads_fail_bind .refused
  | true =>
    cases hread : Worktree.read root t file with
    | error fault =>
      unfold add
      refine leads_read_bind_ok (by rw [present]) (leads_read_bind_ok finds.staging ?_)
      exact leads_read_bind (fun content hcontent => by simp [hread] at hcontent)
        fun _ _ => .refused
    | ok content =>
      by_cases trackable : Trackable root file
      · obtain ⟨t', hrun, touch, -, shows'⟩ := add_run_of_read False h trackable present hread
          finds.staging finds.current finds.load printed
        exact Leads.of_run hrun (.staged present hread touch shows')
      · exact Leads.of_run (add_stops finds trackable present hread printed) .refused

theorem rm_effect (file printed : String) : (rm root file).Leads ⟨t, printed⟩ fun r w' =>
    Effect root t mine head staging date (.rm file) r w'.tree := by
  have h := finds.intact
  cases htracked : head.manifest[file]? with
  | some blob =>
    obtain ⟨content, t', hload, hrun, touch, -, shows'⟩ :=
      rm_run False h finds.staging finds.current finds.load htracked printed
    exact Leads.of_run hrun (.dropped htracked hload touch shows')
  | none =>
    have notHeld : file ∉ head.manifest := fun held => by
      obtain ⟨blob, hblob⟩ := NameMap.mem_iff_exists_getElem?.mp held
      simp [htracked] at hblob
    by_cases added : file ∈ staging.additions
    · obtain ⟨t', hrun, touch, -, shows'⟩ :=
        rm_unstages h finds.staging finds.current finds.load htracked added printed
      exact Leads.of_run hrun (.unstaged notHeld added touch shows')
    · exact Leads.of_run (rm_refuses finds htracked added printed) .refused

theorem commit_effect (tellable : date.Tellable) (message printed : String) :
    (commit root date message).Leads ⟨t, printed⟩ fun r w' =>
      Effect root t mine head staging date (.commit message) r w'.tree := by
  refine leads_read_bind_ok finds.staging ?_
  by_cases refused : message = "" ∨ staging.isEmpty = true
  · obtain ⟨reason, hrecord⟩ := record_refused root date
      (refused.imp_right fun nothing => ⟨nothing, rfl⟩)
    rw [hrecord]
    exact leads_fail .refused
  · obtain ⟨titled, some_⟩ := not_or.mp refused
    have nothing : staging.isEmpty = false := by simpa using some_
    obtain ⟨t', hrun, recorded⟩ :=
      commit_run finds.intact finds.staging nothing finds.current finds.load titled tellable printed
    rw [commit, bind_run_ok (read_run finds.staging)] at hrun
    exact Leads.of_run hrun (.committed titled nothing recorded)

omit finds in
/-- Where a commit succeeds, a branch is current, and the commit has been recorded on it. -/
theorem of_commit_ok (h : Intact root t) (tellable : date.Tellable)
    {message printed : String} {w' : World}
    (hrun : commit root date message ⟨t, printed⟩ = (.ok (), w')) :
    ∃ mine current staging, Finds root t mine current staging ∧
      Recorded root mine ⟨message, date, current, staging, none⟩ t w'.tree := by
  obtain ⟨staging, hstaging, -⟩ := Staging.load_eq h.housed h.index
  obtain ⟨-, shows_⟩ := Staging.load_spec h.housed h.index hstaging
  obtain ⟨additions, -⟩ := shows_.trackable h.index
  rw [commit, bind_run_ok (read_run hstaging)] at hrun
  have leads : (record root date staging message none).Leads ⟨t, printed⟩ _ :=
    record_leads h (by simp) additions tellable (fun _ => shows_) printed
  rw [Leads, hrun] at leads
  obtain ⟨-, fault, hfault⟩ | ⟨mine, current, hcurrent, hload, -, -, recorded⟩ := leads
  · cases hfault
  · exact ⟨mine, current, staging, ⟨h, hcurrent, hload, hstaging⟩, recorded⟩

/-! ## 3. Taking out snapshots -/

omit finds in
theorem restoreFile_effect (h : Intact root t) {c : Commit} (stored : CommitStored root t c)
    (target : Option String) (file printed : String) :
    (restoreFile root c file).Leads ⟨t, printed⟩ fun r w' =>
      Effect root t mine head staging date (.checkout target (some file)) r w'.tree := by
  cases htracked : c.manifest[file]? with
  | none =>
    rw [restoreFile_untracked htracked]
    exact leads_fail .refused
  | some blob =>
    obtain ⟨content, t', hload, hrun, edit, hat⟩ := restoreFile_run h stored htracked printed
    have trackable := (h.stores.sound stored).1.names file
      (NameMap.mem_iff_exists_getElem?.mpr ⟨blob, htracked⟩)
    exact Leads.of_run hrun (.restored stored htracked hload trackable edit hat)

theorem checkoutFile_effect (file printed : String) :
    (checkoutFile root file).Leads ⟨t, printed⟩ fun r w' =>
      Effect root t mine head staging date (.checkout none (some file)) r w'.tree :=
  leads_bind_of_run (headCommit_run finds.current finds.load) (restoreFile_effect finds.intact
    (finds.intact.of_load finds.load).2.1 none file printed)

theorem checkoutFileAt_effect (target file printed : String) :
    (checkoutFileAt root target file).Leads ⟨t, printed⟩ fun r w' =>
      Effect root t mine head staging date (.checkout (some target) (some file)) r w'.tree :=
  leads_resolveCommit_bind (fun _ hfind => restoreFile_effect finds.intact
    (finds.intact.of_find? hfind) (some target) file printed) fun _ => .refused

omit finds in
/-- Going over to a snapshot is refused or goes through. -/
theorem effect_of_switches {target : Commit} {P : FileTree → Prop} {request : Request}
    {printed : String} {r : Except Fault Unit} {w' : World}
    (outcome : Switches root head target t printed P r w')
    (done : ∀ t', Switched root head target t t' → P t' →
      Effect root t mine head staging date request (.ok ()) t') :
    Effect root t mine head staging date request r w'.tree := by
  obtain ⟨-, rfl, rfl⟩ | ⟨-, t', rfl, rfl, switched, moved⟩ := outcome
  · exact .refused
  · exact done t' switched moved

omit finds in
/-- The tip of a branch that is found can be loaded. -/
theorem load_of_find? (h : Intact root t) {text : String} {b : Branch}
    (hfind : Branches.find? root t text = .ok (some b)) :
    ∃ c, Commits.load root t b.tip = .ok c := by
  obtain ⟨name, -, hget⟩ := Branches.of_find? hfind
  obtain ⟨c, stored, rfl, -⟩ := Branches.of_get? h.housed h.refs hget
  exact ⟨c, h.load_iff.mpr ⟨rfl, stored⟩⟩

theorem checkoutBranch_effect (text printed : String) :
    (checkoutBranch root text).Leads ⟨t, printed⟩ fun r w' =>
      Effect root t mine head staging date (.checkout (some text) none) r w'.tree := by
  refine leads_resolveBranch_bind (fun theirs hfind => ?_) fun _ => .refused
  by_cases same : theirs.name = mine.name
  · refine leads_read_bind_ok (isCurrent_eq finds.current theirs.name) ?_
    rw [decide_eq_true same.symm, if_pos rfl]
    exact leads_fail_bind .refused
  · obtain ⟨target, htarget⟩ := load_of_find? finds.intact hfind
    have outcome := checkoutBranch_leads finds.intact finds.current finds.load hfind same htarget
      printed
    rw [checkoutBranch, Leads, bind_run_ok (resolveBranch_run hfind)] at outcome
    exact effect_of_switches outcome fun _ => .switched ⟨hfind, same, htarget⟩

theorem reset_effect (text printed : String) :
    (Command.reset root text).Leads ⟨t, printed⟩ fun r w' =>
      Effect root t mine head staging date (.reset text) r w'.tree := by
  refine leads_resolveCommit_bind (fun target hfind => ?_) fun _ => .refused
  have outcome := reset_leads finds.intact finds.current finds.load hfind printed
  rw [Command.reset, Leads, bind_run_ok (resolveCommit_run hfind)] at outcome
  exact effect_of_switches outcome fun _ => .reset hfind

/-! ## 4. Handling branches -/

theorem branch_effect (text printed : String) : (branch root text).Leads ⟨t, printed⟩ fun r w' =>
    Effect root t mine head staging date (.branch text) r w'.tree := by
  unfold branch
  split
  · exact leads_fail .refused
  · rename_i name hname
    obtain rfl := Branches.ofText?_eq_some hname
    refine leads_read_bind_ok rfl ?_
    dsimp only
    split
    · exact leads_fail_bind .refused
    · rename_i absent
      refine leads_read_bind_ok finds.current ?_
      refine (Branches.save_repoints finds.intact.housed name mine.tip printed).mono ?_
      rintro r w' ⟨-, touch, ⟨⟨fault, rfl⟩, same⟩ | ⟨rfl, tell, repointed⟩⟩
      · exact .halted touch same
      · have none_ : Branches.get? root t name = .ok none := if_neg absent
        exact .branched none_ tell touch repointed

theorem rmBranch_effect (text printed : String) :
    (rmBranch root text).Leads ⟨t, printed⟩ fun r w' =>
      Effect root t mine head staging date (.rmBranch text) r w'.tree := by
  refine leads_resolveBranch_bind (fun found hfind => ?_) fun _ => .refused
  obtain ⟨name, rfl, hget⟩ := Branches.of_find? hfind
  by_cases same : name = mine.name
  · obtain rfl : found.name = name := (Branches.get?_eq_some_iff.mp hget).1
    refine leads_read_bind_ok (isCurrent_eq finds.current found.name) ?_
    rw [decide_eq_true same.symm, if_pos rfl]
    exact leads_fail_bind .refused
  · obtain ⟨t', hrun, touch, files⟩ :=
      rmBranch_run finds.intact.housed.sealed finds.current hfind same printed
    rw [rmBranch, bind_run_ok (resolveBranch_run hfind)] at hrun
    refine Leads.of_run hrun (.removed rfl hget same touch fun p content _ => ?_)
    rw [files p content]
    split
    · rename_i hp
      simp [hp]
    · rename_i hp
      simp [hp]

/-! ## 5. Merging -/

theorem merge_effect (tellable : date.Tellable) (text printed : String) :
    (merge root date text).Leads ⟨t, printed⟩ fun r w' =>
      Effect root t mine head staging date (.merge text) r w'.tree := by
  have h := finds.intact
  by_cases apart : ∃ mine theirs head other split,
      ThreeWay root t text mine theirs head other split
  · obtain ⟨mine', theirs, head', other, split, three⟩ := apart
    obtain rfl := Except.ok.inj (finds.current.symm.trans three.current)
    obtain rfl := Except.ok.inj (finds.load.symm.trans three.loadHead)
    obtain ⟨working, -, hrun⟩ := mergeTips_run h three tellable printed
    split at hrun
    · exact Leads.of_run ((merge_of_threeWay h three date printed).trans hrun) .refused
    · obtain ⟨steps, t₁, t', hrun, merged⟩ := hrun
      exact Leads.of_run ((merge_of_threeWay h three date printed).trans hrun)
        (.merged three merged)
  · have none_ : ∀ mine theirs head other split,
        ¬ThreeWay root t text mine theirs head other split :=
      fun mine theirs head other split three => apart ⟨mine, theirs, head, other, split, three⟩
    refine leads_merge_of_not_threeWay none_ (fun _ => .refused) ?_ ?_
    · intro mine' theirs head' other tips
      obtain rfl := Except.ok.inj (finds.current.symm.trans tips.current)
      obtain rfl := Except.ok.inj (finds.load.symm.trans tips.loadHead)
      exact .behind tips
    · intro staging' mine' theirs head' other hstaging tips ahead
      obtain rfl := Except.ok.inj (finds.current.symm.trans tips.current)
      obtain rfl := Except.ok.inj (finds.load.symm.trans tips.loadHead)
      exact (switchTo_leads h hstaging finds.current finds.load tips.loadOther printed).mono
        fun _ _ outcome => effect_of_switches outcome fun _ => .forwarded tips ahead

end

end Command

/-! ## 6. Requests -/

namespace Request

open LocalVcs.Action Command

/-- **What a request does.** -/
theorem run_effect (finds : Finds root t mine head staging) (request : Request)
    (dated : request.Dated date) (zone : Time.Zone) (printed : String) :
    (request.run root zone date).Leads ⟨t, printed⟩ fun r w' =>
      Effect root t mine head staging date request r w'.tree := by
  have reports : ∀ {a : Action Unit}, request.Reports →
      a.Leads ⟨t, printed⟩ (fun _ w' => w'.tree = t) →
      a.Leads ⟨t, printed⟩ fun r w' => Effect root t mine head staging date request r w'.tree := by
    refine fun reporting leads => leads.mono fun r w' same => ?_
    rw [same]
    cases r with
    | error fault => exact .refused
    | ok x => exact .reported reporting
  cases request with
  | init => exact Leads.of_run (init_of_intact finds.intact printed) .refused
  | add file => exact add_effect finds file printed
  | commit message => exact commit_effect finds dated message printed
  | rm file => exact rm_effect finds file printed
  | log => exact reports trivial (log_leads root zone _)
  | globalLog => exact reports trivial (globalLog_leads root zone _)
  | find message => exact reports trivial (find_leads root message _)
  | status => exact reports trivial (status_leads root _)
  | checkout target file =>
    rcases target with _ | target <;> rcases file with _ | file
    · exact leads_fail .refused
    · exact checkoutFile_effect finds file printed
    · exact checkoutBranch_effect finds target printed
    · exact checkoutFileAt_effect finds target file printed
  | branch name => exact branch_effect finds name printed
  | rmBranch name => exact rmBranch_effect finds name printed
  | reset target => exact reset_effect finds target printed
  | merge name => exact merge_effect finds dated name printed

/-- What carrying out a request does; a date that cannot be read is refused at once. -/
theorem perform_effect (finds : Finds root t mine head staging) {settings : Settings}
    (here : settings.root = root) (request : Request) (dates : settings.Dates request)
    (guarded : Bool) (printed : String) :
    (request.perform settings guarded).Leads ⟨t, printed⟩ fun r w' =>
      ∃ date, Effect root t mine head staging date request r w'.tree := by
  cases hdate : commitMoment settings with
  | error fault =>
    exact Leads.of_run (perform_run_error hdate guarded printed) ⟨settings.now, .refused⟩
  | ok date =>
    refine leads_perform finds.intact here hdate guarded ?_
    exact (run_effect finds request (dates date hdate) settings.zone printed).mono
      fun _ _ effect => ⟨date, effect⟩

/-! ## 7. Where no branch is current -/

theorem rmBranch_touches (h : Intact root t) (name printed : String) :
    (Command.rmBranch root name).Leads ⟨t, printed⟩ fun _ w' =>
      Touches root [.work, .branches] t w'.tree := by
  have same : Touches root [.work, .branches] t t := .refl root t
  refine leads_resolveBranch_bind (fun b hfind => ?_) fun _ => same
  obtain ⟨name, rfl, hget⟩ := Branches.of_find? hfind
  obtain ⟨c, -, rfl, tell, hat⟩ := Branches.of_get? h.housed h.refs hget
  refine leads_read_bind (fun isCurrent _ => ?_) fun _ _ => same
  dsimp only
  split
  · exact leads_fail_bind same
  · obtain ⟨t', hrun, touch, -⟩ := Branches.remove_run h.housed.sealed tell hat printed
    exact Leads.of_run hrun (touch.mono (by simp))

section

variable (none_ : ∀ b, Branches.current root t ≠ .ok b) {printed : String}

include none_

theorem headCommit_of_no_current {f : Commit → Action Unit} :
    (headCommit root >>= f).Leads ⟨t, printed⟩ fun _ w' =>
      Touches root [.work, .branches] t w'.tree :=
  leads_headCommit_bind (fun b _ hb _ => absurd hb (none_ b)) fun _ => .refl root t

theorem current_of_no_current {f : Branch → Action Unit} :
    (Action.read (Branches.current root) >>= f).Leads ⟨t, printed⟩ fun _ w' =>
      Touches root [.work, .branches] t w'.tree :=
  leads_read_bind (fun b hb => absurd hb (none_ b)) fun _ _ => .refl root t

theorem add_of_no_current (file : String) :
    (Command.add root file).Leads ⟨t, printed⟩ fun _ w' =>
      Touches root [.work, .branches] t w'.tree := by
  have same : Touches root [.work, .branches] t t := .refl root t
  refine leads_read_bind (fun present _ => ?_) fun _ _ => same
  dsimp only
  split
  · exact leads_read_bind (fun _ _ => leads_read_bind (fun _ _ => headCommit_of_no_current none_)
      fun _ _ => same) fun _ _ => same
  · exact leads_fail_bind same

theorem checkoutBranch_of_no_current (target : String) :
    (Command.checkoutBranch root target).Leads ⟨t, printed⟩ fun _ w' =>
      Touches root [.work, .branches] t w'.tree := by
  have same : Touches root [.work, .branches] t t := .refl root t
  refine leads_resolveBranch_bind (fun b _ => ?_) fun _ => same
  refine leads_read_bind (fun isCurrent _ => ?_) fun _ _ => same
  dsimp only
  split
  · exact leads_fail_bind same
  · exact leads_read_bind (fun _ _ => headCommit_of_no_current none_) fun _ _ => same

theorem branch_of_no_current (name : String) :
    (Command.branch root name).Leads ⟨t, printed⟩ fun _ w' =>
      Touches root [.work, .branches] t w'.tree := by
  have same : Touches root [.work, .branches] t t := .refl root t
  rw [Command.branch]
  split
  · exact leads_fail same
  · refine leads_read_bind (fun present _ => ?_) fun _ _ => same
    dsimp only
    split
    · exact leads_fail_bind same
    · exact current_of_no_current none_

end

/-- **Where no branch is current** no request gets far: a working file may be taken out of a commit
and a branch removed, and no more is touched. -/
theorem run_of_no_current (h : Intact root t) (none_ : ∀ b, Branches.current root t ≠ .ok b)
    (request : Request) (zone : Time.Zone) (printed : String) :
    (request.run root zone date).Leads ⟨t, printed⟩ fun _ w' =>
      Touches root [.work, .branches] t w'.tree := by
  have same : Touches root [.work, .branches] t t := .refl root t
  have reports : ∀ {a : Action Unit}, a.Leads ⟨t, printed⟩ (fun _ w' => w'.tree = t) →
      a.Leads ⟨t, printed⟩ fun _ w' => Touches root [.work, .branches] t w'.tree :=
    fun leads => leads.mono fun _ w' unchanged => unchanged ▸ same
  cases request with
  | init => exact Leads.of_run (init_of_intact h printed) same
  | add file => exact add_of_no_current none_ file
  | commit message =>
    refine leads_read_bind (fun staging _ => ?_) fun _ _ => same
    exact leads_record (fun _ => same) fun b _ _ _ hb _ => absurd hb (none_ b)
  | rm file =>
    exact leads_read_bind (fun _ _ => headCommit_of_no_current none_) fun _ _ => same
  | log => exact reports (log_leads root zone _)
  | globalLog => exact reports (globalLog_leads root zone _)
  | find message => exact reports (find_leads root message _)
  | status => exact reports (status_leads root _)
  | checkout target file =>
    rcases target with _ | target <;> rcases file with _ | file
    · exact leads_fail same
    · exact headCommit_of_no_current none_
    · exact checkoutBranch_of_no_current none_ target
    · refine leads_resolveCommit_bind (fun c hfind => ?_) fun _ => same
      exact (restoreFile_touches h (h.of_find? hfind) file printed).mono
        fun _ _ touch => touch.mono (by simp)
  | branch name => exact branch_of_no_current none_ name
  | rmBranch name => exact rmBranch_touches h name printed
  | reset target =>
    refine leads_resolveCommit_bind (fun _ _ => ?_) fun _ => same
    exact leads_read_bind (fun _ _ => current_of_no_current none_) fun _ _ => same
  | merge name =>
    exact leads_merge (fun _ => same) (fun mine _ _ _ tips => absurd tips.current (none_ mine))
      (fun _ mine _ _ _ _ tips => absurd tips.current (none_ mine))
      fun _ mine _ _ _ _ _ three => absurd three.current (none_ mine)

theorem perform_of_no_current (h : Intact root t) (none_ : ∀ b, Branches.current root t ≠ .ok b)
    {settings : Settings} (here : settings.root = root) (request : Request) (guarded : Bool)
    (printed : String) :
    (request.perform settings guarded).Leads ⟨t, printed⟩ fun _ w' =>
      Touches root [.work, .branches] t w'.tree := by
  cases hdate : commitMoment settings with
  | error fault =>
    exact Leads.of_run (perform_run_error hdate guarded printed) (Touches.refl root t)
  | ok date =>
    exact leads_perform h here hdate guarded (run_of_no_current h none_ request _ printed)

end Request

/-! ## 8. Runs -/

namespace Run

variable {past : List Recording}

/-- In every state of a run a branch is current, with a plain name. -/
theorem exists_finds (run : Run root Request.Plain Settings.Dates past t) :
    ∃ mine head staging, Finds root t mine head staging ∧ PlainName mine.name.text := by
  have h := run.intact
  obtain ⟨mine, -, hcurrent, plain, -⟩ :=
    HeadStands.current_eq h.housed h.refs (run.headStands fun _ => id)
  obtain ⟨head, -, -, hload⟩ := h.load_of_current hcurrent
  obtain ⟨staging, hstaging, -⟩ := Staging.load_eq h.housed h.index
  exact ⟨mine, head, staging, ⟨h, hcurrent, hload, hstaging⟩, plain⟩

/-- A run goes on with any request, whatever comes of it. -/
theorem performs {allowed : Request → Prop} (run : Run root allowed Settings.Dates past t)
    {settings : Settings} (here : settings.root = root) {request : Request}
    (dates : settings.Dates request) (hallowed : allowed request) {guarded : Bool}
    {printed : String} {r : Except Fault Unit} {w' : World}
    (hrun : request.perform settings guarded ⟨t, printed⟩ = (r, w')) :
    ∃ past', past ⊆ past' ∧ Run root allowed Settings.Dates past' w'.tree := by
  by_cases records : ∃ date rec, r = .ok () ∧ Request.commitMoment settings = .ok date ∧
      Records root t date request rec
  · obtain ⟨date, rec, rfl, hdate, hrec⟩ := records
    exact ⟨rec :: past, List.subset_cons_self _ _,
      Run.recording run here dates hallowed hrun hdate hrec⟩
  · refine ⟨past, List.Subset.refl _, Run.other run here dates hallowed hrun ?_⟩
    exact fun date rec hok hdate hrec => records ⟨date, rec, hok, hdate, hrec⟩

/-- What a request does in a state of a run. -/
theorem exists_effect (run : Run root Request.Plain Settings.Dates past t) {settings : Settings}
    (here : settings.root = root) {request : Request} (dates : settings.Dates request)
    {guarded : Bool} {printed : String} {r : Except Fault Unit} {w' : World}
    (hrun : request.perform settings guarded ⟨t, printed⟩ = (r, w')) :
    ∃ mine head staging date, Finds root t mine head staging ∧ PlainName mine.name.text ∧
      Effect root t mine head staging date request r w'.tree := by
  obtain ⟨mine, head, staging, finds, plain⟩ := run.exists_finds
  have effect := Request.perform_effect finds here request dates guarded printed
  rw [Action.Leads, hrun] at effect
  obtain ⟨date, effect⟩ := effect
  exact ⟨mine, head, staging, date, finds, plain, effect⟩

end Run

end LocalVcs
