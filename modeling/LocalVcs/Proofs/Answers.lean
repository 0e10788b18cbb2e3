/-
# Every request is answered

A request is answered when it succeeds or fails with a user error; any other fault tells of damage.
In a state that a run comes to nothing is damaged: what is named is there, what is there can be
read, and any two branches have the first commit in common.  So every request is answered, but for
the two that bring in a new name, for which there may be no room in the file system.

* `Action.Answers`: this as a property of actions.
* `Intact.find?_run`, `Intact.all_run`, `Intact.splitPoint_run`: readings that never fail.
* `Command.rm_answers` and its like: one statement for each command.
* `Run.answers`: every state of a run.
-/
import LocalVcs.Proofs.Effects
import LocalVcs.Proofs.UntrackedFiles

namespace LocalVcs

open FileTree Layout History

variable {root : Path} {t : FileTree} {mine : Branch} {head : Commit}

/-! ## 1. Answers -/

/-- A result is an answer when it is a success or a user error. -/
def Answered {α : Type} (r : Except Fault α) : Prop :=
  (∃ x, r = .ok x) ∨ ∃ error, r = .error (.user error)

namespace Action

variable {α β : Type} {a : Action α} {f : α → Action β} {w w' : World}

/-- From a world an action comes to an answer. -/
def Answers (a : Action α) (w : World) : Prop := a.Leads w fun r _ => Answered r

theorem answers_of_run {x : α} (h : a w = (.ok x, w')) : a.Answers w :=
  Leads.of_run h (Or.inl ⟨x, rfl⟩)

theorem answers_fail {error : UserError} : (fail error : Action α).Answers w :=
  leads_fail (Or.inr ⟨error, rfl⟩)

theorem answers_fail_bind {error : UserError} : ((fail error : Action α) >>= f).Answers w :=
  leads_fail_bind (Or.inr ⟨error, rfl⟩)

theorem answers_print {text : String} : (print text).Answers w := leads_print (Or.inl ⟨(), rfl⟩)

theorem answers_bind_of_run {x : α} (h : a w = (.ok x, w')) (ok : (f x).Answers w') :
    (a >>= f).Answers w := leads_bind_of_run h ok

theorem Answers.bind (h : a.Answers w) (ok : ∀ x w', (f x).Answers w') : (a >>= f).Answers w := by
  refine Leads.bind h (fun x w' _ => ok x w') fun fault w' answered => ?_
  rcases answered with ⟨x, hx⟩ | ⟨error, herror⟩
  · cases hx
  · exact Or.inr ⟨error, by rw [Except.error.inj herror]⟩

end Action

theorem Switches.answered {target : Commit} {printed : String} {moves : FileTree → Prop}
    {r : Except Fault Unit} {w' : World} (h : Switches root head target t printed moves r w') :
    Answered r := by
  obtain ⟨-, rfl, -⟩ | ⟨-, -, rfl, -⟩ := h
  · exact Or.inr ⟨_, rfl⟩
  · exact Or.inl ⟨_, rfl⟩

/-! ## 2. Readings that never fail -/

namespace Intact

variable (h : Intact root t)

include h

/-- **Looking for a commit never fails.** -/
theorem find?_run (text : String) : ∃ found, Commits.find? root t text = .ok found := by
  simp only [Commits.find?, bind, Except.bind]
  split
  · rename_i id _
    obtain ⟨found, hget⟩ := h.get?_run id
    rw [hget]
    cases found with
    | none => exact h.abbreviation_run text _
    | some c => exact ⟨some c, rfl⟩
  · exact h.abbreviation_run text _

/-- **Looking for a branch never fails**, and one that is found stands for a stored commit. -/
theorem findBranch_cases (text : String) : Branches.find? root t text = .ok none ∨
    ∃ b c, Branches.find? root t text = .ok (some b) ∧ Commits.load root t b.tip = .ok c := by
  unfold Branches.find?
  split
  · rename_i name _
    rcases Branches.get?_cases h.housed h.refs name with ⟨c, stored, hget, -, -⟩ | ⟨hnone, -⟩
    · exact Or.inr ⟨_, c, hget, h.load_commit stored⟩
    · exact Or.inl hnone
  · exact Or.inl rfl

/-- **All commits that are listed can be loaded.** -/
theorem all_run : ∃ cs, Commits.all root t = .ok cs :=
  mapM_succeeds fun _ hid => h.load_of_mem_ids hid

theorem withMessage_run (message : String) :
    ∃ cs, Commits.withMessage root t message = .ok cs := by
  obtain ⟨cs, hall⟩ := h.all_run
  exact ⟨_, by rw [Commits.withMessage, hall]; rfl⟩

/-- **Two commits always share history.** -/
theorem splitPoint_run {other : Commit} (hhead : Commits.load root t head.id = .ok head)
    (hother : Commits.load root t other.id = .ok other) :
    ∃ split, splitPoint (Commits.load root t) (Commits.walkBound t) head.id other.id =
      .ok (some split.id) ∧ Commits.load root t split.id = .ok split := by
  obtain ⟨_, _, meet, _, splits⟩ := h.splitOnLine hhead hother
  have hmeet := splits.split
  obtain ⟨id, split, hload, heq⟩ := exists_load_of_splitPoint hmeet
  rw [← heq] at hmeet
  exact ⟨split, hmeet, h.load_commit (h.of_load hload).2.1⟩

end Intact

/-! ## 3. Commands -/

namespace Command

open LocalVcs.Action

variable (h : Intact root t) (hcurrent : Branches.current root t = .ok mine)
  (hload : Commits.load root t mine.tip = .ok head)

section Resolving

variable {f : Commit → Action Unit} {g : Branch → Action Unit}

include h

theorem resolveCommit_answers (text printed : String)
    (found : ∀ c, Commits.find? root t text = .ok (some c) → (f c).Answers ⟨t, printed⟩) :
    (resolveCommit root text >>= f).Answers ⟨t, printed⟩ := by
  obtain ⟨result, hfind⟩ := h.find?_run text
  cases result with
  | none =>
    rw [resolveCommit, bind_assoc]
    exact answers_bind_of_run (undamaged_run hfind) answers_fail_bind
  | some c => exact answers_bind_of_run (resolveCommit_run hfind) (found c hfind)

theorem resolveBranch_answers (missing : UserError) (text printed : String)
    (found : ∀ b c, Branches.find? root t text = .ok (some b) →
      Commits.load root t b.tip = .ok c → (g b).Answers ⟨t, printed⟩) :
    (resolveBranch root missing text >>= g).Answers ⟨t, printed⟩ := by
  rcases h.findBranch_cases text with hnone | ⟨b, c, hfind, htip⟩
  · rw [resolveBranch, bind_assoc]
    exact answers_bind_of_run (read_run hnone) answers_fail_bind
  · exact answers_bind_of_run (resolveBranch_run hfind) (found b c hfind htip)

end Resolving

section Staging

include h hcurrent hload

theorem commit_answers {date : Time.Moment} (tellable : date.Tellable)
    (message printed : String) : (commit root date message).Answers ⟨t, printed⟩ := by
  obtain ⟨staging, hstaging, -⟩ := Staging.load_eq h.housed h.index
  by_cases refused : message = "" ∨ staging.isEmpty = true
  · obtain ⟨reason, hrecord⟩ := record_refused root date
      (refused.imp_right fun nothing => ⟨nothing, rfl⟩)
    refine answers_bind_of_run (read_run hstaging) ?_
    rw [hrecord]
    exact answers_fail
  · obtain ⟨titled, some_⟩ := not_or.mp refused
    obtain ⟨t', hrun, -⟩ :=
      commit_run h hstaging (by simpa using some_) hcurrent hload titled tellable printed
    exact answers_of_run hrun

theorem rm_answers (file printed : String) : (rm root file).Answers ⟨t, printed⟩ := by
  obtain ⟨staging, hstaging, -⟩ := Staging.load_eq h.housed h.index
  cases htracked : head.manifest[file]? with
  | some blob =>
    obtain ⟨_, t', -, hrun, -⟩ := rm_run False h hstaging hcurrent hload htracked printed
    exact answers_of_run hrun
  | none =>
    by_cases added : file ∈ staging.additions
    · obtain ⟨t', hrun, -⟩ := rm_unstages h hstaging hcurrent hload htracked added printed
      exact answers_of_run hrun
    · exact Leads.of_run (rm_refuses ⟨h, hcurrent, hload, hstaging⟩ htracked added printed)
        (Or.inr ⟨_, rfl⟩)

end Staging

section Reporting

include h hcurrent hload

theorem log_answers (zone : Time.Zone) (printed : String) :
    (log root zone).Answers ⟨t, printed⟩ := by
  obtain ⟨cs, hchain, -⟩ := h.chain_run hload
  have hchain : Commits.chain root t head.id = .ok cs := by rwa [(h.of_load hload).1]
  exact answers_bind_of_run (headCommit_run hcurrent hload)
    (answers_bind_of_run (undamaged_run hchain) answers_print)

omit hcurrent hload in
theorem globalLog_answers (zone : Time.Zone) (printed : String) :
    (globalLog root zone).Answers ⟨t, printed⟩ := by
  obtain ⟨cs, hall⟩ := h.all_run
  exact answers_bind_of_run (undamaged_run hall) answers_print

omit hcurrent hload in
theorem find_answers (message printed : String) : (find root message).Answers ⟨t, printed⟩ := by
  obtain ⟨cs, hfound⟩ := h.withMessage_run message
  refine answers_bind_of_run (undamaged_run hfound) ?_
  dsimp only
  split
  · exact answers_fail_bind
  · exact answers_print

omit hload in
/-- The status is told, but for a working file that is listed and cannot be read. -/
theorem status_cases (printed : String) :
    ((status root).Answers ⟨t, printed⟩ ∧ ∀ name, ¬Worktree.Unread root t name) ∨
      ∃ name, Worktree.Unread root t name ∧
        status root ⟨t, printed⟩ = (.error (.refused (.readWorking name)), ⟨t, printed⟩) := by
  rw [status_eq]
  rcases Status.report_cases h hcurrent with ⟨⟨s, hreport⟩, all⟩ | ⟨name, unread, hreport⟩
  · exact Or.inl ⟨answers_bind_of_run (read_run hreport) answers_print, all⟩
  · exact Or.inr ⟨name, unread, bind_run_error (read_run hreport)⟩

end Reporting

section Restoring

include h

theorem restoreFile_answers {c : Commit} (stored : CommitStored root t c) (file printed : String) :
    (restoreFile root c file).Answers ⟨t, printed⟩ := by
  cases htracked : c.manifest[file]? with
  | none =>
    rw [restoreFile_untracked htracked]
    exact answers_fail
  | some blob =>
    obtain ⟨_, t', -, hrun, -⟩ := restoreFile_run h stored htracked printed
    exact answers_of_run hrun

theorem checkoutFileAt_answers (commit file printed : String) :
    (checkoutFileAt root commit file).Answers ⟨t, printed⟩ :=
  resolveCommit_answers h commit printed fun _ hfind =>
    restoreFile_answers h (h.of_find? hfind) file printed

include hcurrent hload

theorem checkoutFile_answers (file printed : String) :
    (checkoutFile root file).Answers ⟨t, printed⟩ :=
  answers_bind_of_run (headCommit_run hcurrent hload)
    (restoreFile_answers h (h.of_load hload).2.1 file printed)

theorem checkoutBranch_answers (text printed : String) :
    (checkoutBranch root text).Answers ⟨t, printed⟩ := by
  refine resolveBranch_answers h .noSuchBranch text printed fun theirs target hfind htarget => ?_
  by_cases same : theirs.name = mine.name
  · refine answers_bind_of_run (read_run (isCurrent_eq hcurrent theirs.name)) ?_
    rw [decide_eq_true same.symm, if_pos rfl]
    exact answers_fail_bind
  · have outcome := checkoutBranch_leads h hcurrent hload hfind same htarget printed
    rw [checkoutBranch, Leads, bind_run_ok (resolveBranch_run hfind)] at outcome
    exact outcome.answered

theorem reset_answers (text printed : String) : (reset root text).Answers ⟨t, printed⟩ := by
  refine resolveCommit_answers h text printed fun target hfind => ?_
  have outcome := reset_leads h hcurrent hload hfind printed
  rw [reset, Leads, bind_run_ok (resolveCommit_run hfind)] at outcome
  exact outcome.answered

end Restoring

section Branches

include h

theorem mergeTips_answers {text : String} {theirs : Branch} {other split : Commit}
    (m : ThreeWay root t text mine theirs head other split) {date : Time.Moment}
    (tellable : date.Tellable) (printed : String) :
    (mergeTips root date Staging.empty (mergeMessage mine theirs) split head other).Answers
      ⟨t, printed⟩ := by
  obtain ⟨working, -, outcome⟩ := mergeTips_run h m tellable printed
  split at outcome
  · exact Leads.of_run outcome (Or.inr ⟨_, rfl⟩)
  · obtain ⟨steps, t₁, t', hrun, -⟩ := outcome
    exact answers_of_run hrun

include hcurrent

theorem rmBranch_answers (text printed : String) : (rmBranch root text).Answers ⟨t, printed⟩ := by
  refine resolveBranch_answers h .branchNotFound text printed fun found _ hfind _ => ?_
  obtain ⟨name, rfl, hget⟩ := Branches.of_find? hfind
  by_cases same : name = mine.name
  · obtain rfl : found.name = name := (Branches.get?_eq_some_iff.mp hget).1
    refine answers_bind_of_run (read_run (isCurrent_eq hcurrent found.name)) ?_
    rw [decide_eq_true same.symm, if_pos rfl]
    exact answers_fail_bind
  · obtain ⟨t', hrun, -⟩ := rmBranch_run h.housed.sealed hcurrent hfind same printed
    rw [rmBranch, bind_run_ok (resolveBranch_run hfind)] at hrun
    exact answers_of_run hrun

include hload

/-- **A merge is answered**: two branches have the first commit in common, so they do share
history. -/
theorem merge_answers {date : Time.Moment} (tellable : date.Tellable) (text printed : String) :
    (merge root date text).Answers ⟨t, printed⟩ := by
  obtain ⟨staging, hstaging, unchanged, -⟩ := Staging.load_eq h.housed h.index
  unfold merge
  refine answers_bind_of_run (read_run hstaging) ?_
  dsimp only
  split
  · rename_i nothing
    refine resolveBranch_answers h .branchNotFound text printed fun theirs other hfind hother => ?_
    refine answers_bind_of_run (read_run hcurrent) ?_
    split
    · exact answers_fail_bind
    · refine answers_bind_of_run (loadCommit_run hload)
        (answers_bind_of_run (loadCommit_run hother) ?_)
      have hhead' := h.load_commit (h.of_load hload).2.1
      have hother' := h.load_commit (h.of_load hother).2.1
      obtain ⟨split, hmeet, hsplit⟩ := h.splitPoint_run hhead' hother'
      refine answers_bind_of_run (undamaged_run hmeet) ?_
      dsimp only
      split
      · exact answers_print
      · rename_i behind
        split
        · exact Answers.bind ((switchTo_leads h hstaging hcurrent hload hother printed).mono
            fun _ _ outcome => outcome.answered) fun _ _ => answers_print
        · rename_i ahead
          obtain rfl := Staging.eq_empty nothing unchanged
          have apart : ThreeWay root t text mine theirs head other split :=
            ⟨⟨_, hstaging, nothing⟩, hcurrent, hfind, hload, hother, hmeet, hsplit, ahead, behind⟩
          exact answers_bind_of_run (loadCommit_run hsplit)
            (mergeTips_answers h apart tellable printed)
  · exact answers_fail_bind

end Branches

end Command

/-! ## 4. Requests -/

/-- What a request comes to: it is answered, and where it is the status, all that is listed can be
read; or it is the status, and fails for a working file that is listed and cannot be read. -/
def Request.Outcome (root : Path) (t : FileTree) (request : Request) (r : Except Fault Unit) :
    Prop :=
  (Answered r ∧ (request = .status → ∀ name, ¬Worktree.Unread root t name)) ∨
    request = .status ∧ ∃ name, Worktree.Unread root t name ∧
      r = .error (.refused (.readWorking name))

/-- Whether a request brings in a name that is new to the repository. -/
def Request.BringsName : Request → Prop
  | .add _ | .branch _ => True
  | _ => False

namespace Request

open LocalVcs.Action Command

theorem run_answers (h : Intact root t) (hcurrent : Branches.current root t = .ok mine)
    (hload : Commits.load root t mine.tip = .ok head) {date : Time.Moment} {request : Request}
    (dated : request.Dated date) (known : ¬request.BringsName) (zone : Time.Zone)
    (printed : String) :
    (request.run root zone date).Leads ⟨t, printed⟩ fun r _ => request.Outcome root t r := by
  have answers : ∀ {a : Action Unit}, request ≠ .status → a.Answers ⟨t, printed⟩ →
      a.Leads ⟨t, printed⟩ fun r _ => request.Outcome root t r := fun other answered =>
    answered.mono fun _ _ h => Or.inl ⟨h, fun status => absurd status other⟩
  cases request with
  | add _ | branch _ => exact absurd trivial known
  | init => exact answers (by simp) (Leads.of_run (init_of_intact h printed) (Or.inr ⟨_, rfl⟩))
  | commit message =>
    exact answers (by simp) (commit_answers h hcurrent hload dated message printed)
  | rm file => exact answers (by simp) (rm_answers h hcurrent hload file printed)
  | log => exact answers (by simp) (log_answers h hcurrent hload zone printed)
  | globalLog => exact answers (by simp) (globalLog_answers h zone printed)
  | find message => exact answers (by simp) (find_answers h message printed)
  | status =>
    rcases status_cases h hcurrent printed with ⟨answered, all⟩ | ⟨name, unread, hrun⟩
    · exact answered.mono fun _ _ h => Or.inl ⟨h, fun _ => all⟩
    · exact Leads.of_run hrun (Or.inr ⟨rfl, name, unread, rfl⟩)
  | checkout target file =>
    refine answers (by simp) ?_
    rcases target with _ | target <;> rcases file with _ | file
    · exact answers_fail
    · exact checkoutFile_answers h hcurrent hload file printed
    · exact checkoutBranch_answers h hcurrent hload target printed
    · exact checkoutFileAt_answers h target file printed
  | rmBranch name => exact answers (by simp) (rmBranch_answers h hcurrent name printed)
  | reset target => exact answers (by simp) (reset_answers h hcurrent hload target printed)
  | merge name => exact answers (by simp) (merge_answers h hcurrent hload dated name printed)

end Request

/-- **Every request is answered**, in every state of a run in which branches are named plainly: it
succeeds or fails with a user error, unless it brings in a name.  The status alone reads all working
files that are listed, and fails for one that cannot be read, which is all that it can fail for. -/
theorem Run.answers {past : List Recording} (run : Run root Request.Plain Settings.Dates past t)
    {settings : Settings} (here : settings.root = root) {date : Time.Moment}
    (hdate : Request.commitMoment settings = .ok date) {request : Request}
    (dated : request.Dated date) (known : ¬request.BringsName) (guarded : Bool) (printed : String) :
    (request.perform settings guarded).Leads ⟨t, printed⟩ fun r _ => request.Outcome root t r := by
  have h := run.intact
  obtain ⟨mine, -, hcurrent, -⟩ :=
    HeadStands.current_eq h.housed h.refs (run.headStands fun _ => id)
  obtain ⟨head, -, -, hload⟩ := h.load_of_current hcurrent
  exact Request.leads_perform h here hdate guarded
    (Request.run_answers h hcurrent hload dated known settings.zone printed)

/-- Merging two branches that have gone apart, and the status before that. -/
theorem Apart.answers_apart : ∃ t,
    Run [] Request.Plain Settings.Dates [Apart.right, Apart.left] t ∧
    ((Request.merge Apart.other.text).perform Apart.settings false).Answers ⟨t, ""⟩ ∧
    (Request.status.perform Apart.settings false).Answers ⟨t, ""⟩ := by
  obtain ⟨t, run, -, -, -, texts⟩ := Apart.exists_run
  have merging : ¬(Request.merge Apart.other.text).BringsName := not_false
  have reporting : ¬Request.status.BringsName := not_false
  have dated : (Request.merge Apart.other.text).Dated Apart.settings.now :=
    (by decide : Time.Moment.epoch.Tellable)
  have undated : Request.status.Dated Apart.settings.now := trivial
  refine ⟨t, run, (run.answers Apart.here rfl dated merging false "").mono ?_,
    (run.answers Apart.here rfl undated reporting false "").mono ?_⟩
  · rintro r w' (⟨answered, -⟩ | ⟨status, -⟩)
    · exact answered
    · cases status
  · rintro r w' (⟨answered, -⟩ | ⟨-, name, unread, -⟩)
    · exact answered
    · exact absurd unread (Worktree.not_unread_of_room run.intact.housed texts (by decide) name)

/-- A name that is no text. -/
def Apart.unspelled : FileName := .other [0xFF] (by decide)

/-- The status is not answered where a file has such a name: it is listed as what is shown of the
name, and nothing stands there. -/
theorem Apart.status_not_answered : ∃ t, Run [] Request.Plain Settings.Dates [] t ∧
    (Request.status.perform Apart.settings false).Leads ⟨t, ""⟩ fun r _ => ¬Answered r := by
  obtain ⟨t, hrun, begun⟩ := Command.init_run Apart.startable ""
  have run : Run [] Request.Plain Settings.Dates [] t := Run.start Apart.startable.free hrun
  have nothing : ∀ name : FileName, name ≠ metaName → t.at? [name] = none := fun name other => by
    rw [begun.frame _ (not_suffix_of_name_ne other)]
    rfl
  have can : t.CanPlace [Apart.unspelled] :=
    ⟨by decide, at?_nil t, by simp [nothing Apart.unspelled (by decide)]⟩
  obtain ⟨t', hplace⟩ : ∃ t', t.place? [Apart.unspelled] (.file (.plain [1])) = some t' :=
    ⟨_, dif_pos can⟩
  have placed := at?_place? hplace
  have edit : UserEdit [] t t' := by
    refine ⟨fun p inside => ?_, run.intact.housed.free.of_place? hplace (by simp)⟩
    rw [placed, if_neg]
    rintro rfl
    cases inside.eq_of_length rfl
  have run' := run.edit edit
  have listed : Worktree.Listed [] t' Apart.unspelled.shown :=
    ⟨by decide, Apart.unspelled, .plain [1], rfl, by rw [placed, if_pos rfl]⟩
  have unread := Worktree.unread_of_listed run'.intact.housed listed fun content => by
    rw [placed, if_neg (by decide), nothing _ (by decide)]
    simp
  obtain ⟨mine, -, hcurrent, -⟩ :=
    HeadStands.current_eq run'.intact.housed run'.intact.refs (run'.headStands fun _ => id)
  obtain ⟨head, -, -, hload⟩ := run'.intact.load_of_current hcurrent
  have reporting : ¬Request.status.BringsName := not_false
  have undated : Request.status.Dated Apart.settings.now := trivial
  refine ⟨t', run', Request.leads_perform run'.intact Apart.here rfl false
    ((Request.run_answers run'.intact hcurrent hload undated reporting _ "").mono ?_)⟩
  rintro r w' (⟨-, all⟩ | ⟨-, name, -, rfl⟩)
  · exact absurd unread (all rfl _)
  · rintro (⟨_, ⟨⟩⟩ | ⟨_, ⟨⟩⟩)

/-- A file cannot be taken out of a commit that was made where the clock is set to a zone that
cannot be told. -/
theorem Apart.not_answered_untold : ∃ t,
    Run [] Request.Plain (fun _ _ => True) [Apart.untold] t ∧ CollisionFree [Apart.untold] ∧
    ∃ damage, (Request.checkout (some Apart.untold.made.id.text) (some "file")).perform
      Apart.settings false ⟨t, ""⟩ = (.error (.damaged damage), ⟨t, ""⟩) := by
  obtain ⟨t, run, clear, stored⟩ := Apart.exists_untold
  obtain ⟨damage, damaged⟩ := Apart.get?_untold clear stored
  exact ⟨t, run, Apart.collisionFree_untold, damage,
    Command.checkoutFileAt_of_damaged damaged "file" ""⟩

end LocalVcs
