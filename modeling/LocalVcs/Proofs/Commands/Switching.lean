/-
# The outcome of switching

Going over to a branch and resetting to a commit take the working tree to another snapshot in the
same way; then the one writes `HEAD`, and the other the file of the current branch.  Neither of
these can go wrong any more, so such a command is refused and has changed nothing, or goes through.

* `Switches`: the two outcomes.
* `Command.switchTo_leads`, `Command.checkoutBranch_leads`: going over to a branch.
* `Command.reset_leads`: resetting to a commit.
-/
import LocalVcs.Proofs.Commands.Keeping

namespace LocalVcs

open FileTree Layout

variable {root : Path} {t t' : FileTree} {text : String} {mine theirs : Branch}
  {current target : Commit}

/-- What a command leads to that takes the working tree from the snapshot of `current` to that of
`target` and then has moved what `moves` tells.  Where a file is in the way it fails, and leaves
everything as it is; else it succeeds. -/
def Switches (root : Path) (current target : Commit) (t : FileTree) (printed : String)
    (moves : FileTree → Prop) (r : Except Fault Unit) (w' : World) : Prop :=
  (Switch.Blocked root t current target ∧ r = .error (.user .untrackedFileInTheWay) ∧
      w' = ⟨t, printed⟩) ∨
    (¬Switch.Blocked root t current target ∧ ∃ t', r = .ok () ∧ w' = ⟨t', printed⟩ ∧
      Switched root current target t t' ∧ moves t')

/-- More can be told of what is moved where the switch succeeds. -/
theorem Switches.imp {printed : String} {moves moves' : FileTree → Prop} {r : Except Fault Unit}
    {w' : World} (h : Switches root current target t printed moves r w')
    (imp : ∀ t', w' = ⟨t', printed⟩ → Switched root current target t t' → moves t' → moves' t') :
    Switches root current target t printed moves' r w' :=
  h.imp_right fun ⟨clear, t', hok, hworld, switched, moved⟩ =>
    ⟨clear, t', hok, hworld, switched, imp t' hworld switched moved⟩

/-- Where no file is in the way the switch succeeds. -/
theorem Switches.run_of_clear {printed : String} {moves : FileTree → Prop} {a : Action Unit}
    (h : a.Leads ⟨t, printed⟩ (Switches root current target t printed moves))
    (clear : ¬Switch.Blocked root t current target) :
    ∃ t', a ⟨t, printed⟩ = (.ok (), ⟨t', printed⟩) ∧ Switched root current target t t' ∧
      moves t' := by
  rw [Action.Leads, Switches] at h
  obtain ⟨blocked, -⟩ | ⟨-, t', hok, hworld, switched, moved⟩ := h
  · exact absurd blocked clear
  · exact ⟨t', Prod.ext hok hworld, switched, moved⟩

/-- From `t` to `t'` `HEAD` has come to name a branch, and no branch has moved. -/
structure HeadMoved (root : Path) (name : BranchName) (t t' : FileTree) : Prop where
  head : t'.at? (headPath root) = some (.file (.plain (Bytes.ofText name.text)))
  branches : ∀ p, branchesPath root <:+ p → t'.at? p = t.at? p

/-- From `t` to `t'` a branch has moved to a commit, no other branch has, and `HEAD` is as
before. -/
structure TipMoved (root : Path) (name : BranchName) (tip : ObjectId) (t t' : FileTree) : Prop where
  head : t'.at? (headPath root) = t.at? (headPath root)
  moved : Moved root name tip t t'

/-- What `HEAD` names is current where its name has no blanks around it. -/
theorem HeadMoved.current_of_trimmed (h : HeadMoved root theirs.name t t') (intact : Intact root t)
    (intact' : Intact root t') (hget : Branches.get? root t theirs.name = .ok (some theirs))
    (trimmed : Text.trimmed theirs.name.text = theirs.name.text) :
    Branches.current root t' = .ok theirs := by
  refine Branches.current_of_head (HeadStands.head_of_trimmed intact'.housed trimmed h.head) ?_
  rw [← hget]
  exact Branches.get?_congr intact.housed.free intact'.housed.free
    (h.branches _ (Branches.below_branchPath root theirs.name))

theorem HeadMoved.current_eq (h : HeadMoved root theirs.name t t') (intact : Intact root t)
    (intact' : Intact root t') (hget : Branches.get? root t theirs.name = .ok (some theirs))
    (plain : PlainName theirs.name.text) : Branches.current root t' = .ok theirs :=
  h.current_of_trimmed intact intact' hget plain.trimmed

namespace Command

open LocalVcs.Action

/-- A switch from the current commit to a sound one leads to these outcomes, where what comes after
it succeeds and touches neither working files nor what is staged. -/
theorem leads_switch (h : Intact root t) (sound : Sound root t current)
    (sound' : Sound root t target)
    {staging : Staging} (hstaging : Staging.load root t = .ok staging) {printed : String}
    {after : Action Unit} {moves : FileTree → Prop} {area : Area}
    (harea : area = .head ∨ area = .branches)
    (hafter : ∀ t₁, Intact root t₁ → Touches root [.work, .index .addition, .index .removal] t t₁ →
      ∃ t', after ⟨t₁, printed⟩ = (.ok (), ⟨t', printed⟩) ∧ Touches root [area] t₁ t' ∧ moves t') :
    (do let switch ← Action.read fun t => Switch.plan root t current target
        switch.apply root staging
        after).Leads ⟨t, printed⟩ (Switches root current target t printed moves) := by
  rcases Switch.plan_cases h current sound' with ⟨blocked, hplan⟩ | ⟨clear, s, hplan⟩
  · have hread : Action.read (fun t => Switch.plan root t current target) ⟨t, printed⟩ =
        (.error (.user .untrackedFileInTheWay), ⟨t, printed⟩) := read_run hplan
    exact Leads.of_run (bind_run_error hread) (Or.inl ⟨blocked, rfl, rfl⟩)
  · refine leads_read_bind_ok hplan ?_
    obtain ⟨t₁, hrun₁, kept₁, touch₁, switched⟩ :=
      Switch.apply_run False h hplan sound sound' hstaging printed
    obtain ⟨t', hrun, touch, moved⟩ := hafter t₁ kept₁.intact touch₁
    refine leads_bind_of_run hrun₁ (Leads.of_run hrun (Or.inr ⟨clear, t', rfl, rfl, ?_, moved⟩))
    rcases harea with rfl | rfl <;>
      exact switched.of_touches sound sound' touch (by simp) (by simp) (by simp)

/-- **Going over to the tip of a branch** sets `HEAD` and moves no branch. -/
theorem switchTo_leads (h : Intact root t) {staging : Staging}
    (hstaging : Staging.load root t = .ok staging) (hcurrent : Branches.current root t = .ok mine)
    (hload : Commits.load root t mine.tip = .ok current)
    (htarget : Commits.load root t theirs.tip = .ok target) (printed : String) :
    (switchTo root staging theirs).Leads ⟨t, printed⟩
      (Switches root current target t printed (HeadMoved root theirs.name t)) := by
  refine leads_bind_of_run (headCommit_run hcurrent hload) ?_
  refine leads_bind_of_run (loadCommit_run htarget) ?_
  refine leads_switch h (h.of_load hload).2.2.1 (h.of_load htarget).2.2.1 hstaging (Or.inl rfl) ?_
  intro t₁ h₁ touch₁
  obtain ⟨t', hrun, touch, hat⟩ := Branches.setHead_run h₁.housed h₁.head theirs.name printed
  refine ⟨t', hrun, touch, by rw [hat, if_pos rfl], fun p below => ?_⟩
  rw [touch.at?_below_branches (by simp) below, touch₁.at?_below_branches (by simp) below]

/-- **Checking out a branch** that is not the current one. -/
theorem checkoutBranch_leads (h : Intact root t) (hcurrent : Branches.current root t = .ok mine)
    (hload : Commits.load root t mine.tip = .ok current)
    (hfind : Branches.find? root t text = .ok (some theirs)) (other : theirs.name ≠ mine.name)
    (htarget : Commits.load root t theirs.tip = .ok target) (printed : String) :
    (checkoutBranch root text).Leads ⟨t, printed⟩
      (Switches root current target t printed (HeadMoved root theirs.name t)) := by
  obtain ⟨staging, hstaging, -⟩ := Staging.load_eq h.housed h.index
  refine leads_bind_of_run (resolveBranch_run hfind) ?_
  have notCurrent : Branches.isCurrent root t theirs.name = .ok false := by
    rw [Branches.isCurrent, (Branches.of_current hcurrent).1]
    simp [Except.map, Ne.symm other]
  refine leads_read_bind_ok notCurrent ?_
  dsimp only
  rw [if_neg Bool.false_ne_true]
  exact leads_read_bind_ok hstaging (switchTo_leads h hstaging hcurrent hload htarget printed)

/-- **Resetting to a commit** moves the current branch there and keeps `HEAD`. -/
theorem reset_leads (h : Intact root t) (hcurrent : Branches.current root t = .ok mine)
    (hload : Commits.load root t mine.tip = .ok current)
    (hfind : Commits.find? root t text = .ok (some target)) (printed : String) :
    (reset root text).Leads ⟨t, printed⟩
      (Switches root current target t printed (TipMoved root mine.name target.id t)) := by
  obtain ⟨staging, hstaging, -⟩ := Staging.load_eq h.housed h.index
  refine leads_bind_of_run (resolveCommit_run hfind) ?_
  refine leads_read_bind_ok hstaging (leads_read_bind_ok hcurrent ?_)
  refine leads_bind_of_run (loadCommit_run hload) ?_
  refine leads_switch h (h.of_load hload).2.2.1 (h.stores.sound (h.of_find? hfind)).1 hstaging
    (Or.inr rfl) ?_
  intro t₁ h₁ touch₁
  -- the branch is moved where its file stands already
  obtain ⟨c, -, -, tell, hfile⟩ := h.of_current hcurrent
  have hfile₁ : t₁.at? (branchPath root mine.name) =
      some (.file (.plain (Bytes.ofText c.id.text))) := by
    rw [touch₁.at?_eq (Branches.holds_branchPath root mine.name) (by simp), hfile]
  obtain ⟨t', hrun, touch, placed⟩ := Branches.save_run h₁.housed tell (canPlace_of_file hfile₁)
    target.id printed
  refine ⟨t', hrun, touch, ?_, fun p below => ?_⟩
  · rw [touch.at?_eq Area.holds_head (by simp), touch₁.at?_eq Area.holds_head (by simp)]
  · rw [placed, touch₁.at?_below_branches (by simp) below]

end Command

end LocalVcs
