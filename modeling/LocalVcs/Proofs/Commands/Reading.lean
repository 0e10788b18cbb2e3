/-
# What commands read first

The rules for the readings that commands begin with: a reading that fails leaves the world as it is,
and what one gives in an intact repository is stored there.  Reports do nothing but read.

* `Command.leads_headCommit_bind`, `Command.leads_resolveCommit_bind`,
  `Command.leads_resolveBranch_bind`: one rule for each reading.
* `Intact.of_find?`, `Intact.of_current`: the commit and the branch that are found are stored.
* `Command.status_leads` and its like: a report leaves the file tree as it is.
-/
import LocalVcs.Command.Report
import LocalVcs.Proofs.Intact

namespace LocalVcs

open FileTree Layout

variable {root : Path} {t : FileTree}

/-! ## 1. What is found is stored -/

namespace Intact

theorem of_get? (h : Intact root t) {id : ObjectId} {c : Commit}
    (hget : Commits.get? root t id = .ok (some c)) : CommitStored root t c := by
  have hload : Commits.load root t id = .ok c := by
    rw [Commits.load, hget]; rfl
  exact (h.load_iff.mp hload).2

theorem get?_of_stored (h : Intact root t) {c : Commit} (stored : CommitStored root t c) :
    Commits.get? root t c.id = .ok (some c) :=
  Commits.get?_of_stored h.housed.clear stored

theorem of_abbreviation (h : Intact root t) {text : String} {ids : List ObjectId} {c : Commit}
    (hfind : (if text = "" then pure none
      else match ids with
        | [id] => Commits.get? root t id
        | _ => pure none) = Except.ok (some c)) : CommitStored root t c := by
  split at hfind
  · cases hfind
  · split at hfind
    · exact h.of_get? hfind
    · cases hfind

theorem get?_run (h : Intact root t) (id : ObjectId) :
    ∃ found, Commits.get? root t id = .ok found := by
  cases hat : t.at? (objectPath root .commit id) with
  | none => exact ⟨none, by rw [Commits.get?, encoding?_of_absent h.housed.clear hat]; rfl⟩
  | some e =>
    obtain ⟨c, hpath, rfl, sound, -⟩ := h.stores.commits _ _ e hat
    obtain rfl := objectPath_injective hpath
    exact ⟨some c, h.get?_of_stored ⟨sound.readable, hat⟩⟩

theorem abbreviation_run (h : Intact root t) (text : String) (ids : List ObjectId) :
    ∃ found, (if text = "" then pure none
      else match ids with
        | [id] => Commits.get? root t id
        | _ => pure none : Except Damage (Option Commit)) = .ok found := by
  split
  · exact ⟨none, rfl⟩
  · split
    · exact h.get?_run _
    · exact ⟨none, rfl⟩

/-- The commit that an id or an abbreviation names is stored. -/
theorem of_find? (h : Intact root t) {text : String} {c : Commit}
    (hfind : Commits.find? root t text = .ok (some c)) : CommitStored root t c := by
  simp only [Commits.find?, bind, Except.bind] at hfind
  generalize Store.idsBeginning root .commit t text = ids at hfind
  split at hfind
  · split at hfind
    · cases hfind
    · rename_i found hget
      split at hfind
      · obtain rfl := Option.some.inj (Except.ok.inj hfind)
        exact h.of_get? hget
      · exact h.of_abbreviation hfind
  · exact h.of_abbreviation hfind

/-- **The full id of a stored commit names it.** -/
theorem find?_of_stored (h : Intact root t) {c : Commit} (stored : CommitStored root t c) :
    Commits.find? root t c.id.text = .ok (some c) := by
  rw [Commits.find?, ObjectId.ofText?_text]
  simp only [h.get?_of_stored stored]
  rfl

theorem of_current (h : Intact root t) {b : Branch} (hcurrent : Branches.current root t = .ok b) :
    ∃ c, CommitStored root t c ∧ b = ⟨b.name, c.id⟩ ∧ (Branches.route root b.name).CanTell ∧
      t.at? (branchPath root b.name) = some (.file (.plain (Bytes.ofText c.id.text))) :=
  Branches.of_get? h.housed h.refs (Branches.of_current hcurrent).2

/-- The tip of the current branch can be loaded. -/
theorem load_of_current (h : Intact root t) {b : Branch}
    (hcurrent : Branches.current root t = .ok b) :
    ∃ c, CommitStored root t c ∧ b.tip = c.id ∧ Commits.load root t b.tip = .ok c := by
  obtain ⟨c, stored, hb, -, -⟩ := h.of_current hcurrent
  have tip : b.tip = c.id := congrArg Branch.tip hb
  exact ⟨c, stored, tip, h.load_iff.mpr ⟨tip.symm, stored⟩⟩

end Intact

/-- Where another branch has moved, the current one is still current. -/
theorem Moved.current_of_other {t' : FileTree} {b : Branch} {name : BranchName} {tip : ObjectId}
    (moved : Moved root name tip t t') (h : Intact root t) (h' : Intact root t')
    (same : t'.at? (headPath root) = t.at? (headPath root))
    (hcurrent : Branches.current root t = .ok b)
    (distinct : branchPath root b.name ≠ branchPath root name) :
    Branches.current root t' = .ok b := by
  obtain ⟨hhead, hget⟩ := Branches.of_current hcurrent
  rw [← Branches.head_congr h.housed.free h'.housed.free same] at hhead
  rw [← moved.get?_eq h.housed.free h'.housed.free distinct] at hget
  exact Branches.current_of_head hhead hget

/-- A current branch that has moved is still current. -/
theorem Moved.current {t' : FileTree} {b : Branch} {tip : ObjectId}
    (moved : Moved root b.name tip t t') (h : Intact root t) (h' : Intact root t')
    (same : t'.at? (headPath root) = t.at? (headPath root))
    (hcurrent : Branches.current root t = .ok b) :
    Branches.current root t' = .ok ⟨b.name, tip⟩ := by
  obtain ⟨-, -, -, tell, -⟩ := h.of_current hcurrent
  have hhead : Branches.head root t' = .ok b.name := by
    rw [Branches.head_congr h.housed.free h'.housed.free same, (Branches.of_current hcurrent).1]
  exact Branches.current_of_head hhead (moved.get?_self h'.housed h'.refs tell)

/-! ## 2. One rule for each reading -/

namespace Command

open LocalVcs.Action

variable {α β : Type} {w : World} {Q : Except Fault β → World → Prop}

theorem leads_undamaged_bind {load : FileTree → Except Damage α} {f : α → Action β}
    (ok : ∀ x, load w.tree = .ok x → (f x).Leads w Q) (error : ∀ fault, Q (.error fault) w) :
    (undamaged load >>= f).Leads w Q := by
  refine leads_read_bind (fun x hx => ok x ?_) fun fault _ => error fault
  cases hload : load w.tree with
  | error damage => rw [hload] at hx; cases hx
  | ok y =>
    rw [hload] at hx
    exact congrArg Except.ok (Except.ok.inj hx)

theorem undamaged_run {printed : String} {load : FileTree → Except Damage α} {x : α}
    (h : load t = .ok x) : undamaged load ⟨t, printed⟩ = (.ok x, ⟨t, printed⟩) :=
  read_run (by rw [h]; rfl)

theorem undamaged_run_error {printed : String} {load : FileTree → Except Damage α} {damage : Damage}
    (h : load t = .error damage) :
    undamaged load ⟨t, printed⟩ = (.error (.damaged damage), ⟨t, printed⟩) :=
  read_run (by rw [h]; rfl)

theorem loadCommit_run {printed : String} {id : ObjectId} {c : Commit}
    (h : Commits.load root t id = .ok c) :
    loadCommit root id ⟨t, printed⟩ = (.ok c, ⟨t, printed⟩) := undamaged_run h

theorem headCommit_run {printed : String} {b : Branch} {c : Commit}
    (hcurrent : Branches.current root t = .ok b) (h : Commits.load root t b.tip = .ok c) :
    headCommit root ⟨t, printed⟩ = (.ok c, ⟨t, printed⟩) := by
  rw [headCommit, bind_run_ok (read_run hcurrent), loadCommit_run h]

theorem resolveCommit_run {printed : String} {text : String} {c : Commit}
    (h : Commits.find? root t text = .ok (some c)) :
    resolveCommit root text ⟨t, printed⟩ = (.ok c, ⟨t, printed⟩) := by
  rw [resolveCommit, bind_run_ok (undamaged_run h)]
  rfl

theorem resolveBranch_run {missing : UserError} {name : String} {b : Branch} {printed : String}
    (h : Branches.find? root t name = .ok (some b)) :
    resolveBranch root missing name ⟨t, printed⟩ = (.ok b, ⟨t, printed⟩) := by
  rw [resolveBranch, bind_run_ok (read_run h)]
  rfl

theorem leads_headCommit_bind {f : Commit → Action β}
    (ok : ∀ b c, Branches.current root w.tree = .ok b → Commits.load root w.tree b.tip = .ok c →
      (f c).Leads w Q) (error : ∀ fault, Q (.error fault) w) :
    (headCommit root >>= f).Leads w Q := by
  rw [headCommit, bind_assoc]
  refine leads_read_bind ?_ fun fault _ => error fault
  intro b hb
  exact leads_undamaged_bind (fun c hc => ok b c hb hc) error

theorem leads_resolveCommit_bind {text : String} {f : Commit → Action β}
    (ok : ∀ c, Commits.find? root w.tree text = .ok (some c) → (f c).Leads w Q)
    (error : ∀ fault, Q (.error fault) w) : (resolveCommit root text >>= f).Leads w Q := by
  rw [resolveCommit, bind_assoc]
  refine leads_undamaged_bind ?_ error
  intro found hfound
  cases found with
  | none => exact leads_fail_bind (error _)
  | some c => exact ok c hfound

theorem leads_resolveBranch_bind {missing : UserError} {text : String} {f : Branch → Action β}
    (ok : ∀ b, Branches.find? root w.tree text = .ok (some b) → (f b).Leads w Q)
    (error : ∀ fault, Q (.error fault) w) : (resolveBranch root missing text >>= f).Leads w Q := by
  rw [resolveBranch, bind_assoc]
  refine leads_read_bind ?_ fun fault _ => error fault
  intro found hfound
  cases found with
  | none => exact leads_fail_bind (error _)
  | some b => exact ok b hfound

/-! ## 3. Reports -/

theorem log_leads (root : Path) (zone : Time.Zone) (w : World) :
    (log root zone).Leads w fun _ w' => w'.tree = w.tree :=
  leads_headCommit_bind
    (fun _ _ _ _ => leads_undamaged_bind (fun _ _ => leads_print rfl) fun _ => rfl) fun _ => rfl

theorem globalLog_leads (root : Path) (zone : Time.Zone) (w : World) :
    (globalLog root zone).Leads w fun _ w' => w'.tree = w.tree :=
  leads_undamaged_bind (fun _ _ => leads_print rfl) fun _ => rfl

theorem find_leads (root : Path) (message : String) (w : World) :
    (find root message).Leads w fun _ w' => w'.tree = w.tree := by
  refine leads_undamaged_bind ?_ fun _ => rfl
  intro commits _
  dsimp only
  split
  · exact leads_fail_bind rfl
  · exact leads_print rfl

theorem status_leads (root : Path) (w : World) :
    (status root).Leads w fun _ w' => w'.tree = w.tree := by
  refine leads_read_bind ?_ fun _ _ => rfl
  intro _ _
  refine leads_read_bind ?_ fun _ _ => rfl
  intro _ _
  refine leads_read_bind ?_ fun _ _ => rfl
  intro _ _
  refine leads_headCommit_bind ?_ fun _ => rfl
  intro _ _ _ _
  refine leads_read_bind ?_ fun _ _ => rfl
  intro _ _
  exact leads_print rfl

end Command

end LocalVcs
