/-
# Laws of merge plans

A plan takes the snapshot of the current branch on to that of the merge: it puts in what it takes
from the other side and leaves out what it removes.  The rules for one name are tried in an order,
and treat the two sides unlike; what they come to is simple.  A name is left to a conflict where its
three entries are pairwise different; else the merged snapshot holds what the side holds that has
changed it.  So it does not matter from which side one merges, a side that has changed nothing adds
nothing, and no working file is touched without need.

* `Resolution.resolve_eq_conflict_iff`, `Resolution.touches_resolve`: what the rules come to.
* `Resolution.applied`, `Resolution.getElem?_applied`: the merged snapshot, name by name.
* `Resolution.conflicts`, `Resolution.mem_conflicts`: the names that are left to conflicts.
* `Resolution.plan_symmetric_minimal`: the laws for whole snapshots.
-/
import LocalVcs.Merge.Resolution
import LocalVcs.Proofs.NameMap
import Mathlib.Tactic.Tauto

namespace LocalVcs.Resolution

/-! ## 1. One name -/

section

variable (s h o : Option ObjectId)

/-- The working file is touched where the other side has changed the name and the sides do not agree
on it. -/
theorem touches_resolve : (resolve s h o).touches = true ↔ s ≠ o ∧ h ≠ o := by
  unfold resolve
  split
  · rename_i taken
    obtain ⟨rfl, changed⟩ := taken
    cases o <;> simp [touches, changed]
  · rename_i notTaken
    split
    · rename_i held
      obtain ⟨rfl, -⟩ := held
      split <;> simp [touches]
    · split
      · rename_i apart
        simp [touches, apart.2.1, apart.2.2]
      · simp only [touches, Bool.false_eq_true, false_iff]
        tauto

/-- **A conflict** is where the three entries are pairwise different. -/
theorem resolve_eq_conflict_iff : resolve s h o = conflict ↔ s ≠ h ∧ s ≠ o ∧ h ≠ o := by
  unfold resolve
  split
  · rename_i taken
    cases o <;> simp [taken.1]
  · split
    · rename_i held
      split <;> simp [held.1]
    · split
      · rename_i apart
        simp [apart]
      · rename_i agree
        simpa using agree

end

/-- The blob that is put in. -/
def taken? : Resolution → Option ObjectId
  | takeOther blob => some blob
  | keepHead | conflict | remove | unchanged => none

/-- What a name stands for that stood for `head`. -/
def outcome (head : Option ObjectId) (r : Resolution) : Option ObjectId :=
  if r = remove then none else r.taken?.or head

/-- Where the current side has not changed a name, the other side is followed. -/
theorem outcome_resolve (s h o : Option ObjectId) :
    (resolve s h o).outcome h = if s = h then o else h := by
  unfold resolve
  split
  · rename_i taken
    rw [if_pos taken.1]
    cases o <;> simp [outcome, taken?]
  · rename_i notTaken
    have kept : (if s = h then o else h) = h := by
      split
      · rename_i same
        exact (Classical.not_not.mp fun changed => notTaken ⟨same, changed⟩).symm.trans same
      · rfl
    rw [kept]
    split
    · split <;> simp [outcome, taken?]
    · split <;> simp [outcome, taken?]

/-! ## 2. Whole snapshots -/

/-- The snapshot `head` with the blobs put in that the plan takes from the other side, and the names
left out that it removes. -/
def applied (split head other : Manifest) : Manifest :=
  let resolved := plan split head other
  (head ∪ resolved.filterMap fun _ r => r.taken?).filter fun name _ => resolved[name]? ≠ some remove

/-- The names that the plan leaves to conflicts, in ascending order. -/
def conflicts (split head other : Manifest) : List String :=
  ((plan split head other).filter fun _ r => r = conflict).keys

section

variable (split head other : Manifest)

theorem mem_plan {name : String} :
    name ∈ plan split head other ↔ name ∈ split ∨ name ∈ head ∨ name ∈ other := by
  rw [NameMap.mem_iff_exists_getElem?, getElem?_plan]
  split <;> simp_all

/-- A name that no snapshot holds might as well be resolved. -/
theorem getElem?_plan_getD (name : String) : (plan split head other)[name]?.getD unchanged =
    resolve split[name]? head[name]? other[name]? := by
  rw [getElem?_plan]
  split
  · rfl
  · rename_i unknown
    simp only [not_or] at unknown
    rw [Std.ExtTreeMap.getElem?_eq_none unknown.1, Std.ExtTreeMap.getElem?_eq_none unknown.2.1,
      Std.ExtTreeMap.getElem?_eq_none unknown.2.2]
    rfl

/-- **The merged snapshot**, name by name. -/
theorem getElem?_applied (name : String) : (applied split head other)[name]? =
    if split[name]? = head[name]? then other[name]? else head[name]? := by
  rw [← outcome_resolve, ← getElem?_plan_getD, applied, Std.ExtTreeMap.getElem?_filter',
    Std.ExtTreeMap.getElem?_union, Std.ExtTreeMap.getElem?_filterMap']
  have all (entry : Option ObjectId) : entry.filter (fun _ => true) = entry := by
    cases entry <;> rfl
  cases hplan : (plan split head other)[name]? with
  | none => simp [outcome, taken?, all]
  | some r =>
    by_cases hr : r = remove
    · simp [outcome, hr]
    · simp [outcome, hr, all]

theorem getElem?_plan_eq_conflict_iff {name : String} :
    (plan split head other)[name]? = some conflict ↔ split[name]? ≠ head[name]? ∧
      split[name]? ≠ other[name]? ∧ head[name]? ≠ other[name]? := by
  rw [← resolve_eq_conflict_iff, ← getElem?_plan_getD]
  cases (plan split head other)[name]? <;> simp

theorem mem_conflicts {name : String} : name ∈ conflicts split head other ↔
    split[name]? ≠ head[name]? ∧ split[name]? ≠ other[name]? ∧ head[name]? ≠ other[name]? := by
  rw [← getElem?_plan_eq_conflict_iff, conflicts, Std.ExtTreeMap.mem_keys,
    NameMap.mem_iff_exists_getElem?]
  simp [Option.filter_eq_some_iff]

/-! ## 3. The laws -/

/-- **From both sides** the same names are left to conflicts. -/
theorem conflicts_comm : conflicts split head other = conflicts split other head := by
  refine congrArg Std.ExtTreeMap.keys
    (Std.ExtTreeMap.ext_getElem? fun name => Option.ext fun r => ?_)
  simp only [Std.ExtTreeMap.getElem?_filter', Option.filter_eq_some_iff, decide_eq_true_eq]
  refine and_congr_left ?_
  rintro rfl
  rw [getElem?_plan_eq_conflict_iff, getElem?_plan_eq_conflict_iff]
  tauto

/-- Where there is no conflict, the merged snapshot is the same from both sides. -/
theorem applied_comm {name : String} (agree : name ∉ conflicts split head other) :
    (applied split head other)[name]? = (applied split other head)[name]? := by
  rw [mem_conflicts] at agree
  rw [getElem?_applied, getElem?_applied]
  split <;> split <;> simp_all

theorem conflicts_eq_nil_iff : conflicts split head other = [] ↔ ∀ name : String,
    split[name]? = head[name]? ∨ split[name]? = other[name]? ∨ head[name]? = other[name]? := by
  rw [List.eq_nil_iff_forall_not_mem]
  refine forall_congr' fun name => ?_
  rw [mem_conflicts]
  tauto

/-- A side that has changed nothing follows the other one. -/
theorem applied_of_unchanged :
    applied split split other = other ∧ conflicts split split other = [] :=
  ⟨Std.ExtTreeMap.ext_getElem? fun name => by rw [getElem?_applied, if_pos rfl],
    (conflicts_eq_nil_iff _ _ _).mpr fun _ => Or.inl rfl⟩

/-- Where the other side has changed nothing there is nothing to be done. -/
theorem applied_of_other_unchanged :
    applied split head split = head ∧ conflicts split head split = [] := by
  refine ⟨Std.ExtTreeMap.ext_getElem? fun name => ?_,
    (conflicts_eq_nil_iff _ _ _).mpr fun _ => Or.inr (Or.inl rfl)⟩
  rw [getElem?_applied]
  split
  · rename_i same
    exact same
  · rfl

/-- Where both sides hold the same there is nothing to be done. -/
theorem applied_of_agreed : applied split head head = head ∧ conflicts split head head = [] :=
  ⟨Std.ExtTreeMap.ext_getElem? fun name => by rw [getElem?_applied, ite_self],
    (conflicts_eq_nil_iff _ _ _).mpr fun _ => Or.inr (Or.inr rfl)⟩

/-- **No working file is touched without need**: where there is no conflict, it is touched exactly
where the merged snapshot differs from that of the current branch. -/
theorem touches_iff_applied_ne {name : String} {r : Resolution}
    (hplan : (plan split head other)[name]? = some r) (agree : name ∉ conflicts split head other) :
    r.touches = true ↔ (applied split head other)[name]? ≠ head[name]? := by
  have resolved : r = resolve split[name]? head[name]? other[name]? := by
    rw [← getElem?_plan_getD, hplan, Option.getD_some]
  rw [mem_conflicts] at agree
  rw [resolved, touches_resolve, getElem?_applied]
  split <;> grind

end

/-- **A plan is a symmetric and minimal merge.**  It resolves the names of the three snapshots, and
no others.  The names that it leaves to conflicts are those whose entries are pairwise different,
from whichever side one merges; outside them the merged snapshot is the same from both sides.  A
side that has changed nothing adds nothing to the merge, and two sides that agree have nothing to
merge.  And outside conflicts the working files that are touched are those whose entries change. -/
theorem plan_symmetric_minimal (split head other : Manifest) :
    (∀ name, name ∈ plan split head other ↔ name ∈ split ∨ name ∈ head ∨ name ∈ other) ∧
    conflicts split head other = conflicts split other head ∧
    (∀ name, name ∈ conflicts split head other ↔ split[name]? ≠ head[name]? ∧
      split[name]? ≠ other[name]? ∧ head[name]? ≠ other[name]?) ∧
    (∀ name, name ∉ conflicts split head other →
      (applied split head other)[name]? = (applied split other head)[name]?) ∧
    (applied split split other = other ∧ conflicts split split other = []) ∧
    (applied split head split = head ∧ conflicts split head split = []) ∧
    (applied split head head = head ∧ conflicts split head head = []) ∧
    ∀ name r, (plan split head other)[name]? = some r → name ∉ conflicts split head other →
      (r.touches = true ↔ (applied split head other)[name]? ≠ head[name]?) :=
  ⟨fun _ => mem_plan split head other, conflicts_comm split head other,
    fun _ => mem_conflicts split head other, fun _ => applied_comm split head other,
    applied_of_unchanged split other, applied_of_other_unchanged split head,
    applied_of_agreed split head, fun _ _ => touches_iff_applied_ne split head other⟩

/-! ## 4. A file changed by one side, and one changed by both -/

namespace TwoChanges

/-- Where the histories part. -/
def split : Manifest := (∅ : Manifest).insert "taken" (Object.blobId [1]) |>.insert "both"
  (Object.blobId [1])

/-- One side changes the one file, -/
def head : Manifest := split.insert "both" (Object.blobId [2])

/-- the other side both of them. -/
def other : Manifest := split.insert "taken" (Object.blobId [3]) |>.insert "both"
  (Object.blobId [3])

theorem blobs_differ : Object.blobId [1] ≠ Object.blobId [2] ∧
    Object.blobId [1] ≠ Object.blobId [3] ∧
    Object.blobId [2] ≠ Object.blobId [3] := by
  decide +kernel

theorem getElem?_taken : split["taken"]? = some (Object.blobId [1]) ∧
    head["taken"]? = some (Object.blobId [1]) ∧ other["taken"]? = some (Object.blobId [3]) := by
  simp [split, head, other, Std.ExtTreeMap.getElem_insert]

theorem taken_agreed : "taken" ∉ conflicts split head other := by
  simp [mem_conflicts, getElem?_taken]

theorem taken_planned :
    (plan split head other)["taken"]? = some (takeOther (Object.blobId [3])) := by
  rw [getElem?_plan, if_pos (Or.inl (NameMap.mem_iff_exists_getElem?.mpr ⟨_, getElem?_taken.1⟩)),
    getElem?_taken.1, getElem?_taken.2.1, getElem?_taken.2.2]
  simp [resolve, blobs_differ.2.1]

theorem taken_from_either_side : "taken" ∉ conflicts split head other ∧
    (plan split head other)["taken"]? = some (takeOther (Object.blobId [3])) ∧
    (applied split head other)["taken"]? = (applied split other head)["taken"]? ∧
    ((takeOther (Object.blobId [3])).touches = true ↔
      (applied split head other)["taken"]? ≠ head["taken"]?) := by
  obtain ⟨-, -, -, same, -, -, -, touched⟩ := plan_symmetric_minimal split head other
  exact ⟨taken_agreed, taken_planned, same _ taken_agreed, touched _ _ taken_planned taken_agreed⟩

end TwoChanges

end LocalVcs.Resolution
