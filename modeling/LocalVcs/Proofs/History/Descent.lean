/-
# The first shared commit of a search

A split point is the first commit that the search from one tip yields and another tip's ancestors
hold.  In a finite graph without cycles this is found by a plain descent, without a stack and
without a set of visited commits: from a commit that is not shared go on to its first parent from
which a shared commit can be reached (`Meets`).

* `DepthFirst.meets_or_misses`: of the ids that the recursive search comes to, the first shared one
  is what the descent meets from the first id of the agenda that reaches a shared one.
* `splitPoint_cases`, `splitPoint_eq_some_iff`: what the split point is, and when there is none.

The search and the descent differ in that the search passes over what it has visited.  That is
harmless for one reason alone, which `dead` states below: what the search has visited and can come
upon again is exhausted, as it lies on no path that is still open.
-/
import LocalVcs.Proofs.History.DepthFirst

namespace LocalVcs.History

variable {ε : Type} {load : Loader ε}

/-! ## 1. The descent -/

/-- Whether an ancestor of a commit, or the commit itself, is shared. -/
def Reaches (load : Loader ε) (Shared : ObjectId → Prop) (id : ObjectId) : Prop :=
  ∃ a, Shared a ∧ Ancestor load a id

/-- The descent from a commit meets a shared commit: itself if it is shared, else what the descent
from the first of its parents meets that reaches a shared commit. -/
inductive Meets (load : Loader ε) (Shared : ObjectId → Prop) : ObjectId → ObjectId → Prop
  | here {id : ObjectId} : Shared id → Meets load Shared id id
  | onward {id p found : ObjectId} {c : Commit} {before after : List ObjectId} :
      ¬Shared id → load id = .ok c → c.parents = before ++ p :: after →
      (∀ q ∈ before, ¬Reaches load Shared q) → Meets load Shared p found →
      Meets load Shared id found

variable {Shared : ObjectId → Prop}

theorem Reaches.of_ancestor {a id : ObjectId} (h : Reaches load Shared a)
    (ha : Ancestor load a id) : Reaches load Shared id := by
  obtain ⟨b, hb, hba⟩ := h
  exact ⟨b, hb, hba.trans ha⟩

theorem reaches_iff {id : ObjectId} :
    Reaches load Shared id ↔ Shared id ∨ ∃ p, Parent load p id ∧ Reaches load Shared p := by
  constructor
  · rintro ⟨a, ha, h⟩
    rcases h.eq_or_parent with rfl | ⟨p, hp, hap⟩
    · exact Or.inl ha
    · exact Or.inr ⟨p, hp, a, ha, hap⟩
  · rintro (h | ⟨p, hp, h⟩)
    · exact ⟨id, h, Ancestor.refl id⟩
    · exact h.of_ancestor hp.ancestor

theorem Meets.shared {id found : ObjectId} (h : Meets load Shared id found) : Shared found := by
  induction h with
  | here h => exact h
  | onward _ _ _ _ _ ih => exact ih

theorem Meets.ancestor {id found : ObjectId} (h : Meets load Shared id found) :
    Ancestor load found id := by
  induction h with
  | here => exact Ancestor.refl _
  | onward _ hc hparents _ _ ih =>
    exact ih.trans (Parent.ancestor ((parent_iff hc).mpr (by simp [hparents])))

theorem Meets.reaches {id found : ObjectId} (h : Meets load Shared id found) :
    Reaches load Shared id := ⟨found, h.shared, h.ancestor⟩

/-- Two lists of which each begins with what fails and goes on with what holds have the same
beginning. -/
theorem first_unique {P : ObjectId → Prop} {p q : ObjectId}
    {before after before' after' : List ObjectId}
    (h : before ++ p :: after = before' ++ q :: after') (hb : ∀ x ∈ before, ¬P x) (hp : P p)
    (hb' : ∀ x ∈ before', ¬P x) (hq : P q) : p = q := by
  induction before generalizing before' with
  | nil =>
    cases before' with
    | nil => exact (List.cons.inj h).1
    | cons x before' => exact absurd ((List.cons.inj h).1 ▸ hp) (hb' x (by simp))
  | cons x before ih =>
    cases before' with
    | nil => exact absurd ((List.cons.inj h).1 ▸ hq) (hb x (by simp))
    | cons y before' =>
      exact ih (List.cons.inj h).2 (fun z hz => hb z (List.mem_cons_of_mem _ hz))
        (fun z hz => hb' z (List.mem_cons_of_mem _ hz))

theorem Meets.unique {id found found' : ObjectId} (h : Meets load Shared id found)
    (h' : Meets load Shared id found') : found = found' := by
  induction h with
  | here h =>
    cases h' with
    | here => rfl
    | onward hnot => exact absurd h hnot
  | onward hnot hc hparents hbefore hp ih =>
    cases h' with
    | here h => exact absurd h hnot
    | onward _ hc' hparents' hbefore' hp' =>
      obtain rfl := Except.ok.inj (hc.symm.trans hc')
      obtain rfl :=
        first_unique (hparents.symm.trans hparents') hbefore hp.reaches hbefore' hp'.reaches
      exact ih hp'

/-! ## 2. The search follows the descent -/

/-- The first of some commits that reaches a shared one, and what the descent from it meets. -/
def FirstMeets (load : Loader ε) (Shared : ObjectId → Prop) (ps : List ObjectId)
    (found : ObjectId) : Prop :=
  ∃ before p after, ps = before ++ p :: after ∧ (∀ q ∈ before, ¬Reaches load Shared q) ∧
    Meets load Shared p found

theorem Meets.firstMeets {p found : ObjectId} (h : Meets load Shared p found)
    (ps : List ObjectId) : FirstMeets load Shared (p :: ps) found :=
  ⟨[], p, ps, rfl, by simp, h⟩

theorem FirstMeets.cons_of_not_reaches {p found : ObjectId} {ps : List ObjectId}
    (hp : ¬Reaches load Shared p) (h : FirstMeets load Shared ps found) :
    FirstMeets load Shared (p :: ps) found := by
  obtain ⟨before, q, after, rfl, hbefore, hq⟩ := h
  exact ⟨p :: before, q, after, rfl, List.forall_mem_cons.mpr ⟨hp, hbefore⟩, hq⟩

theorem firstMeets_singleton {p found : ObjectId} :
    FirstMeets load Shared [p] found ↔ Meets load Shared p found := by
  refine ⟨?_, fun h => h.firstMeets []⟩
  rintro ⟨before, q, after, heq, -, h⟩
  cases before with
  | nil => exact (List.cons.inj heq).1 ▸ h
  | cons => simp at heq

/-- What the descent meets from the parents of a commit that is not shared, it meets from there. -/
theorem FirstMeets.onward {id found : ObjectId} (hnot : ¬Shared id)
    (h : FirstMeets load Shared (parentsOf load id) found) : Meets load Shared id found := by
  obtain ⟨before, p, after, hparents, hbefore, hp⟩ := h
  cases hload : load id with
  | error e => simp [parentsOf, hload] at hparents
  | ok c => exact .onward hnot hload ((parentsOf_ok hload).symm.trans hparents) hbefore hp

variable {shared : List ObjectId} {ids : Finset ObjectId}

/-- **The search follows the descent.**  Either the first shared id that the search comes to is what
the first id of the agenda that reaches a shared one meets; or it comes to no shared id, and nothing
on the agenda reaches one. -/
theorem DepthFirst.meets_or_misses (acyclic : Acyclic load)
    (hshared : ∀ a, a ∈ shared ↔ Shared a) {seen agenda order : List ObjectId}
    (h : DepthFirst load seen agenda order)
    (dead : ∀ v ∈ seen, ∀ p ∈ agenda, Ancestor load v p → ¬Reaches load Shared v) :
    (∃ found, order.find? (· ∈ shared) = some found ∧ FirstMeets load Shared agenda found) ∨
    (order.find? (· ∈ shared) = none ∧ ∀ p ∈ agenda, ¬Reaches load Shared p) := by
  induction h with
  | done => exact Or.inr ⟨rfl, by simp⟩
  | @skip id seen rest order hseen _ ih =>
    have exhausted : ¬Reaches load Shared id :=
      dead id hseen id List.mem_cons_self (Ancestor.refl id)
    rcases ih fun v hv p hp => dead v hv p (List.mem_cons_of_mem _ hp) with
      ⟨found, hfind, first⟩ | ⟨hfind, misses⟩
    · exact Or.inl ⟨found, hfind, first.cons_of_not_reaches exhausted⟩
    · exact Or.inr ⟨hfind, List.forall_mem_cons.mpr ⟨exhausted, misses⟩⟩
  | @visit id seen rest below order _ hbelow _ ihBelow ihRest =>
    by_cases hsh : Shared id
    · -- the id itself is shared
      exact Or.inl ⟨id, by simp [hshared, hsh], (Meets.here hsh).firstMeets rest⟩
    -- what is visited and can be come upon from the parents is exhausted
    have deadBelow : ∀ v ∈ id :: seen, ∀ p ∈ parentsOf load id, Ancestor load v p →
        ¬Reaches load Shared v := by
      intro v hv p hp hvp
      have parent := parent_iff_mem_parentsOf.mpr hp
      rcases List.mem_cons.mp hv with rfl | hv
      · exact absurd parent (acyclic.not_parent_of_ancestor hvp)
      · exact dead v hv id List.mem_cons_self (hvp.trans parent.ancestor)
    rcases ihBelow deadBelow with ⟨found, hfind, first⟩ | ⟨hfind, misses⟩
    · refine Or.inl ⟨found, ?_, (first.onward hsh).firstMeets rest⟩
      simp [hshared, hsh, hfind]
    have exhausted : ¬Reaches load Shared id := by
      rw [reaches_iff]
      rintro (h | ⟨p, hp, reaches⟩)
      · exact hsh h
      · exact misses p (parent_iff_mem_parentsOf.mp hp) reaches
    have deadRest : ∀ v ∈ below.reverse ++ id :: seen, ∀ p ∈ rest, Ancestor load v p →
        ¬Reaches load Shared v := by
      intro v hv p hp hvp
      rcases List.mem_append.mp hv with hv | hv
      · obtain ⟨q, hq, hvq⟩ := hbelow.exists_ancestor v (List.mem_reverse.mp hv)
        exact fun reaches => misses q hq (reaches.of_ancestor hvq)
      · rcases List.mem_cons.mp hv with rfl | hv
        · exact exhausted
        · exact dead v hv p (List.mem_cons_of_mem _ hp) hvp
    have passed : (id :: (below ++ order)).find? (· ∈ shared) = order.find? (· ∈ shared) := by
      simp [hshared, hsh, hfind]
    rw [passed]
    rcases ihRest deadRest with ⟨found, hfind, first⟩ | ⟨hfind, misses⟩
    · exact Or.inl ⟨found, hfind, first.cons_of_not_reaches exhausted⟩
    · exact Or.inr ⟨hfind, List.forall_mem_cons.mpr ⟨exhausted, misses⟩⟩

/-! ## 3. The split point -/

/-- Where every load succeeds, what is found is the first id that is shared. -/
theorem firstShared_map_ok (shared : List ObjectId) (cs : List Commit) :
    firstShared (ε := ε) shared (cs.map .ok) = .ok ((cs.map Commit.id).find? (· ∈ shared)) := by
  induction cs with
  | nil => rfl
  | cons c cs ih =>
    rw [List.map_cons, List.map_cons, firstShared, List.find?_cons, ih]
    by_cases hc : c.id ∈ shared <;> simp [hc]

/-- What the whole search from a commit meets first. -/
theorem firstShared_start (closed : Closed load ids) (acyclic : Acyclic load)
    (hshared : ∀ a, a ∈ shared ↔ Shared a) {id : ObjectId} (hid : id ∈ ids) {count : Nat}
    (enough : ids.card ≤ count) :
    (∃ found, Meets load Shared id found ∧
      firstShared shared ((Search.start id).items load count) = .ok (some found)) ∨
    (¬Reaches load Shared id ∧
      firstShared shared ((Search.start id).items load count) = .ok none) := by
  obtain ⟨cs, visits⟩ := closed.exists_visits hid enough
  rw [visits.items, firstShared_map_ok]
  rcases visits.order.meets_or_misses acyclic hshared (by simp) with
    ⟨found, hfind, first⟩ | ⟨hfind, misses⟩
  · exact Or.inl ⟨found, firstMeets_singleton.mp first, by rw [hfind]⟩
  · exact Or.inr ⟨misses id List.mem_cons_self, by rw [hfind]⟩

/-- The split point is what the descent from the other tip meets among the ancestors of the head;
there is none where the two have no ancestor in common. -/
theorem splitPoint_cases (closed : Closed load ids) (acyclic : Acyclic load) {head other : ObjectId}
    (hhead : head ∈ ids) (hother : other ∈ ids) {count : Nat} (enough : ids.card ≤ count) :
    (∃ found, Meets load (Ancestor load · head) other found ∧
      splitPoint load count head other = .ok (some found)) ∨
    (¬Reaches load (Ancestor load · head) other ∧ splitPoint load count head other = .ok none) := by
  obtain ⟨cs, hcollect, hcs⟩ := collect_start closed hhead enough
  have hsplit : splitPoint load count head other =
      firstShared (cs.map Commit.id) ((Search.start other).items load count) := by
    rw [splitPoint, hcollect]
    rfl
  rw [hsplit]
  exact firstShared_start closed acyclic hcs hother enough

theorem splitPoint_eq_some_iff (closed : Closed load ids) (acyclic : Acyclic load)
    {head other found : ObjectId} (hhead : head ∈ ids) (hother : other ∈ ids) {count : Nat}
    (enough : ids.card ≤ count) :
    splitPoint load count head other = .ok (some found) ↔
      Meets load (Ancestor load · head) other found := by
  rcases splitPoint_cases closed acyclic hhead hother enough with ⟨y, hy, hrun⟩ | ⟨hno, hrun⟩
  · rw [hrun]
    constructor
    · intro h
      obtain rfl : y = found := by simpa using h
      exact hy
    · intro h
      rw [hy.unique h]
  · rw [hrun]
    constructor
    · intro h
      simp at h
    · exact fun h => absurd h.reaches hno

end LocalVcs.History
