/-
# The split point and the lowest common ancestor

A common ancestor of two commits is lowest when every other one is its ancestor.  Histories with one
lowest common ancestor are the ordinary ones: only in a criss-cross history are there several best
ones.  The split point is a common ancestor in any case.  This file says exactly when it is the
lowest one.

From a commit the way to the head's history leads on to its first parent that shares an ancestor
with the head (`Toward`).  Where every commit goes back to one first commit, as in a repository,
that is the commit's first parent.

* `splitPoint_eq_lowest_iff`: the split point is the lowest common ancestor exactly when that lies
  on the way from the other tip; else it is a proper ancestor of it.
* `splitPoint_misses_head_behind`: where the other tip has merged the head as its second parent, the
  way leads past the head.  So the head is an ancestor of the other tip, and is not the split point.
-/
import LocalVcs.Proofs.History.Descent

namespace LocalVcs.History

section

variable {ε : Type} {load : Loader ε}

/-! ## 1. The lowest common ancestor -/

/-- A common ancestor of two commits that has all of them among its own ancestors. -/
structure LowestCommon (load : Loader ε) (a b lowest : ObjectId) : Prop where
  left : Ancestor load lowest a
  right : Ancestor load lowest b
  above : ∀ y, Ancestor load y a → Ancestor load y b → Ancestor load y lowest

/-- Of two commits of which one continues the other, the earlier one is the lowest. -/
theorem Ancestor.lowestCommon {a b : ObjectId} (h : Ancestor load a b) : LowestCommon load a b a :=
  ⟨Ancestor.refl a, h, fun _ hy _ => hy⟩

/-! ## 2. The way to shared commits -/

/-- The way from a commit leads to itself, and on from the first of its parents that reaches a
shared commit. -/
inductive Toward (load : Loader ε) (Shared : ObjectId → Prop) : ObjectId → ObjectId → Prop
  | refl (id : ObjectId) : Toward load Shared id id
  | onward {id p reached : ObjectId} {c : Commit} {before after : List ObjectId} :
      load id = .ok c → c.parents = before ++ p :: after →
      (∀ q ∈ before, ¬Reaches load Shared q) → Reaches load Shared p →
      Toward load Shared p reached → Toward load Shared id reached

variable {Shared : ObjectId → Prop}

theorem Toward.ancestor {id reached : ObjectId} (h : Toward load Shared id reached) :
    Ancestor load reached id := by
  induction h with
  | refl => exact Ancestor.refl _
  | onward hc hparents _ _ _ ih =>
    exact ih.trans (Parent.ancestor ((parent_iff hc).mpr (by simp [hparents])))

/-- The descent follows the way. -/
theorem Meets.toward {id found : ObjectId} (h : Meets load Shared id found) :
    Toward load Shared id found := by
  induction h with
  | here => exact Toward.refl _
  | onward _ hc hparents hbefore hp ih => exact Toward.onward hc hparents hbefore hp.reaches ih

/-- The descent stops at the first shared commit: any other one on the way lies beyond it. -/
theorem Meets.toward_of_shared {id found reached : ObjectId} (h : Meets load Shared id found)
    (way : Toward load Shared id reached) (hshared : Shared reached) :
    Toward load Shared found reached := by
  induction h with
  | here => exact way
  | onward hnot hc hparents hbefore hp ih =>
    cases way with
    | refl => exact absurd hshared hnot
    | onward hc' hparents' hbefore' hp' way =>
      obtain rfl := Except.ok.inj (hc.symm.trans hc')
      obtain rfl := first_unique (hparents.symm.trans hparents') hbefore hp.reaches hbefore' hp'
      exact ih way

/-- Where the shared commits on a way are ancestors of one of them, the descent stops at that one
exactly when it lies on the way. -/
theorem Meets.eq_iff_toward (acyclic : Acyclic load) {id found lowest : ObjectId}
    (h : Meets load Shared id found) (hlowest : Shared lowest)
    (above : Ancestor load found lowest) : found = lowest ↔ Toward load Shared id lowest := by
  constructor
  · rintro rfl
    exact h.toward
  · intro way
    exact acyclic.antisymm above (h.toward_of_shared way hlowest).ancestor

/-! ## 3. The split point -/

variable {ids : Finset ObjectId}

/-- **When the split point is the lowest common ancestor.**  In a finite graph without cycles in
which every load succeeds, two commits with a lowest common ancestor have a split point; it is an
ancestor of the lowest one, and is the lowest one exactly when the way from the other tip leads
there.  So a head that the other tip continues is the split point exactly when the way from the
other tip leads back to the head. -/
theorem splitPoint_eq_lowest_iff (closed : Closed load ids) (acyclic : Acyclic load)
    {head other : ObjectId} (hhead : head ∈ ids) (hother : other ∈ ids) {count : Nat}
    (enough : ids.card ≤ count) :
    (∀ lowest, LowestCommon load head other lowest →
      (∃ found, splitPoint load count head other = .ok (some found) ∧
        Ancestor load found lowest) ∧
      (splitPoint load count head other = .ok (some lowest) ↔
        Toward load (Ancestor load · head) other lowest)) ∧
    (Ancestor load head other →
      (splitPoint load count head other = .ok (some head) ↔
        Toward load (Ancestor load · head) other head)) := by
  have main : ∀ lowest, LowestCommon load head other lowest →
      (∃ found, splitPoint load count head other = .ok (some found) ∧
        Ancestor load found lowest) ∧
      (splitPoint load count head other = .ok (some lowest) ↔
        Toward load (Ancestor load · head) other lowest) := by
    intro lowest h
    rcases splitPoint_cases closed acyclic hhead hother enough with ⟨found, hfound, hrun⟩ | ⟨hno, -⟩
    · have above : Ancestor load found lowest := h.above found hfound.shared hfound.ancestor
      refine ⟨⟨found, hrun, above⟩, ?_⟩
      rw [hrun, ← hfound.eq_iff_toward acyclic h.left above]
      simp
    · exact absurd ⟨lowest, h.left, h.right⟩ hno
  exact ⟨main, fun h => (main head h.lowestCommon).2⟩

end

/-! ## 4. A tip that has merged the head -/

namespace BackMerge

/-- The first commit. -/
def base : Commit := ⟨"A", Time.Moment.epoch, [], ∅⟩

/-- The commit behind it, at the head. -/
def mine : Commit := ⟨"X", Time.Moment.epoch, [base.id], ∅⟩

/-- The other tip, in which the head is merged into the first commit. -/
def theirs : Commit := ⟨"O", Time.Moment.epoch, [base.id, mine.id], ∅⟩

theorem ids_ne : base.id ≠ mine.id ∧ base.id ≠ theirs.id ∧ mine.id ≠ theirs.id := by decide +kernel

/-- Finds the three commits. -/
def load : Loader Unit := fun id =>
  if id = base.id then .ok base
  else if id = mine.id then .ok mine
  else if id = theirs.id then .ok theirs
  else .error ()

theorem load_base : load base.id = .ok base := by simp [load]

theorem load_mine : load mine.id = .ok mine := by simp [load, ids_ne.1.symm]

theorem load_theirs : load theirs.id = .ok theirs := by
  simp [load, ids_ne.2.1.symm, ids_ne.2.2.symm]

/-- All that can be found. -/
def ids : Finset ObjectId := {base.id, mine.id, theirs.id}

theorem closed : Closed load ids := by
  intro id hid
  simp only [ids, Finset.mem_insert, Finset.mem_singleton] at hid
  rcases hid with rfl | rfl | rfl
  · exact ⟨base, load_base, rfl, by simp [base]⟩
  · exact ⟨mine, load_mine, rfl, by simp [mine, ids]⟩
  · exact ⟨theirs, load_theirs, rfl, by simp [theirs, ids]⟩

theorem parent_cases {p c : ObjectId} (h : Parent load p c) :
    (p = base.id ∧ (c = mine.id ∨ c = theirs.id)) ∨ (p = mine.id ∧ c = theirs.id) := by
  obtain ⟨found, hfound, hp⟩ := h
  simp only [load] at hfound
  split at hfound
  · obtain rfl := Except.ok.inj hfound
    simp [base] at hp
  · split at hfound
    · obtain rfl := Except.ok.inj hfound
      simp_all [mine]
    · split at hfound
      · obtain rfl := Except.ok.inj hfound
        simp_all [theirs]
      · cases hfound

/-- The commits are numbered so that each has a greater number than its parents. -/
theorem acyclic : Acyclic load := by
  let number : ObjectId → Nat := fun id => if id = base.id then 0 else if id = mine.id then 1 else 2
  have rises : ∀ {p c}, Relation.TransGen (Parent load) p c → number p < number c := by
    intro p c h
    have step : ∀ {p c}, Parent load p c → number p < number c := by
      intro p c h
      rcases parent_cases h with ⟨rfl, rfl | rfl⟩ | ⟨rfl, rfl⟩ <;>
        simp [number, ids_ne.1.symm, ids_ne.2.1.symm, ids_ne.2.2.symm]
    induction h with
    | single h => exact step h
    | tail _ h ih => exact ih.trans (step h)
  exact fun id h => lt_irrefl _ (rises h)

theorem mine_ancestor_theirs : Ancestor load mine.id theirs.id :=
  Parent.ancestor ⟨theirs, load_theirs, by simp [theirs]⟩

theorem base_ancestor_mine : Ancestor load base.id mine.id :=
  Parent.ancestor ⟨mine, load_mine, by simp [mine]⟩

/-- From the other tip the descent goes to its first parent, which the head shares. -/
theorem meets_base : Meets load (Ancestor load · mine.id) theirs.id base.id := by
  refine Meets.onward ?_ load_theirs (show theirs.parents = [] ++ base.id :: [mine.id] from rfl)
    (by simp) (Meets.here base_ancestor_mine)
  exact fun h => ids_ne.2.2 (acyclic.antisymm mine_ancestor_theirs h)

end BackMerge

open BackMerge in
/-- The head of a tip that has been merged into it, found from that tip: a graph in which the split
point is the lowest common ancestor. -/
theorem splitPoint_of_merged_tip :
    Closed load ids ∧ Acyclic load ∧ theirs.id ∈ ids ∧ mine.id ∈ ids ∧ ids.card ≤ 3 ∧
      LowestCommon load theirs.id mine.id mine.id ∧
      splitPoint load 3 theirs.id mine.id = .ok (some mine.id) := by
  have hcard : ids.card ≤ 3 := Finset.card_le_three
  have htheirs : theirs.id ∈ ids := by simp [ids]
  have hmine : mine.id ∈ ids := by simp [ids]
  have lowest : LowestCommon load theirs.id mine.id mine.id :=
    ⟨mine_ancestor_theirs, Ancestor.refl _, fun _ _ h => h⟩
  have split := (splitPoint_eq_lowest_iff closed acyclic htheirs hmine hcard).1 mine.id lowest
  exact ⟨closed, acyclic, htheirs, hmine, hcard, lowest, split.2.mpr (Toward.refl _)⟩

open BackMerge in
/-- **A head behind the other tip need not be the split point.**  The head is an ancestor of the
other tip, so it is the lowest common ancestor, and yet the search from the other tip finds the
first commit before it. -/
theorem splitPoint_misses_head_behind :
    Closed load ids ∧ Acyclic load ∧ mine.id ∈ ids ∧ theirs.id ∈ ids ∧ ids.card ≤ 3 ∧
      Ancestor load mine.id theirs.id ∧ LowestCommon load mine.id theirs.id mine.id ∧
      splitPoint load 3 mine.id theirs.id = .ok (some base.id) ∧
      splitPoint load 3 mine.id theirs.id ≠ .ok (some mine.id) := by
  have hcard : ids.card ≤ 3 := Finset.card_le_three
  have hmine : mine.id ∈ ids := by simp [ids]
  have htheirs : theirs.id ∈ ids := by simp [ids]
  have split : splitPoint load 3 mine.id theirs.id = .ok (some base.id) :=
    (splitPoint_eq_some_iff closed acyclic hmine htheirs hcard).mpr meets_base
  refine ⟨closed, acyclic, hmine, htheirs, hcard, mine_ancestor_theirs,
    mine_ancestor_theirs.lowestCommon, split, ?_⟩
  rw [split]
  simp [ids_ne.1]

end LocalVcs.History
