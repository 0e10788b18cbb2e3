/-
# Ancestors, and one step of the search

Commits form a graph by their parents.  This file says what a commit's ancestors are without the
search of `History.lean`, and what the search does in one step.

* `Parent`, `Ancestor`: the edges of the graph and the ways along them.
* `Acyclic`, `Closed`: a graph without cycles, and a finite one in which every load succeeds.
* `Search.items_seen`, `Search.items_new`: what has been visited is passed over, and what is new is
  yielded.
* `exists_load_of_splitPoint`, `splitPoint_self`: what the split point is in any graph, cycles or
  not.
-/
import LocalVcs.History
import Mathlib.Data.Finset.Card
import Mathlib.Logic.Relation

namespace LocalVcs.History

variable {ε : Type} {load : Loader ε}

/-! ## 1. Ancestors -/

/-- One commit is a parent of another, which can be loaded. -/
def Parent (load : Loader ε) (parent child : ObjectId) : Prop :=
  ∃ c, load child = .ok c ∧ parent ∈ c.parents

/-- One commit is reached from another through parents.  Every commit is its own ancestor. -/
def Ancestor (load : Loader ε) : ObjectId → ObjectId → Prop := Relation.ReflTransGen (Parent load)

theorem Ancestor.refl (id : ObjectId) : Ancestor load id id := Relation.ReflTransGen.refl

theorem Ancestor.trans {a b c : ObjectId} (h : Ancestor load a b) (h' : Ancestor load b c) :
    Ancestor load a c := Relation.ReflTransGen.trans h h'

theorem Parent.ancestor {p c : ObjectId} (h : Parent load p c) : Ancestor load p c :=
  Relation.ReflTransGen.single h

/-- A proper ancestor is an ancestor of a parent. -/
theorem Ancestor.eq_or_parent {a c : ObjectId} (h : Ancestor load a c) :
    a = c ∨ ∃ p, Parent load p c ∧ Ancestor load a p := by
  rcases Relation.ReflTransGen.cases_tail h with h | ⟨p, hp, hc⟩
  · exact Or.inl h.symm
  · exact Or.inr ⟨p, hc, hp⟩

theorem parent_iff {c : Commit} {p child : ObjectId} (h : load child = .ok c) :
    Parent load p child ↔ p ∈ c.parents := by
  constructor
  · rintro ⟨c', hc', hp⟩
    obtain rfl : c = c' := by simpa [h] using hc'
    exact hp
  · exact fun hp => ⟨c, h, hp⟩

/-- The ancestors of a commit are itself and those of its parents. -/
theorem ancestor_iff_parents {c : Commit} {a child : ObjectId} (h : load child = .ok c) :
    Ancestor load a child ↔ a = child ∨ ∃ p ∈ c.parents, Ancestor load a p := by
  constructor
  · intro hanc
    refine hanc.eq_or_parent.imp_right ?_
    rintro ⟨p, hp, hanc⟩
    exact ⟨p, (parent_iff h).mp hp, hanc⟩
  · rintro (rfl | ⟨p, hp, hanc⟩)
    · exact Ancestor.refl a
    · exact hanc.trans (((parent_iff h).mpr hp).ancestor)

/-- Where no more than new commits can be loaded, ancestors stay ancestors. -/
theorem Ancestor.mono {load' : Loader ε} (grows : ∀ id c, load id = .ok c → load' id = .ok c)
    {a c : ObjectId} (h : Ancestor load a c) : Ancestor load' a c :=
  Relation.ReflTransGen.mono (fun _ _ ⟨found, hload, hp⟩ => ⟨found, grows _ _ hload, hp⟩) _ _ h

/-! ## 2. No cycles -/

/-- No commit is its own proper ancestor. -/
def Acyclic (load : Loader ε) : Prop := ∀ id, ¬Relation.TransGen (Parent load) id id

theorem Acyclic.not_parent_of_ancestor (acyclic : Acyclic load) {a p : ObjectId}
    (h : Ancestor load a p) : ¬Parent load p a := fun hp =>
  acyclic p (Relation.TransGen.head' hp h)

theorem Acyclic.antisymm (acyclic : Acyclic load) {a b : ObjectId} (h : Ancestor load a b)
    (h' : Ancestor load b a) : a = b := by
  rcases h.eq_or_parent with h | ⟨p, hp, hap⟩
  · exact h
  · exact absurd hp (acyclic.not_parent_of_ancestor (h'.trans hap))

/-! ## 3. Finite graphs -/

/-- A finite graph in which every load succeeds: each of these ids finds the commit that it names,
and the parents of that commit are among them. -/
def Closed (load : Loader ε) (ids : Finset ObjectId) : Prop :=
  ∀ id ∈ ids, ∃ c, load id = .ok c ∧ c.id = id ∧ ∀ p ∈ c.parents, p ∈ ids

theorem Closed.parent_mem {ids : Finset ObjectId} (closed : Closed load ids) {p c : ObjectId}
    (hc : c ∈ ids) (h : Parent load p c) : p ∈ ids := by
  obtain ⟨found, hfound, -, hp⟩ := closed c hc
  exact hp p ((parent_iff hfound).mp h)

theorem Closed.ancestor_mem {ids : Finset ObjectId} (closed : Closed load ids) {a c : ObjectId}
    (hc : c ∈ ids) (h : Ancestor load a c) : a ∈ ids := by
  induction h using Relation.ReflTransGen.head_induction_on with
  | refl => exact hc
  | head hp _ ih => exact closed.parent_mem ih hp

/-- New commits give no commit of a closed graph an ancestor. -/
theorem Closed.ancestor_iff_of_grows {ids : Finset ObjectId} (closed : Closed load ids)
    {load' : Loader ε} (grows : ∀ id c, load id = .ok c → load' id = .ok c) {a c : ObjectId}
    (hc : c ∈ ids) : Ancestor load' a c ↔ Ancestor load a c := by
  refine ⟨fun h => ?_, Ancestor.mono grows⟩
  suffices old : Ancestor load a c ∧ a ∈ ids from old.1
  induction h using Relation.ReflTransGen.head_induction_on with
  | refl => exact ⟨Ancestor.refl c, hc⟩
  | head hp _ ih =>
    obtain ⟨found, hfound, -, parents⟩ := closed _ ih.2
    have hmem := (parent_iff (grows _ _ hfound)).mp hp
    exact ⟨((parent_iff hfound).mpr hmem).ancestor.trans ih.1, parents _ hmem⟩

/-- Commits that are visited once each are no more than there are. -/
theorem length_le_card {ids : Finset ObjectId} {l : List ObjectId} (nodup : l.Nodup)
    (hl : ∀ id ∈ l, id ∈ ids) : l.length ≤ ids.card := by
  have sub : l ⊆ ids.toList := fun id hid => Finset.mem_toList.mpr (hl id hid)
  rw [← Finset.length_toList]
  exact (nodup.subperm sub).length_le

/-! ## 4. One step of the search -/

namespace Search

variable {count : Nat} {id : ObjectId} {pending visited : List ObjectId}

theorem items_nil : items load count ⟨[], visited⟩ = [] := by
  cases count <;> simp [items, next, nextFrom]

/-- What has been visited is passed over. -/
theorem items_seen (h : id ∈ visited) :
    items load count ⟨id :: pending, visited⟩ = items load count ⟨pending, visited⟩ := by
  cases count <;> simp [items, next, nextFrom, h]

/-- What has not been visited is yielded, and its parents come before all else that is pending. -/
theorem items_new {c : Commit} (h : id ∉ visited) (hc : load id = .ok c) :
    items load (count + 1) ⟨id :: pending, visited⟩ =
      .ok c :: items load count
        ⟨c.parents.filter (fun p => p ∉ id :: visited) ++ pending, id :: visited⟩ := by
  simp [items, next, nextFrom, h, hc]

end Search

/-! ## 5. What is found, in any graph -/

/-- What a search yields has been loaded. -/
theorem Search.load_of_mem_items {count : Nat} {s : Search} {c : Commit}
    (h : .ok c ∈ s.items load count) : ∃ id, load id = .ok c := by
  suffices found : ∀ (count : Nat) (pending visited : List ObjectId),
      .ok c ∈ Search.items load count ⟨pending, visited⟩ → ∃ id, load id = .ok c from
    found count s.pending s.visited h
  intro count
  induction count with
  | zero => simp [items]
  | succ count ih =>
    intro pending visited h
    induction pending with
    | nil => simp [items_nil] at h
    | cons id pending ihp =>
      by_cases seen : id ∈ visited
      · rw [items_seen seen] at h
        exact ihp h
      · cases hload : load id with
        | error e =>
          have hitems : items load (count + 1) ⟨id :: pending, visited⟩ =
              .error e :: items load count ⟨[], id :: visited⟩ := by
            simp [items, next, nextFrom, seen, hload]
          rw [hitems, items_nil] at h
          simp at h
        | ok found =>
          rw [items_new seen hload] at h
          rcases List.mem_cons.mp h with heq | hrest
          · exact ⟨id, by rw [hload, heq]⟩
          · exact ih _ _ hrest

/-- What is found is the id of a commit that has been met. -/
theorem of_firstShared {shared : List ObjectId} {found : ObjectId} :
    ∀ {items : List (Except ε Commit)}, firstShared shared items = .ok (some found) →
      ∃ c, .ok c ∈ items ∧ c.id = found
  | [], h => by cases h
  | .error e :: rest, h => by cases h
  | .ok c :: rest, h => by
    rw [firstShared] at h
    split at h
    · exact ⟨c, by simp, by simpa using h⟩
    · obtain ⟨c', hmem, hid⟩ := of_firstShared h
      exact ⟨c', List.mem_cons_of_mem _ hmem, hid⟩

/-- The split point is the id of a commit that has been loaded. -/
theorem exists_load_of_splitPoint {count : Nat} {head other found : ObjectId}
    (h : splitPoint load count head other = .ok (some found)) :
    ∃ id c, load id = .ok c ∧ c.id = found := by
  simp only [splitPoint, bind, Except.bind] at h
  split at h
  · cases h
  · obtain ⟨c, hmem, hid⟩ := of_firstShared h
    obtain ⟨id, hload⟩ := Search.load_of_mem_items hmem
    exact ⟨id, c, hload, hid⟩

/-- A commit parts from itself nowhere but at itself. -/
theorem splitPoint_self {count : Nat} {id found : ObjectId} {c : Commit} (hload : load id = .ok c)
    (hid : c.id = id) (h : splitPoint load (count + 1) id id = .ok (some found)) : found = id := by
  have first : (Search.start id).items load (count + 1) = .ok c ::
      Search.items load count ⟨c.parents.filter (fun p => p ∉ [id]) ++ [], [id]⟩ :=
    Search.items_new (by simp) hload
  simp only [splitPoint, first, collect, bind, Except.bind] at h
  cases hrest : collect (Search.items load count
      ⟨c.parents.filter (fun p => p ∉ [id]) ++ [], [id]⟩) with
  | error e => rw [hrest] at h; simp [Except.map] at h
  | ok rest =>
    rw [hrest] at h
    simp only [Except.map, List.map_cons, firstShared, List.mem_cons, true_or, if_true,
      Except.ok.injEq, Option.some.injEq] at h
    rw [← h, hid]

end LocalVcs.History
