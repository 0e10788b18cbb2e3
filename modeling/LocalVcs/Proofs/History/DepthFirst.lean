/-
# The search is depth-first search

A search through the ancestors keeps the ids that are still to be visited on a stack.  The textbook
does without: to visit an id is to yield it and then to visit its parents, one after the other, and
what has been visited is skipped (`DepthFirst`).  This file proves that both yield the same,
whatever the graph is like: there may be cycles, parents that cannot be loaded, and any number of
parents. Only finitely many of the ids that can be reached can be loaded.

* `DepthFirst.unique`, `exists_depthFirst`: the recursive search ends, and in one way only.
* `DepthFirst.mem_iff_ancestor`: it comes to what can be reached, and to nothing else.
* `DepthFirst.yields`: the search with a stack yields the same, as far as the first load that fails.
* `DepthFirst.exists_line`: where there are no cycles, it begins with the line of first parents.
* `Search.yields_depth_first`: all of this about the search from one commit.
* `Closed.exists_visits`, `collect_start`: where every load succeeds, the search from a commit
  yields its ancestors, the commit among them.
-/
import LocalVcs.Proofs.History.Ancestry

namespace LocalVcs.History

section

variable {ε : Type} {load : Loader ε}

/-! ## 1. The recursive search -/

/-- The parents of the commit that an id finds; none where it finds no commit. -/
def parentsOf (load : Loader ε) (id : ObjectId) : List ObjectId :=
  match load id with
  | .ok c => c.parents
  | .error _ => []

theorem parentsOf_ok {id : ObjectId} {c : Commit} (h : load id = .ok c) :
    parentsOf load id = c.parents := by
  rw [parentsOf, h]

theorem parent_iff_mem_parentsOf {p id : ObjectId} : Parent load p id ↔ p ∈ parentsOf load id := by
  cases h : load id with
  | error e => simp [Parent, parentsOf, h]
  | ok c => rw [parentsOf_ok h, parent_iff h]

/-- The recursive search.  With the ids of `seen` behind it, it visits those of an agenda in turn,
and `order` are the ids that it newly comes to.  An id that has been seen is skipped; any other one
is followed by what the search comes to from its parents, and then by what it comes to from the rest
of the agenda. -/
inductive DepthFirst (load : Loader ε) : List ObjectId → List ObjectId → List ObjectId → Prop
  | done {seen : List ObjectId} : DepthFirst load seen [] []
  | skip {id : ObjectId} {seen rest order : List ObjectId} :
      id ∈ seen → DepthFirst load seen rest order → DepthFirst load seen (id :: rest) order
  | visit {id : ObjectId} {seen rest below order : List ObjectId} :
      id ∉ seen → DepthFirst load (id :: seen) (parentsOf load id) below →
      DepthFirst load (below.reverse ++ id :: seen) rest order →
      DepthFirst load seen (id :: rest) (id :: (below ++ order))

namespace DepthFirst

variable {seen agenda order : List ObjectId}

theorem unique {other : List ObjectId} (h : DepthFirst load seen agenda order)
    (h' : DepthFirst load seen agenda other) : order = other := by
  induction h generalizing other with
  | done => cases h'; rfl
  | skip hseen _ ih =>
    cases h' with
    | skip _ rest => exact ih rest
    | visit hnew => exact absurd hseen hnew
  | visit hnew _ _ ihBelow ihRest =>
    cases h' with
    | skip hseen => exact absurd hseen hnew
    | visit _ below' rest' =>
      obtain rfl := ihBelow below'
      rw [ihRest rest']

/-- A search comes to no id twice, and to none that it has seen. -/
theorem nodup (h : DepthFirst load seen agenda order) :
    order.Nodup ∧ ∀ id ∈ order, id ∉ seen := by
  induction h with
  | done => simp
  | skip _ _ ih => exact ih
  | @visit id seen rest below order hnew _ _ ihBelow ihRest =>
    obtain ⟨nodupBelow, newBelow⟩ := ihBelow
    obtain ⟨nodupRest, newRest⟩ := ihRest
    simp only [List.mem_cons, List.mem_append, List.mem_reverse, not_or] at newBelow newRest
    refine ⟨List.nodup_cons.mpr ⟨?_, ?_⟩, ?_⟩
    · intro hmem
      rcases List.mem_append.mp hmem with h | h
      · exact (newBelow id h).1 rfl
      · exact (newRest id h).2.1 rfl
    · refine nodupBelow.append nodupRest ?_
      exact fun x hx hx' => (newRest x hx').1 hx
    · intro x hx
      rcases List.mem_cons.mp hx with rfl | hx
      · exact hnew
      · rcases List.mem_append.mp hx with h | h
        · exact (newBelow x h).2
        · exact (newRest x h).2.2

/-- Visiting one agenda and then another is visiting both. -/
theorem append {agenda' order' : List ObjectId} (h : DepthFirst load seen agenda order)
    (h' : DepthFirst load (order.reverse ++ seen) agenda' order') :
    DepthFirst load seen (agenda ++ agenda') (order ++ order') := by
  induction h with
  | done => exact h'
  | skip hseen _ ih => exact .skip hseen (ih h')
  | visit hnew below _ _ ihRest =>
    rw [List.cons_append, List.cons_append, List.append_assoc]
    exact .visit hnew below (ihRest (by simpa using h'))

/-- Ids that have been seen may as well be left out of the agenda. -/
theorem filter (keep : ObjectId → Bool) (h : DepthFirst load seen agenda order)
    (dropped : ∀ id ∈ agenda, keep id = false → id ∈ seen) :
    DepthFirst load seen (agenda.filter keep) order := by
  induction h with
  | done => exact .done
  | @skip id seen rest order hseen _ ih =>
    have ih := ih fun x hx => dropped x (List.mem_cons_of_mem _ hx)
    cases hkeep : keep id with
    | true => rw [List.filter_cons_of_pos hkeep]; exact .skip hseen ih
    | false => rw [List.filter_cons_of_neg (by simp [hkeep])]; exact ih
  | @visit id seen rest below order hnew hbelow _ _ ihRest =>
    have hkeep : keep id = true := by
      cases h : keep id with
      | true => rfl
      | false => exact absurd (dropped id List.mem_cons_self h) hnew
    rw [List.filter_cons_of_pos hkeep]
    refine .visit hnew hbelow (ihRest fun x hx h => ?_)
    exact List.mem_append_right _
      (List.mem_cons_of_mem _ (dropped x (List.mem_cons_of_mem _ hx) h))

end DepthFirst

/-- The ids in a finite graph that have not been visited: each item of the search uses one up. -/
def unvisited (ids : Finset ObjectId) (visited : List ObjectId) : Finset ObjectId :=
  ids.filter (· ∉ visited)

theorem card_unvisited_cons {ids : Finset ObjectId} {id : ObjectId} {visited : List ObjectId}
    (hid : id ∈ ids) (h : id ∉ visited) :
    (unvisited ids (id :: visited)).card < (unvisited ids visited).card := by
  refine Finset.card_lt_card ⟨?_, ?_⟩
  · intro x hx
    simp only [unvisited, Finset.mem_filter, List.mem_cons, not_or] at hx ⊢
    exact ⟨hx.1, hx.2.2⟩
  · intro hsub
    have : id ∈ unvisited ids (id :: visited) := hsub (by simp [unvisited, hid, h])
    simp [unvisited] at this

theorem unvisited_subset {ids : Finset ObjectId} {visited more : List ObjectId}
    (h : visited ⊆ more) : unvisited ids more ⊆ unvisited ids visited := by
  intro id hid
  simp only [unvisited, Finset.mem_filter] at hid ⊢
  exact ⟨hid.1, fun hvisited => hid.2 (h hvisited)⟩

/-- **The recursive search ends** where finitely many of the ids that can be reached can be loaded:
each of them is visited at most once, and what cannot be loaded leads nowhere. -/
theorem exists_depthFirst {ids : Finset ObjectId} {seen agenda : List ObjectId}
    (finite : ∀ s ∈ agenda, ∀ id c, Ancestor load id s → load id = .ok c → id ∈ ids) :
    ∃ order, DepthFirst load seen agenda order := by
  suffices ends : ∀ (n : Nat) (agenda seen : List ObjectId), (unvisited ids seen).card < n →
      (∀ s ∈ agenda, ∀ id c, Ancestor load id s → load id = .ok c → id ∈ ids) →
      ∃ order, DepthFirst load seen agenda order from ends _ agenda seen (Nat.lt_succ_self _) finite
  intro n
  induction n with
  | zero => exact fun _ _ h => absurd h (Nat.not_lt_zero _)
  | succ n ihn =>
    intro agenda
    induction agenda with
    | nil => exact fun seen _ _ => ⟨[], .done⟩
    | cons id rest ihrest =>
      intro seen hcard finite
      obtain ⟨finiteId, finiteRest⟩ := List.forall_mem_cons.mp finite
      by_cases hseen : id ∈ seen
      · obtain ⟨order, h⟩ := ihrest seen hcard finiteRest
        exact ⟨order, .skip hseen h⟩
      · obtain ⟨below, hbelow⟩ :
            ∃ below, DepthFirst load (id :: seen) (parentsOf load id) below := by
          cases hload : load id with
          | error e => exact ⟨[], by rw [parentsOf, hload]; exact .done⟩
          | ok c =>
            have fewer := card_unvisited_cons (finiteId id c (Ancestor.refl id) hload) hseen
            refine ihn _ _ (by omega) fun p hp a found hanc => finiteId a found ?_
            exact hanc.trans (parent_iff_mem_parentsOf.mpr hp).ancestor
        have left : (unvisited ids (below.reverse ++ id :: seen)).card ≤
            (unvisited ids seen).card :=
          Finset.card_le_card (unvisited_subset (by simp))
        obtain ⟨order, hrest⟩ := ihrest (below.reverse ++ id :: seen) (by omega) finiteRest
        exact ⟨id :: (below ++ order), .visit hseen hbelow hrest⟩

/-! ## 2. What can be reached -/

namespace DepthFirst

variable {seen agenda order : List ObjectId}

/-- Where a search has been, it has been everywhere behind. -/
theorem closed (h : DepthFirst load seen agenda order) :
    (∀ id ∈ agenda, id ∈ order ∨ id ∈ seen) ∧
      ∀ id ∈ order, ∀ p, Parent load p id → p ∈ order ∨ p ∈ seen := by
  induction h with
  | done => simp
  | skip hseen _ ih => exact ⟨List.forall_mem_cons.mpr ⟨Or.inr hseen, ih.1⟩, ih.2⟩
  | @visit id seen rest below order _ _ _ ihBelow ihRest =>
    simp only [List.mem_append, List.mem_reverse, List.mem_cons] at ihBelow ihRest ⊢
    refine ⟨?_, ?_⟩
    · rintro x (rfl | hx)
      · exact Or.inl (Or.inl rfl)
      · have := ihRest.1 x hx
        tauto
    · rintro x (rfl | hx | hx) p hp
      · have := ihBelow.1 p (parent_iff_mem_parentsOf.mp hp)
        tauto
      · have := ihBelow.2 x hx p hp
        tauto
      · have := ihRest.2 x hx p hp
        tauto

/-- A search comes to ancestors of its agenda only. -/
theorem exists_ancestor (h : DepthFirst load seen agenda order) :
    ∀ a ∈ order, ∃ id ∈ agenda, Ancestor load a id := by
  induction h with
  | done => simp
  | skip _ _ ih =>
    intro a ha
    obtain ⟨id, hid, hanc⟩ := ih a ha
    exact ⟨id, List.mem_cons_of_mem _ hid, hanc⟩
  | @visit id seen rest below order _ _ _ ihBelow ihRest =>
    intro a ha
    rcases List.mem_cons.mp ha with rfl | ha
    · exact ⟨a, List.mem_cons_self, Ancestor.refl a⟩
    · rcases List.mem_append.mp ha with ha | ha
      · obtain ⟨p, hp, hanc⟩ := ihBelow a ha
        exact ⟨id, List.mem_cons_self,
          hanc.trans (Parent.ancestor (parent_iff_mem_parentsOf.mpr hp))⟩
      · obtain ⟨id', hid', hanc⟩ := ihRest a ha
        exact ⟨id', List.mem_cons_of_mem _ hid', hanc⟩

/-- **A search from one id comes to what can be reached from it**, and to nothing else. -/
theorem mem_iff_ancestor {start : ObjectId} (h : DepthFirst load [] [start] order) (a : ObjectId) :
    a ∈ order ↔ Ancestor load a start := by
  constructor
  · intro ha
    obtain ⟨id, hid, hanc⟩ := h.exists_ancestor a ha
    rwa [List.mem_singleton.mp hid] at hanc
  · intro hanc
    obtain ⟨agenda, parents⟩ := h.closed
    induction hanc using Relation.ReflTransGen.head_induction_on with
    | refl => simpa using agenda start
    | head hp _ ih => simpa using parents _ ih _ hp

end DepthFirst

/-! ## 3. The search with a stack -/

/-- Items as far as the first failure, which is the last one then. -/
def upToFailure : List (Except ε Commit) → List (Except ε Commit)
  | [] => []
  | .ok c :: rest => .ok c :: upToFailure rest
  | .error e :: _ => [.error e]

theorem upToFailure_isInitial : ∀ items : List (Except ε Commit), upToFailure items <+: items
  | [] => List.prefix_refl []
  | .ok _ :: rest => List.cons_prefix_cons.mpr ⟨rfl, upToFailure_isInitial rest⟩
  | .error _ :: rest => ⟨rest, rfl⟩

theorem upToFailure_eq_self : ∀ {items : List (Except ε Commit)},
    (∀ x ∈ upToFailure items, ∃ c, x = .ok c) → upToFailure items = items
  | [], _ => rfl
  | .ok c :: rest, h => by
    rw [upToFailure, List.forall_mem_cons] at h
    rw [upToFailure, upToFailure_eq_self h.2]
  | .error e :: rest, h => by
    obtain ⟨c, hc⟩ := h (.error e) (by simp [upToFailure])
    cases hc

/-- The search with a stack yields these items and has ended then. -/
inductive Search.Yields (load : Loader ε) : Search → List (Except ε Commit) → Prop
  | ended {s : Search} : s.next load = none → Yields load s []
  | item {s behind : Search} {x : Except ε Commit} {items : List (Except ε Commit)} :
      s.next load = some (x, behind) → Yields load behind items → Yields load s (x :: items)

theorem Search.Yields.items_eq {s : Search} {items : List (Except ε Commit)}
    (h : s.Yields load items) (count : Nat) : s.items load count = items.take count := by
  induction h generalizing count with
  | ended hnext => cases count <;> simp [Search.items, hnext]
  | item hnext _ ih => cases count <;> simp [Search.items, hnext, ih]

/-- What has been visited is taken off the stack and passed over. -/
theorem Search.Yields.of_seen {id : ObjectId} {pending seen : List ObjectId}
    {items : List (Except ε Commit)} (hseen : id ∈ seen)
    (h : Search.Yields load ⟨pending, seen⟩ items) :
    Search.Yields load ⟨id :: pending, seen⟩ items := by
  have same : Search.next load ⟨id :: pending, seen⟩ = Search.next load ⟨pending, seen⟩ := by
    simp [Search.next, Search.nextFrom, hseen]
  cases h with
  | ended hnext => exact .ended (same.trans hnext)
  | item hnext rest => exact .item (same.trans hnext) rest

/-- **The stack holds what is left of the agendas.**  What the recursive search comes to from the
ids on the stack is what the search with the stack yields, as far as the first load that fails. -/
theorem DepthFirst.yields {seen pending order : List ObjectId}
    (h : DepthFirst load seen pending order) :
    Search.Yields load ⟨pending, seen⟩ (upToFailure (order.map load)) := by
  -- by induction on the number of ids to come; those passed over do not count
  suffices main : ∀ (n : Nat) {seen pending order : List ObjectId}, order.length < n →
      DepthFirst load seen pending order →
      Search.Yields load ⟨pending, seen⟩ (upToFailure (order.map load)) from
    main _ (Nat.lt_succ_self _) h
  intro n
  induction n with
  | zero => exact fun hlen => absurd hlen (Nat.not_lt_zero _)
  | succ n ihn =>
    intro seen pending order hlen h
    induction h with
    | done => exact .ended rfl
    | skip hseen _ ih => exact (ih hlen).of_seen hseen
    | @visit id seen rest below order hnew hbelow hrest _ _ =>
      rw [List.map_cons]
      cases hload : load id with
      | error e =>
        have stops : Search.next load ⟨id :: rest, seen⟩ = some (.error e, ⟨[], id :: seen⟩) := by
          simp [Search.next, Search.nextFrom, hnew, hload]
        exact .item stops (.ended rfl)
      | ok c =>
        rw [parentsOf_ok hload] at hbelow
        -- the stack takes the parents that are new, the recursion skips the others
        have fresh := hbelow.filter (fun p => p ∉ id :: seen)
          fun p _ hp => not_not.mp (of_decide_eq_false hp)
        refine .item ?_ (ihn (by simpa using hlen) (fresh.append hrest))
        simp [Search.next, Search.nextFrom, hnew, hload]

/-! ## 4. The line of first parents -/

theorem Chain.items_none (count : Nat) : Chain.items load count none = [] := by
  cases count <;> rfl

theorem Chain.items_error {id : ObjectId} {e : ε} (h : load id = .error e) (count : Nat) :
    Chain.items load count (some id) = [.error e].take count := by
  cases count <;> simp [Chain.items, Chain.next, h, Chain.items_none]

/-- A commit comes before the chain of its first parent. -/
theorem Chain.items_ok {id : ObjectId} {c : Commit} {line : List (Except ε Commit)}
    (h : load id = .ok c) (below : ∀ count, Chain.items load count c.parent? = line.take count)
    (count : Nat) : Chain.items load count (some id) = (.ok c :: line).take count := by
  cases count <;> simp [Chain.items, Chain.next, h, below]

theorem upToFailure_isInitial_append (items more : List (Except ε Commit)) :
    upToFailure items <+: upToFailure (items ++ more) := by
  induction items with
  | nil => exact List.nil_prefix
  | cons x items ih =>
    cases x with
    | ok c => exact List.cons_prefix_cons.mpr ⟨rfl, ih⟩
    | error e => exact List.prefix_refl _

/-- **A search begins with the line of first parents**, where all that it has seen are proper
descendants of the commit that is next.  The line ends, or stops at a load that fails. -/
theorem DepthFirst.exists_line (acyclic : Acyclic load) {seen agenda order : List ObjectId}
    (h : DepthFirst load seen agenda order) {id : ObjectId} {rest : List ObjectId}
    (first : agenda = id :: rest) (behind : ∀ v ∈ seen, Relation.TransGen (Parent load) id v) :
    ∃ line : List (Except ε Commit), (∀ count, Chain.items load count (some id) = line.take count) ∧
      line <+: upToFailure (order.map load) := by
  induction h generalizing id rest with
  | done => cases first
  | skip hseen _ _ =>
    obtain ⟨rfl, -⟩ := List.cons.inj first
    exact absurd (behind _ hseen) (acyclic _)
  | @visit id' seen rest' below order hnew hbelow _ ihBelow _ =>
    obtain ⟨rfl, rfl⟩ := List.cons.inj first
    rw [List.map_cons]
    cases hload : load id' with
    | error e => exact ⟨[.error e], Chain.items_error hload, List.prefix_refl _⟩
    | ok c =>
      cases hparents : c.parents with
      | nil =>
        have last : c.parent? = none := by simp [Commit.parent?, hparents]
        refine ⟨[.ok c], Chain.items_ok hload fun count => ?_, ?_⟩
        · rw [last, Chain.items_none, List.take_nil]
        · exact List.cons_prefix_cons.mpr ⟨rfl, List.nil_prefix⟩
      | cons p others =>
        have hparent : c.parent? = some p := by simp [Commit.parent?, hparents]
        have parent : Parent load p id' := (parent_iff hload).mpr (by simp [hparents])
        have behind' : ∀ v ∈ id' :: seen, Relation.TransGen (Parent load) p v :=
          List.forall_mem_cons.mpr ⟨.single parent, fun v hv => .head parent (behind v hv)⟩
        obtain ⟨line, hline, starts⟩ :=
          ihBelow ((parentsOf_ok hload).trans hparents) behind'
        refine ⟨.ok c :: line, Chain.items_ok hload (hparent ▸ hline), ?_⟩
        rw [List.map_append]
        exact List.cons_prefix_cons.mpr ⟨rfl, starts.trans (upToFailure_isInitial_append _ _)⟩

/-! ## 5. The search from one commit -/

/-- A commit that is yielded is found under the id whose turn it is. -/
theorem exists_id_of_yielded {order : List ObjectId} {i : Nat} {c : Commit}
    (h : (upToFailure (order.map load))[i]? = some (.ok c)) :
    ∃ id, order[i]? = some id ∧ load id = .ok c := by
  obtain ⟨hi, hat⟩ := List.getElem?_eq_some_iff.mp h
  have hmap := List.prefix_iff_getElem?.mp (upToFailure_isInitial (order.map load)) i hi
  rw [hat, List.getElem?_map, Option.map_eq_some_iff] at hmap
  exact hmap

/-- Where no commit is found under two ids, none is yielded twice. -/
theorem DepthFirst.eq_of_yielded {seen agenda order : List ObjectId}
    (h : DepthFirst load seen agenda order)
    (single : ∀ a b c, load a = .ok c → load b = .ok c → a = b) {i j : Nat} {c : Commit}
    (hi : (upToFailure (order.map load))[i]? = some (.ok c))
    (hj : (upToFailure (order.map load))[j]? = some (.ok c)) : i = j := by
  obtain ⟨a, ha, hloada⟩ := exists_id_of_yielded hi
  obtain ⟨b, hb, hloadb⟩ := exists_id_of_yielded hj
  obtain rfl := single a b c hloada hloadb
  obtain ⟨inside, -⟩ := List.getElem?_eq_some_iff.mp ha
  exact (List.getElem?_inj inside h.nodup.1).mp (ha.trans hb.symm)

/-- **The search is depth-first search.**  Where finitely many ids can be loaded, the recursive
search from an id ends, with one list of ids: all that can be reached, each once.  The search with
the stack ends too, and yields what these ids find, in the same order; the first load that fails is
the last item.  So where none fails, all that can be reached is yielded; and no commit is yielded
twice unless it is found under two ids.  Where there are no cycles, the walk down the first parents
ends, and the search begins with what it yields. -/
theorem Search.yields_depth_first {ids : Finset ObjectId}
    (finite : ∀ id c, load id = .ok c → id ∈ ids) (start : ObjectId) :
    ∃ (order : List ObjectId) (yielded : List (Except ε Commit)),
      (∀ found, DepthFirst load [] [start] found ↔ found = order) ∧
      order.Nodup ∧ (∀ a, a ∈ order ↔ Ancestor load a start) ∧
      yielded = upToFailure (order.map load) ∧
      (∀ count, (Search.start start).items load count = yielded.take count) ∧
      ((∀ x ∈ yielded, ∃ c, x = .ok c) → yielded = order.map load) ∧
      ((∀ (a b : ObjectId) (c : Commit), load a = .ok c → load b = .ok c → a = b) →
        ∀ (i j : Nat) (c : Commit),
          yielded[i]? = some (.ok c) → yielded[j]? = some (.ok c) → i = j) ∧
      (Acyclic load → ∃ line : List (Except ε Commit), line <+: yielded ∧
        ∀ count, Chain.items load count (some start) = line.take count) := by
  obtain ⟨order, h⟩ : ∃ order, DepthFirst load [] [start] order :=
    exists_depthFirst fun _ _ id c _ => finite id c
  refine ⟨order, _, fun found => ⟨fun h' => h'.unique h, fun heq => heq ▸ h⟩, h.nodup.1,
    h.mem_iff_ancestor, rfl, h.yields.items_eq, upToFailure_eq_self, ?_, ?_⟩
  · exact fun single i j c hi hj => h.eq_of_yielded single hi hj
  · intro acyclic
    obtain ⟨line, hline, starts⟩ := h.exists_line acyclic rfl (by simp)
    exact ⟨line, starts, hline⟩

/-! ## 6. Where every load succeeds -/

theorem upToFailure_map_ok (cs : List Commit) :
    upToFailure (ε := ε) (cs.map .ok) = cs.map .ok := by
  induction cs with
  | nil => rfl
  | cons c cs ih => simp [upToFailure, ih]

theorem collect_map_ok (cs : List Commit) : collect (ε := ε) (cs.map .ok) = .ok cs := by
  induction cs with
  | nil => rfl
  | cons c cs ih => simp [collect, ih, Except.map]

variable {ids : Finset ObjectId} {count : Nat} {start : ObjectId}

/-- The commits that the search from one of them yields, in its order; it has ended then. -/
structure Search.Visits (load : Loader ε) (count : Nat) (start : ObjectId) (cs : List Commit) :
    Prop where
  order : DepthFirst load [] [start] (cs.map Commit.id)
  loads : (cs.map Commit.id).map load = cs.map .ok
  items : (Search.start start).items load count = cs.map .ok

theorem Search.Visits.mem_iff {cs : List Commit} (h : Visits load count start cs) (a : ObjectId) :
    a ∈ cs.map Commit.id ↔ Ancestor load a start := h.order.mem_iff_ancestor a

/-- The ids of a finite graph find commits with these ids. -/
theorem Closed.exists_commits (closed : Closed load ids) {order : List ObjectId}
    (inside : ∀ id ∈ order, id ∈ ids) :
    ∃ cs : List Commit, cs.map Commit.id = order ∧ order.map load = cs.map .ok := by
  induction order with
  | nil => exact ⟨[], rfl, rfl⟩
  | cons id rest ih =>
    obtain ⟨hid, inside⟩ := List.forall_mem_cons.mp inside
    obtain ⟨c, hload, hown, -⟩ := closed id hid
    obtain ⟨cs, rfl, hcs⟩ := ih inside
    exact ⟨c :: cs, by rw [List.map_cons, hown], by rw [List.map_cons, List.map_cons, hload, hcs]⟩

/-- **The search in a finite graph** yields all that can be reached.  It is enough to ask for as
many items as there are commits in the graph. -/
theorem Closed.exists_visits (closed : Closed load ids) (hstart : start ∈ ids)
    (enough : ids.card ≤ count) : ∃ cs, Search.Visits load count start cs := by
  have reached : ∀ id, Ancestor load id start → id ∈ ids := fun _ => closed.ancestor_mem hstart
  obtain ⟨order, h⟩ : ∃ order, DepthFirst load [] [start] order :=
    exists_depthFirst (List.forall_mem_singleton.mpr fun id _ hanc _ => reached id hanc)
  have inside : ∀ id ∈ order, id ∈ ids := fun id hid => reached id ((h.mem_iff_ancestor id).mp hid)
  have short : order.length ≤ count := (length_le_card h.nodup.1 inside).trans enough
  obtain ⟨cs, rfl, loads⟩ := closed.exists_commits inside
  refine ⟨cs, h, loads, ?_⟩
  rw [Search.start, h.yields.items_eq, loads, upToFailure_map_ok]
  exact List.take_of_length_le (by simpa using short)

/-- **The search collects the ancestors.** -/
theorem collect_start (closed : Closed load ids) (hstart : start ∈ ids)
    (enough : ids.card ≤ count) :
    ∃ cs, collect ((Search.start start).items load count) = .ok cs ∧
      ∀ a, a ∈ cs.map Commit.id ↔ Ancestor load a start := by
  obtain ⟨cs, visits⟩ := closed.exists_visits hstart enough
  exact ⟨cs, by rw [visits.items, collect_map_ok], visits.mem_iff⟩

end

/-! ## 7. A search in a round -/

namespace Round

/-- The id that has one digit only. -/
def id (digit : Char) (hex : Sha1.IsHexDigit digit) : ObjectId where
  text := String.ofList (List.replicate 40 digit)
  length_eq := by simp
  digits c hc := by
    rw [String.toList_ofList] at hc
    exact List.eq_of_mem_replicate hc ▸ hex

/-- Where the search starts.  It has a parent that cannot be loaded. -/
def a : ObjectId := id 'a' (by decide)

/-- The first parent, which has the start as a parent in turn. -/
def b : ObjectId := id 'b' (by decide)

/-- A parent of both of them. -/
def c : ObjectId := id 'c' (by decide)

/-- The parent that cannot be loaded. -/
def lost : ObjectId := id '0' (by decide)

/-- The commit with these parents. -/
def commit (parents : List ObjectId) : Commit := ⟨"", Time.Moment.epoch, parents, ∅⟩

/-- Finds the three commits. -/
def load : Loader Unit := fun id =>
  if id = a then .ok (commit [b, lost, c])
  else if id = b then .ok (commit [a, c])
  else if id = c then .ok (commit [a, b])
  else .error ()

/-- All that can be found. -/
def ids : Finset ObjectId := {a, b, c}

theorem finite : ∀ id c, load id = .ok c → id ∈ ids := by
  intro id c h
  simp only [load] at h
  simp only [ids, Finset.mem_insert, Finset.mem_singleton]
  split at h
  · exact Or.inl ‹_›
  · split at h
    · exact Or.inr (Or.inl ‹_›)
    · split at h
      · exact Or.inr (Or.inr ‹_›)
      · cases h

theorem load_eq : load a = .ok (commit [b, lost, c]) ∧ load b = .ok (commit [a, c]) ∧
    load c = .ok (commit [a, b]) ∧ load lost = .error () := by
  decide +kernel

/-- The recursion comes to `c` by way of `b`, and then passes over it. -/
theorem depthFirst : DepthFirst load [] [a] [a, b, c, lost] := by
  obtain ⟨loadA, loadB, loadC, loadLost⟩ := load_eq
  have below_c : DepthFirst load [c, b, a] (parentsOf load c) [] := by
    rw [parentsOf_ok loadC]
    exact .skip (by simp) (.skip (by simp) .done)
  have below_b : DepthFirst load [b, a] (parentsOf load b) [c] := by
    rw [parentsOf_ok loadB]
    exact .skip (by simp) (.visit (by decide +kernel) below_c .done)
  have below_lost : DepthFirst load [lost, c, b, a] (parentsOf load lost) [] := by
    rw [parentsOf, loadLost]
    exact .done
  have below_a : DepthFirst load [a] (parentsOf load a) [b, c, lost] := by
    rw [parentsOf_ok loadA]
    exact .visit (by decide +kernel) below_b
      (.visit (by decide +kernel) below_lost (.skip (by simp) .done))
  exact .visit (by simp) below_a .done

/-- The search goes round once and stops at the parent that is missing. -/
theorem items_of_round : (∀ id c, load id = .ok c → id ∈ ids) ∧
    ∀ count, (Search.start a).items load count =
      [.ok (commit [b, lost, c]), .ok (commit [a, c]), .ok (commit [a, b]),
        .error ()].take count := by
  refine ⟨finite, fun count => ?_⟩
  obtain ⟨order, yielded, only, -, -, rfl, items, -⟩ := Search.yields_depth_first finite a
  obtain ⟨loadA, loadB, loadC, loadLost⟩ := load_eq
  rw [items, ← (only _).mp depthFirst]
  simp [loadA, loadB, loadC, loadLost, upToFailure]

end Round

end LocalVcs.History
