/-
# The line of first parents

From every commit a line of first parents leads down to a commit without parents.  In a graph
without cycles the depth-first search begins with this whole line (`Line.starts_search`): what it
has visited on the way are the commits in front, and a first parent is none of them.  So no second
parent is met before the line has ended.

In a repository all lines end in one commit (`Founded`).  Two commits then have it in common, so the
search for their split point is over before the line is (`Founded.splitOnLine`): a chain of first
parents decides where two histories part.
-/
import LocalVcs.Proofs.History.Descent

namespace LocalVcs.History

variable {ε : Type} {load : Loader ε}

/-! ## 1. Lines -/

/-- One commit is the first parent of another, which can be loaded. -/
def FirstParent (load : Loader ε) (parent child : ObjectId) : Prop :=
  ∃ c, load child = .ok c ∧ c.parent? = some parent

theorem FirstParent.parent {p c : ObjectId} (h : FirstParent load p c) : Parent load p c := by
  obtain ⟨found, hload, hp⟩ := h
  exact ⟨found, hload, List.mem_of_mem_head? hp⟩

/-- The commits from one on, each followed by its first parent, down to one without parents. -/
inductive Line (load : Loader ε) : ObjectId → List Commit → Prop
  | last {id : ObjectId} {c : Commit} : load id = .ok c → c.parent? = none → Line load id [c]
  | onward {id p : ObjectId} {c : Commit} {cs : List Commit} :
      load id = .ok c → c.parent? = some p → Line load p cs → Line load id (c :: cs)

theorem Line.head {id : ObjectId} {cs : List Commit} (h : Line load id cs) :
    ∃ c rest, cs = c :: rest ∧ load id = .ok c := by
  cases h with
  | last hload => exact ⟨_, [], rfl, hload⟩
  | onward hload => exact ⟨_, _, rfl, hload⟩

theorem Line.mono {load' : Loader ε} {id : ObjectId} {cs : List Commit} (h : Line load id cs)
    (grows : ∀ id c, load id = .ok c → load' id = .ok c) : Line load' id cs := by
  induction h with
  | last hload hend => exact .last (grows _ _ hload) hend
  | onward hload hp _ ih => exact .onward (grows _ _ hload) hp ih

/-- The walk down the first parents yields the line. -/
theorem Line.items {id : ObjectId} {cs : List Commit} (h : Line load id cs) {count : Nat}
    (enough : cs.length ≤ count) : Chain.items load count (some id) = cs.map .ok := by
  induction h generalizing count with
  | last hload hend =>
    obtain ⟨n, rfl⟩ : ∃ n, count = n + 1 := ⟨count - 1, by simp at enough; omega⟩
    have ended : Chain.items load n none = [] := by cases n <;> rfl
    simp [Chain.items, Chain.next, hload, hend, ended]
  | onward hload hp _ ih =>
    obtain ⟨n, rfl⟩ : ∃ n, count = n + 1 := ⟨count - 1, by simp at enough; omega⟩
    simp [Chain.items, Chain.next, hload, hp, ih (by simpa using enough)]

theorem Line.ancestor {ids : Finset ObjectId} (closed : Closed load ids) {id : ObjectId}
    {cs : List Commit} (h : Line load id cs) (hid : id ∈ ids) :
    ∀ c ∈ cs, Ancestor load c.id id := by
  have own : ∀ {id c}, id ∈ ids → load id = .ok c → c.id = id := by
    intro id c hid hload
    obtain ⟨c', hload', hc', -⟩ := closed id hid
    rwa [Except.ok.inj (hload.symm.trans hload')]
  induction h with
  | last hload =>
    simp only [List.mem_singleton, forall_eq]
    exact own hid hload ▸ Ancestor.refl _
  | onward hload hp _ ih =>
    have parent := FirstParent.parent ⟨_, hload, hp⟩
    refine List.forall_mem_cons.mpr ⟨own hid hload ▸ Ancestor.refl _, ?_⟩
    exact fun c hc => (ih (closed.parent_mem hid parent) c hc).trans parent.ancestor

theorem Line.nodup {ids : Finset ObjectId} (closed : Closed load ids) (acyclic : Acyclic load)
    {id : ObjectId} {cs : List Commit} (h : Line load id cs) (hid : id ∈ ids) :
    (cs.map Commit.id).Nodup := by
  induction h with
  | last => simp
  | onward hload hp line ih =>
    have parent := FirstParent.parent ⟨_, hload, hp⟩
    have hp' := closed.parent_mem hid parent
    refine List.nodup_cons.mpr ⟨fun hmem => ?_, ih hp'⟩
    obtain ⟨c', hc', heq⟩ := List.mem_map.mp hmem
    obtain ⟨c, hc, hown, -⟩ := closed _ hid
    obtain rfl := Except.ok.inj (hload.symm.trans hc)
    have above := line.ancestor closed hp' c' hc'
    rw [heq, hown] at above
    exact acyclic.not_parent_of_ancestor above parent

/-- A line without repetitions is no longer than the graph is large. -/
theorem Line.length_le {ids : Finset ObjectId} (closed : Closed load ids) (acyclic : Acyclic load)
    {id : ObjectId} {cs : List Commit} (h : Line load id cs) (hid : id ∈ ids) :
    cs.length ≤ ids.card := by
  rw [← List.length_map Commit.id]
  refine length_le_card (h.nodup closed acyclic hid) ?_
  intro a ha
  obtain ⟨c, hc, rfl⟩ := List.mem_map.mp ha
  exact closed.ancestor_mem hid (h.ancestor closed hid c hc)

/-! ## 2. The search begins with the line -/

/-- **The search begins with the line of first parents**: no second parent comes before it has
ended. -/
theorem Line.starts_search {ids : Finset ObjectId} (closed : Closed load ids)
    (acyclic : Acyclic load) {id : ObjectId} {cs : List Commit} (h : Line load id cs)
    (hid : id ∈ ids)
    {count : Nat} (enough : ids.card ≤ count) :
    ∃ beyond, (Search.start id).items load count = cs.map .ok ++ beyond := by
  obtain ⟨all, visits⟩ := closed.exists_visits hid enough
  obtain ⟨walk, hwalk, starts⟩ := visits.order.exists_line acyclic rfl (by simp)
  rw [visits.loads, upToFailure_map_ok] at starts
  have line : walk.take count = cs.map .ok :=
    (hwalk count).symm.trans (h.items ((h.length_le closed acyclic hid).trans enough))
  obtain ⟨beyond, hall⟩ := (List.take_prefix count walk).trans starts
  exact ⟨beyond, by rw [visits.items, ← hall, line]⟩

/-- Among loaded commits the first one whose id is shared is found. -/
theorem firstShared_append {shared : List ObjectId} {before after : List Commit} {c : Commit}
    (unshared : ∀ b ∈ before, b.id ∉ shared) (hc : c.id ∈ shared)
    (beyond : List (Except ε Commit)) :
    firstShared shared ((before ++ c :: after).map .ok ++ beyond) = .ok (some c.id) := by
  induction before with
  | nil => simp [firstShared, hc]
  | cons b before ih =>
    rw [List.forall_mem_cons] at unshared
    simpa [firstShared, unshared.1] using ih unshared.2

/-! ## 3. One commit at the end of all lines -/

/-- Every chain of first parents ends in one commit, which has no parents. -/
structure Founded (load : Loader ε) (ids : Finset ObjectId) (first : ObjectId) : Prop where
  ends : ∃ c, load first = .ok c ∧ c.parents = []
  reaches : ∀ id ∈ ids, Relation.ReflTransGen (FirstParent load) first id

variable {ids : Finset ObjectId} {first : ObjectId}

/-- Every commit has a line, with the first commit at its end. -/
theorem Founded.exists_line (founded : Founded load ids first) {id : ObjectId} (hid : id ∈ ids) :
    ∃ cs c, Line load id cs ∧ cs.getLast? = some c ∧ load first = .ok c := by
  have reaches := founded.reaches id hid
  clear hid
  induction reaches with
  | refl =>
    obtain ⟨c, hload, hparents⟩ := founded.ends
    exact ⟨[c], c, Line.last hload (by simp [Commit.parent?, hparents]), rfl, hload⟩
  | tail _ hp ih =>
    obtain ⟨c, hload, hparent⟩ := hp
    obtain ⟨cs, end_, line, hlast, hend⟩ := ih
    refine ⟨c :: cs, end_, Line.onward hload hparent line, ?_, hend⟩
    rw [List.getLast?_cons, hlast]
    rfl

theorem Founded.ancestor (founded : Founded load ids first) {id : ObjectId} (hid : id ∈ ids) :
    Ancestor load first id :=
  Relation.ReflTransGen.mono (fun _ _ => FirstParent.parent) _ _ (founded.reaches id hid)

/-- The split point of two commits lies on the line of the other one: of that line, which the search
from the other tip follows, it is the first commit that the search from the head yields as well. -/
structure SplitOnLine (load : Loader ε) (count : Nat) (head other : ObjectId)
    (heads before : List Commit) (c : Commit) (after : List Commit) : Prop where
  /-- The ancestors of the head. -/
  ancestors : (Search.start head).items load count = heads.map .ok
  /-- The first parents of the other tip. -/
  chain : Chain.items load count (some other) = (before ++ c :: after).map .ok
  /-- No second parent comes before them in the search from the other tip. -/
  search : ∃ beyond,
    (Search.start other).items load count = (before ++ c :: after).map .ok ++ beyond
  unshared : ∀ b ∈ before, b.id ∉ heads.map Commit.id
  shared : c.id ∈ heads.map Commit.id
  split : splitPoint load count head other = .ok (some c.id)
  /-- The other tip is its own split point when it lies behind the head. -/
  other_iff : c.id = other ↔ Ancestor load other head

theorem Founded.splitOnLine (closed : Closed load ids) (acyclic : Acyclic load)
    (founded : Founded load ids first) {head other : ObjectId} (hhead : head ∈ ids)
    (hother : other ∈ ids) {count : Nat} (enough : ids.card ≤ count) :
    ∃ heads before c after, SplitOnLine load count head other heads before c after := by
  obtain ⟨heads, visits⟩ := closed.exists_visits hhead enough
  have mem_heads := visits.mem_iff
  obtain ⟨cs, end_, line, hlast, hload⟩ := founded.exists_line hother
  -- the two have the first commit in common, so the line has a first commit that is shared
  have shared_end : end_.id ∈ heads.map Commit.id := by
    obtain ⟨c, hc, hown, -⟩ := closed first (closed.ancestor_mem hother (founded.ancestor hother))
    obtain rfl := Except.ok.inj (hload.symm.trans hc)
    rw [hown]
    exact (mem_heads first).mpr (founded.ancestor hhead)
  obtain ⟨c, hfind⟩ : ∃ c, cs.find? (fun b => b.id ∈ heads.map Commit.id) = some c :=
    Option.isSome_iff_exists.mp (List.find?_isSome.mpr
      ⟨end_, List.mem_of_getLast? hlast, by simpa using shared_end⟩)
  obtain ⟨hc, before, after, hcs, hbefore⟩ := List.find?_eq_some_iff_append.mp hfind
  obtain rfl := hcs
  have shared : c.id ∈ heads.map Commit.id := by simpa using hc
  have unshared : ∀ b ∈ before, b.id ∉ heads.map Commit.id := fun b hb => by
    simpa using hbefore b hb
  have long := (line.length_le closed acyclic hother).trans enough
  obtain ⟨beyond, search⟩ := line.starts_search closed acyclic hother enough
  refine ⟨heads, before, c, after, visits.items, line.items long, ⟨beyond, search⟩, unshared,
    shared,
    ?_, ?_⟩
  · have hcollect : collect ((Search.start head).items load count) = .ok heads := by
      rw [visits.items, collect_map_ok]
    rw [splitPoint, hcollect, search]
    exact firstShared_append unshared shared beyond
  · constructor
    · rintro rfl
      exact (mem_heads c.id).mp shared
    · intro hanc
      obtain ⟨tip, rest, htip, hload_tip⟩ := line.head
      obtain ⟨found, hfound, hown, -⟩ := closed other hother
      obtain rfl := Except.ok.inj (hload_tip.symm.trans hfound)
      have tip_shared : tip.id ∈ heads.map Commit.id := by
        rw [hown]
        exact (mem_heads other).mpr hanc
      cases before with
      | nil => rw [(List.cons.inj htip).1, hown]
      | cons b before =>
        exact absurd ((List.cons.inj htip).1 ▸ tip_shared) (unshared b (by simp))

end LocalVcs.History
