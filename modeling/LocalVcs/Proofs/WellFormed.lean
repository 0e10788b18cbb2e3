/-
# Well-formed repositories

In every state that a run comes to, `HEAD` names a branch, every branch stands for a stored commit,
and every stored commit has all that belongs to it: its blobs, its parents, and a history without
cycles that goes back to the first commit.

* `WellFormed`: this as a property of what the commands read.
* `Intact.acyclic`, `Intact.exists_ids`: the commit graph has no cycle, and no more commits than
  there are files.
* `Intact.chain_run`: the walk down the first parents ends in the first commit.
* `Run.wellFormed`: every state of a run is well-formed.
-/
import LocalVcs.Proofs.Restoring
import LocalVcs.Proofs.History.FirstParents
import Mathlib.Data.Finset.Preimage

namespace LocalVcs

open FileTree Layout History

variable {root : Path} {t : FileTree}

/-! ## 1. The property -/

/-- A repository in which everything that is named is there. -/
structure WellFormed (root : Path) (t : FileTree) : Prop where
  /-- `HEAD` names a branch that is there. -/
  head : ∃ b, Branches.current root t = .ok b
  /-- Every branch that is there stands for a stored commit. -/
  tips : ∀ name, Branches.get? root t name = .ok none ∨
    ∃ b c, Branches.get? root t name = .ok (some b) ∧ Commits.load root t b.tip = .ok c
  /-- What lies in the file of a commit is the encoding of a commit that loads; its digest is the
  id. -/
  commits : ∀ id, Store.encoding? root .commit t id = .ok none ∨
    ∃ c, Commits.load root t id = .ok c ∧
      Store.encoding? root .commit t id = .ok (some c.encoding) ∧
      ObjectId.ofEncoding c.encoding = id
  /-- Every id that the store of commits lists is that of a commit. -/
  listed : ∀ id ∈ Store.ids root .commit t, ∃ c, Commits.load root t id = .ok c
  /-- All parents are stored. -/
  parents : ∀ id c, Commits.load root t id = .ok c →
    ∀ p ∈ c.parents, ∃ parent, Commits.load root t p = .ok parent
  /-- All files can be loaded. -/
  blobs : ∀ id c, Commits.load root t id = .ok c →
    ∀ (name : String) blob, c.manifest[name]? = some blob →
      ∃ content, Blobs.load root t blob = .ok content
  /-- No commit is its own proper ancestor. -/
  acyclic : Acyclic (Commits.load root t)
  /-- The chain of first parents ends, in the first commit. -/
  chains : ∀ id c, Commits.load root t id = .ok c →
    ∃ cs, Commits.chain root t id = .ok cs ∧ cs.head? = some c ∧
      cs.getLast? = some Commit.initial

namespace Intact

/-! ## 2. The commit graph -/

theorem load_commit (h : Intact root t) {c : Commit} (stored : CommitStored root t c) :
    Commits.load root t c.id = .ok c := h.load_iff.mpr ⟨rfl, stored⟩

theorem mem_parents (h : Intact root t) {c : Commit} (stored : CommitStored root t c)
    {p : ObjectId} : Parent (Commits.load root t) p c.id ↔ p ∈ c.parents :=
  parent_iff (h.load_commit stored)

/-- What is rooted has no infinite descent before it. -/
theorem acc_of_rooted (h : Intact root t) {id : ObjectId} (rooted : Rooted root t id) :
    Acc (Parent (Commits.load root t)) id := by
  induction rooted with
  | first stored =>
    refine Acc.intro _ ?_
    intro p hp
    cases (h.mem_parents stored).mp hp
  | next stored _ _ ih => exact Acc.intro _ fun p hp => ih p ((h.mem_parents stored).mp hp)

/-- **No commit is its own proper ancestor.** -/
theorem acyclic (h : Intact root t) : Acyclic (Commits.load root t) := by
  intro id loop
  obtain ⟨p, -, c, hload, -⟩ := Relation.TransGen.tail'_iff.mp loop
  obtain ⟨hid, -, -, rooted⟩ := h.of_load hload
  have acc := (h.acc_of_rooted (hid ▸ rooted)).transGen
  clear hload hid
  induction acc with
  | intro x _ ih => exact ih x loop loop

/-- The stored commits are those of a finite set, which has no more members than the file tree has
entries. -/
theorem exists_ids (h : Intact root t) : ∃ ids : Finset ObjectId,
    (∀ id, id ∈ ids ↔ ∃ c, Commits.load root t id = .ok c) ∧ ids.card ≤ t.entries.length := by
  classical
  have inj : Function.Injective (objectPath root .commit) := fun _ _ => objectPath_injective
  let paths := (t.entries.map Prod.fst).toFinset
  refine ⟨paths.preimage (objectPath root .commit) inj.injOn, ?_, ?_⟩
  · intro id
    have there : id ∈ paths.preimage (objectPath root .commit) inj.injOn ↔
        ∃ e, t.at? (objectPath root .commit id) = some e := by
      simp [paths, mem_entries]
    rw [there]
    constructor
    · rintro ⟨e, hat⟩
      obtain ⟨c, hpath, -, sound, rooted⟩ := h.stores.commits _ _ e hat
      obtain ⟨c', stored, hid⟩ := rooted.exists_commit
      obtain rfl := objectPath_injective hpath
      exact ⟨c', hid ▸ h.load_commit stored⟩
    · rintro ⟨c, hload⟩
      obtain ⟨rfl, stored, -, -⟩ := h.of_load hload
      exact ⟨_, stored.stored⟩
  · calc _ ≤ paths.card := Finset.card_le_card_of_injOn (objectPath root .commit)
            (fun id hid => by simpa using hid) inj.injOn
      _ ≤ (t.entries.map Prod.fst).length := List.toFinset_card_le _
      _ = t.entries.length := List.length_map _

/-- The commit graph is closed. -/
theorem closed (h : Intact root t) {ids : Finset ObjectId}
    (hids : ∀ id, id ∈ ids ↔ ∃ c, Commits.load root t id = .ok c) :
    Closed (Commits.load root t) ids := by
  intro id hid
  obtain ⟨c, hload⟩ := (hids id).mp hid
  obtain ⟨rfl, stored, -, rooted⟩ := h.of_load hload
  refine ⟨c, hload, rfl, fun p hp => (hids p).mpr ?_⟩
  rcases rooted.parents stored with rfl | ⟨-, parents⟩
  · simp [Commit.initial] at hp
  · obtain ⟨c', stored', hid'⟩ := (parents p hp).exists_commit
    exact ⟨c', hid' ▸ h.load_commit stored'⟩

/-! ## 3. Chains of first parents -/

/-- What is rooted goes back to the first commit through first parents. -/
theorem reaches_of_rooted (h : Intact root t) {id : ObjectId} (rooted : Rooted root t id) :
    Relation.ReflTransGen (FirstParent (Commits.load root t)) Commit.initial.id id := by
  induction rooted with
  | first => exact Relation.ReflTransGen.refl
  | @next c stored some_ _ ih =>
    obtain ⟨p, others, hparents⟩ := List.exists_cons_of_ne_nil some_
    refine (ih p (by simp [hparents])).tail ⟨c, h.load_commit stored, ?_⟩
    simp [Commit.parent?, hparents]

theorem load_initial_of_rooted (h : Intact root t) {id : ObjectId} (rooted : Rooted root t id) :
    Commits.load root t Commit.initial.id = .ok Commit.initial := by
  induction rooted with
  | first stored => exact h.load_commit stored
  | next _ some_ _ ih =>
    obtain ⟨p, hp⟩ := List.exists_mem_of_ne_nil _ some_
    exact ih p hp

/-- All chains of first parents end in the first commit. -/
theorem founded (h : Intact root t) {ids : Finset ObjectId}
    (hids : ∀ id, id ∈ ids ↔ ∃ c, Commits.load root t id = .ok c) (some_ : ids.Nonempty) :
    Founded (Commits.load root t) ids Commit.initial.id where
  ends := by
    obtain ⟨id, hid⟩ := some_
    obtain ⟨c, hload⟩ := (hids id).mp hid
    exact ⟨Commit.initial, h.load_initial_of_rooted (h.of_load hload).2.2.2, rfl⟩
  reaches id hid := by
    obtain ⟨c, hload⟩ := (hids id).mp hid
    obtain ⟨rfl, -, -, rooted⟩ := h.of_load hload
    exact h.reaches_of_rooted rooted

/-- The split point of two commits lies on the line of the other one. -/
theorem splitOnLine (h : Intact root t) {head other : Commit}
    (hhead : Commits.load root t head.id = .ok head)
    (hother : Commits.load root t other.id = .ok other) :
    ∃ heads before c after, SplitOnLine (Commits.load root t) (Commits.walkBound t)
      head.id other.id heads before c after := by
  obtain ⟨ids, hids, hcard⟩ := h.exists_ids
  have head_mem : head.id ∈ ids := (hids _).mpr ⟨_, hhead⟩
  exact (h.founded hids ⟨_, head_mem⟩).splitOnLine (h.closed hids) h.acyclic head_mem
    ((hids _).mpr ⟨_, hother⟩) (Nat.le_succ_of_le hcard)

/-- Two tips part where their commits do: at the other one exactly when that lies behind the
head. -/
theorem meet_of_tips (h : Intact root t) {mine theirs meet : ObjectId} {head other : Commit}
    (hhead : Commits.load root t mine = .ok head) (hother : Commits.load root t theirs = .ok other)
    (hmeet : splitPoint (Commits.load root t) (Commits.walkBound t) head.id other.id =
      .ok (some meet)) :
    splitPoint (Commits.load root t) (Commits.walkBound t) mine theirs = .ok (some meet) ∧
      (meet = theirs ↔ Ancestor (Commits.load root t) theirs mine) := by
  obtain rfl := Commits.id_of_load hhead
  obtain rfl := Commits.id_of_load hother
  obtain ⟨_, _, c, _, splits⟩ := h.splitOnLine hhead hother
  obtain rfl : meet = c.id := Option.some.inj (Except.ok.inj (hmeet.symm.trans splits.split))
  exact ⟨hmeet, splits.other_iff⟩

/-- The chain of a commit is its line of first parents. -/
theorem chain_of_line (h : Intact root t) {id : ObjectId} {cs : List Commit}
    (line : Line (Commits.load root t) id cs) : Commits.chain root t id = .ok cs := by
  obtain ⟨ids, hids, hcard⟩ := h.exists_ids
  obtain ⟨c, -, -, hload⟩ := line.head
  have enough : cs.length ≤ Commits.walkBound t :=
    (line.length_le (h.closed hids) h.acyclic ((hids id).mpr ⟨c, hload⟩)).trans
      (Nat.le_succ_of_le hcard)
  rw [Commits.chain, line.items enough, collect_map_ok]

/-- Every commit has a line, which ends in the first commit. -/
theorem exists_line (h : Intact root t) {id : ObjectId} {c : Commit}
    (hload : Commits.load root t id = .ok c) :
    ∃ cs, Line (Commits.load root t) id cs ∧ cs.getLast? = some Commit.initial := by
  obtain ⟨ids, hids, -⟩ := h.exists_ids
  have hid := (hids id).mpr ⟨c, hload⟩
  obtain ⟨cs, last, line, hlast, hload'⟩ := (h.founded hids ⟨id, hid⟩).exists_line hid
  rw [h.load_initial_of_rooted (h.of_load hload).2.2.2] at hload'
  exact ⟨cs, line, by rw [hlast, Except.ok.inj hload']⟩

/-- **The chain of first parents ends in the first commit.** -/
theorem chain_run (h : Intact root t) {id : ObjectId} {c : Commit}
    (hload : Commits.load root t id = .ok c) :
    ∃ cs, Commits.chain root t id = .ok cs ∧ cs.head? = some c ∧
      cs.getLast? = some Commit.initial := by
  obtain ⟨cs, line, hlast⟩ := h.exists_line hload
  obtain ⟨c', rest, rfl, hload'⟩ := line.head
  obtain rfl := Except.ok.inj (hload.symm.trans hload')
  exact ⟨_, h.chain_of_line line, rfl, hlast⟩

/-! ## 4. What the store lists -/

/-- Every id that is listed is that of a stored commit. -/
theorem load_of_mem_ids (h : Intact root t) {id : ObjectId} (hid : id ∈ Store.ids root .commit t) :
    ∃ c, Commits.load root t id = .ok c := by
  obtain ⟨d, f, content, hat, htext⟩ := (Store.mem_ids h.housed.clear).mp hid
  obtain ⟨c, hpath, -, sound, rooted⟩ := h.stores.commits _ _ _ hat
  obtain ⟨c', stored, hc⟩ := rooted.exists_commit
  simp only [objectPath, List.cons.injEq, and_true] at hpath
  have text : d.shown ++ f.shown = c.id.text := by
    rw [hpath.1, hpath.2]
    exact c.id.directory_append_fileName
  rw [text, ObjectId.ofText?_text] at htext
  obtain rfl : c.id = id := Except.ok.inj htext
  exact ⟨c', hc ▸ h.load_commit stored⟩

/-! ## 5. Whole runs -/

/-- An intact repository is well-formed where `HEAD` stands. -/
theorem wellFormed_of_headStands (h : Intact root t) (stands : HeadStands root t) :
    WellFormed root t where
  head := by
    obtain ⟨b, -, hcurrent, -⟩ := HeadStands.current_eq h.housed h.refs stands
    exact ⟨b, hcurrent⟩
  tips name := by
    rcases Branches.get?_cases h.housed h.refs name with ⟨c, stored, hget, -, -⟩ | ⟨hnone, -⟩
    · exact Or.inr ⟨_, c, hget, h.load_commit stored⟩
    · exact Or.inl hnone
  commits id := by
    cases hat : t.at? (objectPath root .commit id) with
    | none => exact Or.inl (encoding?_of_absent h.housed.clear hat)
    | some e =>
      right
      obtain ⟨c, hpath, rfl, sound, -⟩ := h.stores.commits _ _ e hat
      obtain rfl := objectPath_injective hpath
      have stored : Store.encoding? root .commit t c.id = .ok (some c.encoding) :=
        (encoding?_eq_some_iff h.housed.clear).mpr hat
      exact ⟨c, h.load_commit ⟨sound.readable, hat⟩, stored, c.id_eq.symm⟩
  listed _ := h.load_of_mem_ids
  parents id c hload p hp := by
    obtain ⟨rfl, stored, -, rooted⟩ := h.of_load hload
    rcases rooted.parents stored with rfl | ⟨-, parents⟩
    · simp [Commit.initial] at hp
    · obtain ⟨c', stored', hid⟩ := (parents p hp).exists_commit
      exact ⟨c', hid ▸ h.load_commit stored'⟩
  blobs id c hload name blob hblob := by
    obtain ⟨-, -, sound, -⟩ := h.of_load hload
    obtain ⟨content, hcontent, -⟩ := h.loadBlob_of_tracked sound hblob
    exact ⟨content, hcontent⟩
  acyclic := h.acyclic
  chains _ _ := h.chain_run

end Intact

/-- **Every state of a run is well-formed**, as long as branches are named plainly. -/
theorem Run.wellFormed {past : List Recording} (h : Run root Request.Plain Settings.Dates past t) :
    WellFormed root t :=
  h.intact.wellFormed_of_headStands (h.headStands fun _ => id)

/-- A repository with two branches that have gone apart. -/
theorem Apart.wellFormed_apart : ∃ t,
    Run [] Request.Plain Settings.Dates [Apart.right, Apart.left] t ∧ WellFormed [] t := by
  obtain ⟨t, run, -⟩ := Apart.exists_run
  exact ⟨t, run, run.wellFormed⟩

/-- A repository with a commit that was made where the clock is set to a zone that cannot be told:
it is stored and does not load. -/
theorem Apart.not_wellFormed_untold : ∃ t,
    Run [] Request.Plain (fun _ _ => True) [Apart.untold] t ∧ CollisionFree [Apart.untold] ∧
    Store.encoding? [] .commit t Apart.untold.made.id = .ok (some Apart.untold.made.encoding) ∧
    (∃ damage, Commits.load [] t Apart.untold.made.id = .error damage) ∧ ¬WellFormed [] t := by
  obtain ⟨t, run, clear, stored⟩ := Apart.exists_untold
  obtain ⟨damage, damaged⟩ := Apart.get?_untold clear stored
  have hstored := (encoding?_eq_some_iff clear).mpr stored
  have hload : Commits.load [] t Apart.untold.made.id = .error damage := by
    rw [Commits.load, damaged]
    rfl
  refine ⟨t, run, Apart.collisionFree_untold, hstored, ⟨damage, hload⟩, fun wellFormed => ?_⟩
  rcases wellFormed.commits Apart.untold.made.id with none_ | ⟨c, hok, -⟩
  · simp [hstored] at none_
  · simp [hload] at hok

end LocalVcs
