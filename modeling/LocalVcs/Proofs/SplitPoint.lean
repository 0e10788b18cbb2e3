/-
# The split point lies on a line of first parents

Two histories part where the line of first parents of the other tip first comes to an ancestor of
the head.  The depth-first search that looks for this place never gets off that line: it would take
a second parent up only behind the first commit, and the first commit is shared.

* `splitPoint_on_first_parents`: this for every graph in which all lines end in one commit, and that
  the stored commits of a repository are such a graph in every state of a run.
-/
import LocalVcs.Proofs.History.LowestCommon
import LocalVcs.Proofs.WellFormed

namespace LocalVcs

open FileTree History

/-- **The other tip's first parents decide the split point.**  In a finite graph without cycles, in
which every load succeeds and all chains of first parents end in one commit, the split point of any
two commits is there: it is the first commit on the other one's chain that is an ancestor of the
head, and it is the other one itself exactly when that is an ancestor of the head.  The commits of a
repository are such a graph in every state that a run comes to. -/
theorem splitPoint_on_first_parents :
    (∀ {ε : Type} {load : Loader ε} {ids : Finset ObjectId} {first head other : ObjectId}
      {count : Nat}, Closed load ids → Acyclic load → Founded load ids first → head ∈ ids →
      other ∈ ids → ids.card ≤ count →
      ∃ heads before c after, SplitOnLine load count head other heads before c after) ∧
    (∀ {root : Path} {past : List Recording} {t : FileTree},
      Run root Request.Plain Settings.Dates past t →
      ∃ ids : Finset ObjectId, (∀ id, id ∈ ids ↔ ∃ c, Commits.load root t id = .ok c) ∧
        ids.Nonempty ∧ ids.card ≤ Commits.walkBound t ∧ Closed (Commits.load root t) ids ∧
        Acyclic (Commits.load root t) ∧
        Founded (Commits.load root t) ids Commit.initial.id) := by
  constructor
  · intro ε load ids first head other count closed acyclic founded hhead hother enough
    exact founded.splitOnLine closed acyclic hhead hother enough
  · intro root past t run
    obtain ⟨ids, hids, hcard⟩ := run.intact.exists_ids
    obtain ⟨b, -, hcurrent, -⟩ :=
      HeadStands.current_eq run.intact.housed run.intact.refs (run.headStands fun _ => id)
    obtain ⟨c, -, -, hload⟩ := run.intact.load_of_current hcurrent
    have some_ : ids.Nonempty := ⟨_, (hids _).mpr ⟨c, hload⟩⟩
    exact ⟨ids, hids, some_, Nat.le_succ_of_le hcard, run.intact.closed hids, run.intact.acyclic,
      run.intact.founded hids some_⟩

namespace History.BackMerge

theorem founded : Founded load ids base.id where
  ends := ⟨base, load_base, rfl⟩
  reaches id hid := by
    simp only [ids, Finset.mem_insert, Finset.mem_singleton] at hid
    rcases hid with rfl | rfl | rfl
    · exact Relation.ReflTransGen.refl
    · exact Relation.ReflTransGen.single ⟨mine, load_mine, rfl⟩
    · exact Relation.ReflTransGen.single ⟨theirs, load_theirs, rfl⟩

end History.BackMerge

open History.BackMerge in
/-- The other tip has merged the head as its second parent.  Its first parent is the split point
all the same. -/
theorem splitPoint_on_first_parents_of_merged_head :
    Closed load ids ∧ Acyclic load ∧ Founded load ids base.id ∧ mine.id ∈ ids ∧
      theirs.id ∈ ids ∧ ids.card ≤ 3 ∧
      ∃ heads, SplitOnLine load 3 mine.id theirs.id heads [theirs] base [] := by
  have hcard : ids.card ≤ 3 := Finset.card_le_three
  have hmine : mine.id ∈ ids := by simp [ids]
  have htheirs : theirs.id ∈ ids := by simp [ids]
  refine ⟨closed, acyclic, founded, hmine, htheirs, hcard, ?_⟩
  obtain ⟨heads, before, c, after, splits⟩ :=
    splitPoint_on_first_parents.1 closed acyclic founded hmine htheirs hcard
  have line : Line load theirs.id [theirs, base] :=
    Line.onward load_theirs rfl (Line.last load_base rfl)
  have chain : (before ++ c :: after).map .ok = [theirs, base].map (Except.ok (ε := Unit)) :=
    splits.chain.symm.trans (line.items (by simp))
  have same : before ++ c :: after = [theirs, base] :=
    List.map_injective_iff.mpr (fun _ _ => Except.ok.inj) chain
  -- the tip itself is no ancestor of the head, so the line goes on to its end
  have ahead : c ≠ theirs := by
    rintro rfl
    exact ids_ne.2.2 (acyclic.antisymm mine_ancestor_theirs (splits.other_iff.mp rfl))
  obtain ⟨rfl, rfl, rfl⟩ : before = [theirs] ∧ c = base ∧ after = [] := by
    cases before with
    | nil => exact absurd (List.cons.inj same).1 ahead
    | cons b before => cases before <;> simp_all
  exact ⟨heads, splits⟩

end LocalVcs
