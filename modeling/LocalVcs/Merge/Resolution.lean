/-
# Merging three snapshots

Two histories that have gone apart are merged name by name.  What each side made of a name is judged
by the snapshot where they parted: a change on one side is taken, the same change on both sides is
kept, and two different changes conflict.

`Resolution` is `MergeAction` with its `resolve` and `touches_working_file`; `plan` and
`conflictContent` are `plan` and `conflict_content`.

* `Resolution.resolve`: what happens to one name.
* `Resolution.getElem?_plan`: the plan resolves the names of the three snapshots, and no others.
* `conflictContent`: the contents that tell of a conflict.
-/
import LocalVcs.Commit

namespace LocalVcs

/-- What a merge does with a name. -/
inductive Resolution
  /-- The other side's blob is taken and staged. -/
  | takeOther (blob : ObjectId)
  /-- The snapshot of the current branch is right already. -/
  | keepHead
  /-- Both sides' contents are written, with marks around them, and staged. -/
  | conflict
  /-- The file is deleted and staged for removal. -/
  | remove
  /-- Nothing is done. -/
  | unchanged
  deriving DecidableEq

namespace Resolution

/-- What is done with a name that stands for these blobs where the histories part, on the current
branch, and on the other one. -/
def resolve (split head other : Option ObjectId) : Resolution :=
  if split = head ∧ split ≠ other then other.elim remove takeOther
  else if split = other ∧ split ≠ head then (if head.isSome then keepHead else unchanged)
  else if split ≠ head ∧ split ≠ other ∧ head ≠ other then conflict
  else unchanged

/-- Whether the working file is written or deleted. -/
def touches : Resolution → Bool
  | takeOther _ | conflict | remove => true
  | keepHead | unchanged => false

/-- What is done with each name of the three snapshots. -/
def plan (split head other : Manifest) : NameMap Resolution :=
  (split ∪ head ∪ other).map fun name _ => resolve split[name]? head[name]? other[name]?

theorem getElem?_plan (split head other : Manifest) (name : String) :
    (plan split head other)[name]? =
      if name ∈ split ∨ name ∈ head ∨ name ∈ other then
        some (resolve split[name]? head[name]? other[name]?)
      else none := by
  rw [plan, Std.ExtTreeMap.getElem?_map]
  split
  next h =>
    have known : name ∈ split ∪ head ∪ other := by simpa [or_assoc] using h
    rw [Std.ExtTreeMap.getElem?_eq_some_getElem known, Option.map_some]
  next h =>
    have unknown : name ∉ split ∪ head ∪ other := by simpa [or_assoc] using h
    rw [Std.ExtTreeMap.getElem?_eq_none unknown, Option.map_none]

end Resolution

/-- The contents of a file that both sides changed in different ways: one side's after the other's,
between marks.  A side that has no such file stands as empty. -/
def conflictContent (head other : Option Bytes) : Bytes :=
  Bytes.ofText "<<<<<<< HEAD\n" ++ head.getD [] ++ Bytes.ofText "=======\n" ++ other.getD [] ++
    Bytes.ofText ">>>>>>>\n"

end LocalVcs
