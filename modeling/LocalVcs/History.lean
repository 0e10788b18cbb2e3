/-
# Walks through the history

Commits form a graph by their parents.  A walk yields commits from a start on, loading each by its
id; an id that cannot be loaded is yielded as what went wrong, and ends the walk.

`Chain` is `FirstParentWalk`, `Search` is `AncestorWalk`, and `splitPoint` is `find` of
`SplitPointFinder`.

* `Chain`: the first parents only, down to the first commit.
* `Search`: all ancestors, depth first, first parents first, each once.
* `splitPoint`: the first ancestor of one commit, in the order of the search, that another shares.
-/
import LocalVcs.Commit

namespace LocalVcs.History

variable {ε : Type}

/-- Finds the commit that an id names, or says why it cannot. -/
abbrev Loader (ε : Type) := ObjectId → Except ε Commit

/-! ## 1. First parents -/

/-- A walk down the first parents; `none` when it has ended. -/
abbrev Chain := Option ObjectId

/-- The next item of a chain, and the chain behind it. -/
def Chain.next (load : Loader ε) : Chain → Option (Except ε Commit × Chain)
  | none => none
  | some id =>
    match load id with
    | .ok c => some (.ok c, c.parent?)
    | .error e => some (.error e, none)

/-- The first `count` items of a chain. -/
def Chain.items (load : Loader ε) : Nat → Chain → List (Except ε Commit)
  | 0, _ => []
  | count + 1, chain =>
    match chain.next load with
    | some (item, behind) => item :: items load count behind
    | none => []

/-! ## 2. All ancestors -/

/-- A search through the ancestors: what is still to be visited, next one first, and what has been
visited already. -/
structure Search where
  pending : List ObjectId
  visited : List ObjectId

/-- The search from a commit on. -/
def Search.start (id : ObjectId) : Search := ⟨[id], []⟩

/-- The next item of a search that has `visited` behind it and `pending` before it. -/
def Search.nextFrom (load : Loader ε) (visited : List ObjectId) :
    List ObjectId → Option (Except ε Commit × Search)
  | [] => none
  | id :: pending =>
    if id ∈ visited then nextFrom load visited pending
    else
      match load id with
      | .ok c =>
        let fresh := c.parents.filter fun parent => parent ∉ id :: visited
        some (.ok c, ⟨fresh ++ pending, id :: visited⟩)
      | .error e => some (.error e, ⟨[], id :: visited⟩)

/-- The next item of a search, and the search behind it. -/
def Search.next (load : Loader ε) (s : Search) : Option (Except ε Commit × Search) :=
  nextFrom load s.visited s.pending

/-- The first `count` items of a search. -/
def Search.items (load : Loader ε) : Nat → Search → List (Except ε Commit)
  | 0, _ => []
  | count + 1, s =>
    match s.next load with
    | some (item, behind) => item :: items load count behind
    | none => []

/-! ## 3. Whole walks -/

/-- All items, or the first thing that went wrong. -/
def collect : List (Except ε Commit) → Except ε (List Commit)
  | [] => .ok []
  | .ok c :: rest => (collect rest).map (c :: ·)
  | .error e :: _ => .error e

/-- The first commit among items whose id is in `shared`; what went wrong before it is met first. -/
def firstShared (shared : List ObjectId) : List (Except ε Commit) → Except ε (Option ObjectId)
  | [] => .ok none
  | .ok c :: rest => if c.id ∈ shared then .ok (some c.id) else firstShared shared rest
  | .error e :: _ => .error e

/-- The first ancestor of `other`, itself included, that is an ancestor of `head`; the walks take at
most `count` items each. -/
def splitPoint (load : Loader ε) (count : Nat) (head other : ObjectId) :
    Except ε (Option ObjectId) := do
  let ancestors ← collect ((Search.start head).items load count)
  firstShared (ancestors.map Commit.id) ((Search.start other).items load count)

end LocalVcs.History
