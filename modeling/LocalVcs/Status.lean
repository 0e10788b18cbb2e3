/-
# Status

What stands between the working tree and the next commit: staged entries, changes that are not
staged, and files that no commit holds.

This is `StatusInfo`, with the `inspect` that makes it and the text that it is displayed as;
`Change` is `WorkspaceChangeType`.

* `Status.inspect`: the report on snapshots given by their ids.
* `Status.getElem?_unstagedChanges`, `Status.mem_untrackedFiles`: what two of its sections hold.
* `Status.render`: its text.
-/
import LocalVcs.BranchName
import LocalVcs.Commit
import Std.Data.ExtTreeSet

namespace LocalVcs

/-- A finite set of names. -/
abbrev NameSet := Std.ExtTreeSet String compare

/-- A change to a working file that is not staged. -/
inductive Change
  | modified
  | deleted
  deriving DecidableEq

/-- The word for a change. -/
def Change.word : Change → String
  | modified => "modified"
  | deleted => "deleted"

/-- What the status tells; names in each section are in ascending order. -/
structure Status where
  branches : List BranchName
  current : BranchName
  staged : List String
  removed : List String
  unstaged : NameMap Change
  untracked : List String

namespace Status

/-- How a working file differs from the blob that it should hold. -/
def change? (expected : ObjectId) (working : Option ObjectId) : Option Change :=
  match working with
  | none => some .deleted
  | some actual => if actual = expected then none else some .modified

/-- The changes that are not staged: of staged files against what is staged, and of tracked files
that are not staged in either way against what is tracked. -/
def unstagedChanges (head additions : NameMap ObjectId) (removals : NameSet)
    (working : NameMap ObjectId) : NameMap Change :=
  let ofStaged := additions.filterMap fun name id => change? id working[name]?
  let ofTracked := head.filterMap fun name id =>
    if name ∈ additions ∨ name ∈ removals then none
    else change? id working[name]?
  ofTracked ∪ ofStaged

/-- The working files that the next commit will not hold. -/
def untrackedFiles (head additions : NameMap ObjectId) (removals : NameSet)
    (working : NameMap ObjectId) : List String :=
  working.keys.filter fun name =>
    name ∉ additions ∧ (name ∉ head ∨ name ∈ removals)

theorem getElem?_unstagedChanges (head additions : NameMap ObjectId) (removals : NameSet)
    (working : NameMap ObjectId) (name : String) :
    (unstagedChanges head additions removals working)[name]? =
      match additions[name]? with
      | some id => change? id working[name]?
      | none =>
        if name ∈ removals then none
        else head[name]?.bind fun id => change? id working[name]? := by
  simp only [unstagedChanges, Std.ExtTreeMap.getElem?_union, Std.ExtTreeMap.getElem?_filterMap']
  cases h : additions[name]? with
  | none =>
    have absent : name ∉ additions := by simp [Std.ExtTreeMap.mem_iff_isSome_getElem?, h]
    by_cases hr : name ∈ removals <;> simp [absent, hr]
  | some id =>
    have staged : name ∈ additions := by simp [Std.ExtTreeMap.mem_iff_isSome_getElem?, h]
    simp [staged]

theorem mem_untrackedFiles {head additions : NameMap ObjectId} {removals : NameSet}
    {working : NameMap ObjectId} {name : String} :
    name ∈ untrackedFiles head additions removals working ↔
      name ∈ working ∧ name ∉ additions ∧ (name ∉ head ∨ name ∈ removals) := by
  simp [untrackedFiles]

/-- The report on a repository whose current commit holds `head`, with these names staged and these
working files. -/
def inspect (branches : List BranchName) (current : BranchName) (head additions : NameMap ObjectId)
    (removals : NameSet) (working : NameMap ObjectId) : Status where
  branches := branches
  current := current
  staged := additions.keys
  removed := removals.toList
  unstaged := unstagedChanges head additions removals working
  untracked := untrackedFiles head additions removals working

/-- A section: its title, its lines and an empty line. -/
def renderSection (title : String) (lines : List String) : String :=
  "=== " ++ title ++ " ===\n" ++ Text.ofLines lines ++ "\n"

/-- The text of the report.  An asterisk marks the current branch. -/
def render (s : Status) : String :=
  renderSection "Branches"
    (s.branches.map fun b => if b = s.current then "*" ++ b.text else b.text) ++
  renderSection "Staged Files" s.staged ++
  renderSection "Removed Files" s.removed ++
  renderSection "Modifications Not Staged For Commit"
    (s.unstaged.toList.map fun (name, change) => name ++ " (" ++ change.word ++ ")") ++
  renderSection "Untracked Files" s.untracked

end Status

end LocalVcs
