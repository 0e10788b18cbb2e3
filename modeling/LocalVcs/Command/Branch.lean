/-
# Making and removing branches

These are `branch` and `rm_branch` of `Repository`.
-/
import LocalVcs.Command.Basic

namespace LocalVcs.Command

variable (root : Path)

/-- Makes a branch that stands for the current commit; the current branch stays current. -/
def branch (text : String) : Action Unit := do
  match BranchName.ofText? text with
  | none => Action.fail (.invalidBranchName text)
  | some name =>
    if ← Action.read fun t => .ok (Branches.contains root t name) then
      Action.fail .branchExists
    let current ← Action.read (Branches.current root)
    Branches.save root ⟨name, current.tip⟩

/-- Removes a branch that is not current. -/
def rmBranch (text : String) : Action Unit := do
  let branch ← resolveBranch root .branchNotFound text
  if ← Action.read fun t => Branches.isCurrent root t branch.name then
    Action.fail .removeCurrentBranch
  Branches.remove root branch.name

end LocalVcs.Command
