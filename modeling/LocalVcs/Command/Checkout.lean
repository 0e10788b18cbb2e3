/-
# Taking out snapshots

Taking one file out of a commit, switching to a branch, and moving the current branch to a commit.

These are `checkout_file`, `checkout_file_at`, `checkout_branch` and `reset` of `Repository`;
`switchTo` is `switch_branch`, which `merge` calls as well, and `restoreFile` is `restore_file`.
-/
import LocalVcs.Command.Basic
import LocalVcs.Switch

namespace LocalVcs.Command

variable (root : Path)

/-- Writes a file as a commit holds it. -/
def restoreFile (c : Commit) (file : String) : Action Unit := do
  match c.tracked? file with
  | none => Action.fail .fileNotInCommit
  | some blob => Worktree.write root file (← loadBlob root blob)

/-- Takes a file out of the current commit. -/
def checkoutFile (file : String) : Action Unit := do
  restoreFile root (← headCommit root) file

/-- Takes a file out of the commit that the user names. -/
def checkoutFileAt (commit file : String) : Action Unit := do
  restoreFile root (← resolveCommit root commit) file

/-- Takes the working tree to the tip of a branch and makes that branch current. -/
def switchTo (staging : Staging) (branch : Branch) : Action Unit := do
  let current ← headCommit root
  let target ← loadCommit root branch.tip
  let switch ← Action.read fun t => Switch.plan root t current target
  switch.apply root staging
  Branches.setHead root branch.name

/-- Switches to the branch that the user names. -/
def checkoutBranch (name : String) : Action Unit := do
  let branch ← resolveBranch root .noSuchBranch name
  if ← Action.read fun t => Branches.isCurrent root t branch.name then
    Action.fail .alreadyOnBranch
  let staging ← Action.read (Staging.load root)
  switchTo root staging branch

/-- Takes the working tree and the current branch to the commit that the user names. -/
def reset (commit : String) : Action Unit := do
  let target ← resolveCommit root commit
  let staging ← Action.read (Staging.load root)
  let branch ← Action.read (Branches.current root)
  let current ← loadCommit root branch.tip
  let switch ← Action.read fun t => Switch.plan root t current target
  switch.apply root staging
  Branches.save root ⟨branch.name, target.id⟩

end LocalVcs.Command
