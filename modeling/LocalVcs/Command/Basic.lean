/-
# What commands read first

The current commit, the staging area, and commits and branches that the user names.

These are `is_initialized`, `ensure_initialized` and `head_commit` of `Repository`, and its
`resolve_commit`.
-/
import LocalVcs.Branches
import LocalVcs.Staging
import LocalVcs.Store
import LocalVcs.Worktree

namespace LocalVcs.Command

variable (root : Path)

/-- Whether the working directory holds a repository. -/
def isInitialized (t : FileTree) : Bool := t.isDir (Layout.metaDir root)

/-- Fails unless the working directory holds a repository. -/
def ensureInitialized : Action Unit := do
  unless ← Action.read fun t => .ok (isInitialized root t) do
    Action.fail .notInitialized

/-- Loads an object, or tells of the damage. -/
def undamaged (load : FileTree → Except Damage α) : Action α :=
  Action.read fun t => (load t).mapError .damaged

/-- A stored commit. -/
def loadCommit (id : ObjectId) : Action Commit := undamaged fun t => Commits.load root t id

/-- The contents of a stored blob. -/
def loadBlob (id : ObjectId) : Action Bytes := undamaged fun t => Blobs.load root t id

/-- The tip of the current branch. -/
def headCommit : Action Commit := do
  let branch ← Action.read (Branches.current root)
  loadCommit root branch.tip

/-- The commit that the user names by its id or an abbreviation. -/
def resolveCommit (text : String) : Action Commit := do
  match ← undamaged fun t => Commits.find? root t text with
  | some c => return c
  | none => Action.fail .noSuchCommit

/-- The branch that the user names. -/
def resolveBranch (missing : UserError) (text : String) : Action Branch := do
  match ← Action.read fun t => Branches.find? root t text with
  | some branch => return branch
  | none => Action.fail missing

end LocalVcs.Command
