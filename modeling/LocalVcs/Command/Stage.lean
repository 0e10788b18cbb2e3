/-
# Staging files

Marking files to be recorded in the next commit, or to be dropped from it.

These are `add` and `rm` of `Repository`.
-/
import LocalVcs.Command.Basic

namespace LocalVcs.Command

variable (root : Path)

/-- The staging area once `content` is what the next commit is to hold under `file`: nothing is
staged under a name that the current commit holds with the same contents. -/
def stageContent (head : Commit) (staging : Staging) (file : String) (content : Bytes) : Staging :=
  if head.tracked? file = some (Object.blobId content) then
    (staging.unstageAddition file).unstageRemoval file
  else (staging.add file content).unstageRemoval file

/-- Stages a working file as it is. -/
def add (file : String) : Action Unit := do
  unless ← Action.read fun t => .ok (Worktree.contains root t file) do
    Action.fail .fileNotFound
  let staging ← Action.read (Staging.load root)
  let content ← Action.read fun t => Worktree.read root t file
  let head ← headCommit root
  discard ((stageContent head staging file content).save root)

/-- Drops a file from the next commit.  A tracked file is staged for removal and deleted; one that
is staged only is no longer staged, and stays. -/
def rm (file : String) : Action Unit := do
  let staging ← Action.read (Staging.load root)
  let head ← headCommit root
  match head.tracked? file with
  | some blob =>
    let content ← loadBlob root blob
    Worktree.remove root file
    discard (((staging.unstageAddition file).remove file content).save root)
  | none =>
    unless file ∈ staging.additions do
      Action.fail .noReasonToRemove
    discard ((staging.unstageAddition file).save root)

end LocalVcs.Command
