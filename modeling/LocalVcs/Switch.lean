/-
# Switching snapshots

Taking the working tree from one snapshot to another.  Everything is read before anything is
written, so a switch that cannot be made leaves the working tree and the staging area as they are.

This is `Migration`, with its `plan` and `apply`.

* `Switch.plan`: what has to be written and deleted, or why that must not be done.
* `Switch.apply`: doing it.
-/
import LocalVcs.Staging
import LocalVcs.Store
import LocalVcs.Untracked
import LocalVcs.Worktree

namespace LocalVcs

/-- What takes the working tree to a snapshot: names to delete, and files to write. -/
structure Switch where
  deletions : List String
  writes : List (String × Bytes)
  deriving DecidableEq

namespace Switch

variable (root : Path)

/-- The contents of all files of a snapshot, in the order of their names. -/
def loadFiles (t : FileTree) (manifest : Manifest) : Except Fault (List (String × Bytes)) :=
  manifest.toList.mapM fun (name, blob) =>
    match Blobs.load root t blob with
    | .ok content => .ok (name, content)
    | .error damage => .error (.damaged damage)

/-- Plans to go from the commit `current` to the commit `target`. -/
def plan (t : FileTree) (current target : Commit) : Except Fault Switch := do
  let working ← Worktree.list root t
  match untrackedInTheWay? working current.manifest target.manifest.keys with
  | some _ => throw (.user .untrackedFileInTheWay)
  | none =>
    let writes ← loadFiles root t target.manifest
    return ⟨current.manifest.keys.filter (· ∉ target.manifest), writes⟩

/-- Deletes working files. -/
def deleteEach : List String → Action Unit
  | [] => pure ()
  | name :: rest => do
    Worktree.remove root name
    deleteEach rest

/-- Writes working files. -/
def writeEach : List (String × Bytes) → Action Unit
  | [] => pure ()
  | (name, content) :: rest => do
    Worktree.write root name content
    writeEach rest

/-- Carries out a plan; nothing is staged afterwards. -/
def apply (s : Switch) (staging : Staging) : Action Unit := do
  deleteEach root s.deletions
  writeEach root s.writes
  discard (staging.clear.save root)

end Switch

end LocalVcs
