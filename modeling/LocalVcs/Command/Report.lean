/-
# Reports

Commands that print and change nothing: the log, the search for a message, and the status.

These are `log`, `global_log`, `find` and `status` of `Repository`; `workingIds` is
`scan_workspace`.
-/
import LocalVcs.Command.Basic
import LocalVcs.LogEntry
import LocalVcs.Status

namespace LocalVcs.Command

variable (root : Path)

/-- Prints the log entries of commits. -/
def printEntries (zone : Time.Zone) (commits : List Commit) : Action Unit :=
  Action.print (String.join (commits.map (logEntry zone)))

/-- Prints the current commit and its first parents, down to the first commit. -/
def log (zone : Time.Zone) : Action Unit := do
  let head ← headCommit root
  printEntries zone (← undamaged fun t => Commits.chain root t head.id)

/-- Prints all commits in the order of their ids. -/
def globalLog (zone : Time.Zone) : Action Unit := do
  printEntries zone (← undamaged (Commits.all root))

/-- Prints the ids of the commits with a message. -/
def find (message : String) : Action Unit := do
  let commits ← undamaged fun t => Commits.withMessage root t message
  if commits = [] then Action.fail .noCommitWithMessage
  Action.print (Text.ofLines (commits.map fun c => c.id.text))

/-- A working file with the id that it would have as a blob. -/
def workingId (t : FileTree) (name : String) : Except Fault (String × ObjectId) := do
  let content ← Worktree.read root t name
  return (name, Object.blobId content)

/-- The ids that the working files would have as blobs. -/
def workingIds (t : FileTree) : Except Fault (NameMap ObjectId) := do
  let names ← Worktree.list root t
  return Std.ExtTreeMap.ofList (← names.mapM (workingId root t)) compare

/-- Prints the status. -/
def status : Action Unit := do
  let staging ← Action.read (Staging.load root)
  let branches ← Action.read (Branches.all root)
  let current ← Action.read (Branches.head root)
  let head ← headCommit root
  let working ← Action.read (workingIds root)
  let additions := staging.additions.map fun _ content => Object.blobId content
  let removals : NameSet := Std.ExtTreeSet.ofList staging.removals.keys compare
  Action.print
    (Status.inspect (branches.map Branch.name) current head.manifest additions removals
      working).render

end LocalVcs.Command
