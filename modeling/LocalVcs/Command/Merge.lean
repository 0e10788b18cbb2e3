/-
# Merging branches

Bringing another branch into the current one.  Where one history continues the other, nothing has to
be merged; else each name is resolved by the snapshot where the two parted.

This is `merge` of `Repository`, with `load_tracked` as `MergeStep.trackedContent`.  The part behind
its shortcuts, from the check for untracked files on, is `mergeTips`.

* `MergeStep.plan`: what a merge writes and deletes, with all contents at hand.
* `Command.merge`: the command.
-/
import LocalVcs.Command.Checkout
import LocalVcs.Command.Record
import LocalVcs.Merge.Resolution

namespace LocalVcs

/-- What a merge does to a working file. -/
inductive MergeStep
  /-- Contents are written, and staged to be recorded. -/
  | write (name : String) (content : Bytes)
  /-- The file is deleted, and staged for removal with the contents it had. -/
  | remove (name : String) (content : Bytes)
  deriving DecidableEq

namespace MergeStep

variable (root : Path)

/-- The contents of a name in a commit, if it is tracked there. -/
def trackedContent (t : FileTree) (c : Commit) (name : String) : Except Damage (Option Bytes) :=
  match c.tracked? name with
  | some blob => (Blobs.load root t blob).map some
  | none => .ok none

/-- The step for one resolved name; most names need none. -/
def ofResolution (t : FileTree) (head other : Commit) (name : String) :
    Resolution → Except Damage (Option MergeStep)
  | .takeOther blob => (Blobs.load root t blob).map fun content => some (write name content)
  | .conflict => do
    let mine ← trackedContent root t head name
    let theirs ← trackedContent root t other name
    return some (write name (conflictContent mine theirs))
  | .remove => do
    let mine ← trackedContent root t head name
    return mine.map (remove name)
  | .keepHead | .unchanged => .ok none

/-- The steps for all names, in their order. -/
def plan (t : FileTree) (head other : Commit) (resolved : NameMap Resolution) :
    Except Damage (List MergeStep) := do
  let steps ← resolved.toList.mapM fun (name, resolution) =>
    ofResolution root t head other name resolution
  return steps.filterMap id

/-- Carries out steps, and gives what is staged then. -/
def applyAll : List MergeStep → Staging → Action Staging
  | [], staging => return staging
  | write name content :: rest, staging => do
    Worktree.write root name content
    applyAll rest (staging.add name content)
  | remove name content :: rest, staging => do
    Worktree.remove root name
    applyAll rest (staging.remove name content)

end MergeStep

namespace Command

variable (root : Path)

/-- Merges the tip `other` of a branch into the tip `head` of the current one, the two having parted
at `split`, and records the result under a message. -/
def mergeTips (date : Time.Moment) (staging : Staging) (message : String)
    (split head other : Commit) : Action Unit := do
  let resolved := Resolution.plan split.manifest head.manifest other.manifest
  let working ← Action.read (Worktree.list root)
  let touched := (resolved.filter fun _ resolution => resolution.touches).keys
  if (untrackedInTheWay? working head.manifest touched).isSome then
    Action.fail .untrackedFileInTheWay
  let steps ← undamaged fun t => MergeStep.plan root t head other resolved
  let staging ← MergeStep.applyAll root steps staging
  record root date staging message (some other.id)
  if resolved.toList.any fun entry => entry.2 = .conflict then
    Action.print "Encountered a merge conflict.\n"

/-- Merges the branch that the user names into the current one. -/
def merge (date : Time.Moment) (name : String) : Action Unit := do
  let staging ← Action.read (Staging.load root)
  unless staging.isEmpty do Action.fail .uncommittedChanges
  let otherBranch ← resolveBranch root .branchNotFound name
  let currentBranch ← Action.read (Branches.current root)
  if otherBranch.name = currentBranch.name then Action.fail .mergeWithItself
  let head ← loadCommit root currentBranch.tip
  let other ← loadCommit root otherBranch.tip
  let split ← undamaged fun t =>
    History.splitPoint (Commits.load root t) (Commits.walkBound t) head.id other.id
  match split with
  | none => throw (.noSharedHistory head.id other.id)
  | some splitId =>
    if splitId = other.id then
      Action.print "Given branch is an ancestor of the current branch.\n"
    else if splitId = head.id then
      switchTo root staging otherBranch
      Action.print "Current branch fast-forwarded.\n"
    else
      let split ← loadCommit root splitId
      mergeTips root date staging
        ("Merged " ++ otherBranch.name.text ++ " into " ++ currentBranch.name.text ++ ".")
        split head other

end Command

end LocalVcs
