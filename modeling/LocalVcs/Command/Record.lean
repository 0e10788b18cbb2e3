/-
# Recording commits

`commit` is `commit` of `Repository`, and `record` is `commit_index`, which `merge` calls as well.

* `Staging.getElem?_nextManifest`: what the snapshot of the next commit holds under a name.
* `Command.record`: making that commit the tip of the current branch.
-/
import LocalVcs.Command.Basic

namespace LocalVcs

/-- The snapshot `tracked` with the staged additions put in and the staged removals left out. -/
def Staging.nextManifest (s : Staging) (tracked : Manifest) : Manifest :=
  (tracked ∪ s.additions.map fun _ content => Object.blobId content).filter fun name _ =>
    name ∉ s.removals

theorem Staging.getElem?_nextManifest (s : Staging) (tracked : Manifest) (name : String) :
    (s.nextManifest tracked)[name]? =
      if name ∈ s.removals then none
      else (s.additions[name]?.map Object.blobId).or tracked[name]? := by
  rw [nextManifest, Std.ExtTreeMap.getElem?_filter', Std.ExtTreeMap.getElem?_union,
    Std.ExtTreeMap.getElem?_map]
  cases hold : (s.additions[name]?.map Object.blobId).or tracked[name]? <;>
    by_cases dropped : name ∈ s.removals <;> simp_all [Option.filter]

namespace Command

variable (root : Path)

/-- Stores the contents of staged files. -/
def saveBlobs : List (String × Bytes) → Action Unit
  | [] => pure ()
  | (_, content) :: rest => do
    discard (Blobs.save root content)
    saveBlobs rest

/-- Records what is staged as a commit behind the current one, and moves the current branch to it.
`merged` is the tip of the branch that a merge brings in; such a commit is recorded also when
nothing is staged. -/
def record (date : Time.Moment) (staging : Staging) (message : String)
    (merged : Option ObjectId) : Action Unit := do
  if message = "" then Action.fail .emptyCommitMessage
  if staging.isEmpty ∧ merged = none then Action.fail .nothingStaged
  let branch ← Action.read (Branches.current root)
  let parent ← loadCommit root branch.tip
  saveBlobs root staging.additions.toList
  let c : Commit :=
    ⟨message, date, parent.id :: merged.toList, staging.nextManifest parent.manifest⟩
  Commits.save root c
  Branches.save root ⟨branch.name, c.id⟩
  discard (staging.clear.save root)

/-- Records what is staged. -/
def commit (date : Time.Moment) (message : String) : Action Unit := do
  let staging ← Action.read (Staging.load root)
  record root date staging message none

end Command

end LocalVcs
