/-
# Differences of file trees

What has to be done to a file system that holds one tree so that it holds another one.
-/
import LocalVcs.FileTree

namespace LocalVcs.FileTree

/-- One change to a file system. -/
inductive Edit
  | removeFile (path : Path)
  | removeDir (path : Path)
  | makeDir (path : Path)
  | write (path : Path) (content : Content)
  deriving DecidableEq

/-- Whether one entry can take the place of another without its removal. -/
def sameKind : Entry → Entry → Bool
  | .file _, .file _ => true
  | .dir, .dir => true
  | .link s, .link t => s = t
  | _, _ => false

/-- What has to go, innermost entries first. -/
def removals (old new : FileTree) : List Edit :=
  let gone := old.entries.filter fun (path, e) => !(new.at? path).any (sameKind e)
  (gone.mergeSort fun a b => decide (b.1.length ≤ a.1.length)).map fun (path, e) =>
    if e = .dir then .removeDir path else .removeFile path

/-- What has to come, outermost entries first.  Links are not made by any command. -/
def additions (old new : FileTree) : List Edit :=
  let fresh := new.entries.filter fun (path, e) => old.at? path ≠ some e
  (fresh.mergeSort fun a b => decide (a.1.length ≤ b.1.length)).filterMap fun (path, e) =>
    match e with
    | .file content => some (.write path content)
    | .dir => some (.makeDir path)
    | .link _ => none

/-- All that has to be done, in a possible order. -/
def edits (old new : FileTree) : List Edit := removals old new ++ additions old new

end LocalVcs.FileTree
