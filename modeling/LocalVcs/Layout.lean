/-
# The layout of a repository

Where a repository keeps its parts: all of them lie in `.gitlet` in the working directory.  A part
has a route through the file tree and a place, the text that messages name it by.

These are the paths that `Repository` hands to its areas, with `to_path` of `ObjectId` below a
store.
-/
import LocalVcs.Object.Kind
import LocalVcs.FileTree.Route

namespace LocalVcs.Layout

/-- The name of the directory that holds the repository. -/
def metaName : String := ".gitlet"

/-- The directory that holds the repository. -/
def metaDir (root : Path) : Route := ⟨root, [metaName]⟩

/-- The name of the directory that holds the objects of a kind. -/
def storeName : Kind → String
  | .blob => "objects"
  | .commit => "commits"

/-- The directory that holds the objects of a kind. -/
def store (root : Path) (kind : Kind) : Route := (metaDir root).child (storeName kind)

/-- The file of an object. -/
def object (root : Path) (kind : Kind) (id : ObjectId) : Route :=
  ((store root kind).child id.directory).child id.fileName

/-- The place of an object's file. -/
def objectPlace (kind : Kind) (id : ObjectId) : String :=
  metaName ++ "/" ++ storeName kind ++ "/" ++ id.path

/-- The file that names the current branch. -/
def head (root : Path) : Route := (metaDir root).child "HEAD"

/-- The place of that file. -/
def headPlace : String := metaName ++ "/HEAD"

/-- The directory that holds the branches. -/
def branches (root : Path) : Route := (metaDir root).child "branches"

/-- The place of that directory. -/
def branchesPlace : String := metaName ++ "/branches"

/-- What may be staged about a file. -/
inductive Staged
  | addition
  | removal
  deriving DecidableEq

/-- The name of the directory for entries staged so. -/
def stagedName : Staged → String
  | .addition => "addition"
  | .removal => "removal"

/-- The directory for entries staged so. -/
def staged (root : Path) (what : Staged) : Route :=
  ((metaDir root).child "index").child (stagedName what)

/-- The place of that directory. -/
def stagedPlace (what : Staged) : String := metaName ++ "/index/" ++ stagedName what

end LocalVcs.Layout
