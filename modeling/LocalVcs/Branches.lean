/-
# Branches

A branch is a name for a commit, its tip.  It lies in a file that is named like the branch, the
words of the name being directories, and that holds the tip's id.  `HEAD` holds the name of the
current branch.

This is `Refs`, with its `Branch`: `head`, `current_branch`, `is_current_branch`, `get`, `contains`,
`all`, `save`, `set_head` and `remove`.  `write` is `update_ref_file`, and `prune` is
`prune_branch_empty_parent_dirs`.

* `Branches.get?`, `Branches.all`, `Branches.current`: what is stored.
* `Branches.save`, `Branches.remove`: moving a branch, and taking it away with the directories that
  are empty then.
-/
import LocalVcs.Action
import LocalVcs.Layout

namespace LocalVcs

/-- A name and the commit that it stands for. -/
structure Branch where
  name : BranchName
  tip : ObjectId
  deriving DecidableEq

namespace Branches

variable (root : Path)

/-- The file of a branch. -/
def route (name : BranchName) : Route := (Layout.branches root).join name.text

/-- The place of that file. -/
def place (name : BranchName) : String := Layout.branchesPlace ++ "/" ++ name.text

/-! ## 1. Reading -/

/-- The name that HEAD holds, without the blanks around it. -/
def head (t : FileTree) : Except Fault BranchName :=
  match t.text? (Layout.head root) with
  | none => .error (.refused .readHead)
  | some text =>
    match BranchName.ofText? (Text.trimmed text) with
    | some name => .ok name
    | none => .error (.user (.invalidBranchName (Text.trimmed text)))

/-- The branch with a name, if there is one. -/
def get? (t : FileTree) (name : BranchName) : Except Fault (Option Branch) :=
  if t.isFile (route root name) then
    match t.text? (route root name) with
    | none => .error (.refused (.readBranch (place name)))
    | some text =>
      match ObjectId.ofText? (Text.trimmed text) with
      | .ok tip => .ok (some ⟨name, tip⟩)
      | .error _ => .error (.refused (.parseBranch (place name)))
  else .ok none

/-- The branch that a text names; `none` also when it can name none. -/
def find? (t : FileTree) (text : String) : Except Fault (Option Branch) :=
  match BranchName.ofText? text with
  | some name => get? root t name
  | none => .ok none

/-- Whether there is a branch with a name. -/
def contains (t : FileTree) (name : BranchName) : Bool := t.isFile (route root name)

/-- The branch that HEAD names. -/
def current (t : FileTree) : Except Fault Branch := do
  let name ← head root t
  match ← get? root t name with
  | some branch => return branch
  | none => throw (.refused (.findHeadBranch name))

/-- Whether HEAD names this branch. -/
def isCurrent (t : FileTree) (name : BranchName) : Except Fault Bool :=
  (head root t).map (· = name)

/-- The names of the branches that have files, in ascending order. -/
def names (t : FileTree) : List BranchName :=
  match t.locate (Layout.branches root) with
  | none => []
  | some path =>
    ((t.filesBelow path).filterMap fun words =>
      BranchName.ofText? ("/".intercalate (words.map FileName.shown))).mergeSort fun a b =>
        (compare a b).isLE

/-- All branches in the order of their names. -/
def all (t : FileTree) : Except Fault (List Branch) :=
  (names root t).mapM fun name => do
    match ← get? root t name with
    | some branch => return branch
    | none => throw (.refused (.listBranch name))

/-! ## 2. Writing -/

/-- Writes a text to a file, whose directory is made when it is missing. -/
def write (r : Route) (place text : String) : Action Unit := do
  Action.makeDirs .system r.parent
  Action.edit (.refused (.writeRef place)) fun t => t.write? r (.plain (Bytes.ofText text))

/-- Makes a branch, or moves it. -/
def save (branch : Branch) : Action Unit :=
  write (route root branch.name) (place branch.name) branch.tip.text

/-- Makes a branch the current one. -/
def setHead (name : BranchName) : Action Unit := write (Layout.head root) Layout.headPlace name.text

/-- Removes directories of branches from the innermost on, as long as nothing is in them.  The
directories are told by the segments that lead to the innermost one, the last segment first; a
segment that goes nowhere tells of none. -/
def prune : List FileName → Action Unit
  | [] => pure ()
  | segment :: above =>
    if Route.goes segment then do
      let segments := (segment :: above).reverse
      let dir : Route := ⟨root, (Layout.branches root).segments ++ segments⟩
      let place := Layout.branchesPlace ++ "/" ++ "/".intercalate (segments.map FileName.shown)
      let empty ← Action.read fun t => (t.list? dir).elim (.error .system) fun es => .ok es.isEmpty
      if empty then
        Action.edit (.refused (.pruneBranches place)) fun t => t.removeEmptyDir? dir
        prune above
    else prune above

/-- Removes a branch, and the directories that are empty without it. -/
def remove (name : BranchName) : Action Unit := do
  let present ← Action.read fun t => .ok (t.exists? (route root name))
  if present then
    Action.edit (.refused (.deleteBranch (place name))) fun t => t.removeFile? (route root name)
    prune root (segmentsOf name.text).reverse.tail

end Branches

end LocalVcs
