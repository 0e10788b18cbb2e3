/-
# The working tree

The files that the user works on: plain files right in the working directory.  Directories are left
alone, the one that holds the repository among them.

This is `Workspace`: `list_files`, `contains`, `read_file`, `write_file` and `remove_file`, with
`file_path` and `require_file_path` for the names.

* `Worktree.fileName?`: the texts that name a working file, and which file they name.
-/
import LocalVcs.Action
import LocalVcs.Layout

namespace LocalVcs.Worktree

/-! ## 1. Names -/

/-- The name of the working file that a text stands for.  The text is one name, behind which slashes
and dots may follow; it is on one line, and is not the name of the repository's directory. -/
def fileName? (text : String) : Option String :=
  let segments := segmentsOf text
  if text.toList.any (fun c => c = '\n' || c = '\r') then none
  else if isAbsolute text ∨ segments.head? = some (.text ".") then none
  else
    match segments.filter fun (s : FileName) => s ≠ "" ∧ s ≠ "." with
    | [.text name] => if name = ".." ∨ name = Layout.metaName then none else some name
    | _ => none

variable (root : Path)

/-- The route to the working file that a text stands for. -/
def route? (text : String) : Option Route :=
  (fileName? text).map fun name => ⟨root, [.text name]⟩

/-- The route to the working file that a text stands for, or the refusal of the text. -/
def requireRoute (text : String) : Except Fault Route :=
  (route? root text).elim (.error (.refused (.nameAtRoot text))) .ok

/-! ## 2. Reading -/

/-- The names of the working files as they are shown, in ascending order. -/
def list (t : FileTree) : Except Fault (List String) :=
  match t.list? ⟨root, []⟩ with
  | none => .error (.refused .listWorking)
  | some entries =>
    let names := (FileTree.filesOf entries).map fun file => file.1.shown
    .ok ((names.filter fun name => (fileName? name).isSome).mergeSort fun a b => (compare a b).isLE)

/-- Whether a text stands for a working file that is there. -/
def contains (t : FileTree) (text : String) : Bool := (route? root text).any t.isFile

/-- The contents of a working file. -/
def read (t : FileTree) (text : String) : Except Fault Bytes := do
  let route ← requireRoute root text
  (t.bytes? route).elim (.error (.refused (.readWorking text))) .ok

/-! ## 3. Writing -/

/-- Writes a working file.  A directory that stands there gives place to it with all it holds. -/
def write (text : String) (content : Bytes) : Action Unit := do
  let route ← Action.ofExcept (requireRoute root text)
  if ← Action.read fun t => .ok (t.isDir route) then
    Action.edit (.refused (.replaceDirectory text)) fun t => t.removeAll? route
  Action.edit (.refused (.writeWorking text)) fun t => t.write? route (.plain content)

/-- Deletes a working file, if it is there. -/
def remove (text : String) : Action Unit := do
  if ← Action.read fun t => .ok (contains root t text) then
    let route ← Action.ofExcept (requireRoute root text)
    Action.edit (.refused (.deleteWorking text)) fun t => t.removeFile? route

end LocalVcs.Worktree
