/-
# Editing file trees

What a file system can be asked to do along a route.  Each request is granted, and gives the new
tree, or refused, and changes nothing; `makeDirs` alone may stop half way.

`makeDirs` is the standard `create_dir_all`, and `replace?` stands for a temporary file that is
renamed, as `write_object` does it.
-/
import LocalVcs.FileTree.Route

namespace LocalVcs.FileTree

/-- Writes a file, behind links; refuses a directory and a place that no directory holds. -/
def write? (t : FileTree) (r : Route) (content : Content) : Option FileTree :=
  (t.locate r).bind fun path => t.place? path (.file content)

/-- Writes a file in place of a file or a link. -/
def replace? (t : FileTree) (r : Route) (content : Content) : Option FileTree :=
  (t.locateEntry r).bind fun path => t.place? path (.file content)

/-- Whether a text can be the target of a link. -/
def CanTarget (text : String) : Prop :=
  text ≠ "" ∧ text.utf8ByteSize ≤ Route.longest ∧ '\x00' ∉ text.toList

instance (text : String) : Decidable (CanTarget text) := by
  unfold CanTarget; infer_instance

/-- Makes a link where nothing stands. -/
def link? (t : FileTree) (r : Route) (target : String) : Option FileTree :=
  (t.locateEntry r).bind fun path =>
    if CanTarget target ∧ t.at? path = none then t.place? path (.link target) else none

/-- Makes a directory where nothing stands. -/
def makeDir? (t : FileTree) (r : Route) : Option FileTree :=
  (t.locateEntry r).bind fun path =>
    if t.at? path = none then t.place? path .dir else none

/-- Makes the directories that the segments pass through, from the first one that is missing on.
Stops where one cannot be made; those made before stay. -/
def makeDirsFrom (t : FileTree) (r : Route) : List FileName → Bool × FileTree
  | [] => (t.isDir r, t)
  | name :: rest =>
    if t.isDir (r.child name) then makeDirsFrom t (r.child name) rest
    else
      match t.makeDir? (r.child name) with
      | some t' => makeDirsFrom t' (r.child name) rest
      | none => (false, t)

/-- Makes a directory together with those above it; whether it is there afterwards. -/
def makeDirs (t : FileTree) (r : Route) : Bool × FileTree :=
  if r.CanTell then makeDirsFrom t ⟨r.start, []⟩ r.steps else (false, t)

/-- Removes a file or a link. -/
def removeFile? (t : FileTree) (r : Route) : Option FileTree :=
  (t.locateEntry r).bind fun path =>
    match t.at? path with
    | some (.file _) | some (.link _) => some (t.cut path)
    | _ => none

/-- Removes a directory with nothing in it. -/
def removeEmptyDir? (t : FileTree) (r : Route) : Option FileTree :=
  (t.locateEntry r).bind fun path =>
    if t.at? path = some .dir ∧ t.children path = [] then some (t.cut path) else none

/-- Removes whatever stands at a route, with all that lies below it. -/
def removeAll? (t : FileTree) (r : Route) : Option FileTree :=
  (t.locateEntry r).bind fun path =>
    if (t.at? path).isSome then some (t.cut path) else none

end LocalVcs.FileTree
