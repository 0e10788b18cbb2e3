/-
# Actions

A command reads and edits a file tree and prints text; it may fail, and then keeps what it has
edited so far.  Reading alone is a function of the tree that leaves it as it is.

What commands share through `Repository`, the directory that they work on and the writer that they
print to, is the `World` here.
-/
import LocalVcs.Fault
import LocalVcs.FileTree.Edit

namespace LocalVcs

/-- What a command works on: the file tree, and the text it has printed. -/
structure World where
  tree : FileTree
  printed : String
  deriving DecidableEq

/-- A step of a command. -/
abbrev Action := ExceptT Fault (StateM World)

namespace Action

/-- Takes what is read off the tree, or the fault that reading it meets. -/
def read (view : FileTree → Except Fault α) : Action α := fun w => (view w.tree, w)

/-- Takes the value of something, or its fault. -/
def ofExcept (result : Except Fault α) : Action α := fun w => (result, w)

/-- Edits the tree; fails with `fault` where the request is refused. -/
def edit (fault : Fault) (request : FileTree → Option FileTree) : Action Unit := fun w =>
  match request w.tree with
  | some tree => (.ok (), { w with tree })
  | none => (.error fault, w)

/-- Makes a directory and those above it; fails with `fault` where that stops half way. -/
def makeDirs (fault : Fault) (r : Route) : Action Unit := fun w =>
  let (made, tree) := w.tree.makeDirs r
  (if made then .ok () else .error fault, { w with tree })

/-- Prints text. -/
def print (text : String) : Action Unit := fun w =>
  (.ok (), { w with printed := w.printed ++ text })

/-- Gives another fault in place of the one that `action` meets; a user error stays. -/
def orFault (fault : Fault) (action : Action α) : Action α := fun w =>
  match action w with
  | (.error (.user error), w') => (.error (.user error), w')
  | (.error _, w') => (.error fault, w')
  | (.ok a, w') => (.ok a, w')

/-- Fails with a user error. -/
def fail (error : UserError) : Action α := throw (.user error)

end Action

end LocalVcs
