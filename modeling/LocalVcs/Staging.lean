/-
# The staging area

What the next commit is to change: names with the contents to be recorded, and names to be dropped,
with the contents they had.  A name is staged in at most one of the two ways.  The staging area lies
in two directories with a file for each entry.

This is `Index`: `reload` is `rehydrate`, `save` is `write_updates`, and the two directories are
read and written by `read_entries` and `write_entries`.

* `Staging.reload`: what is stored.
* `Staging.save`: storing what has changed.
-/
import LocalVcs.Action
import LocalVcs.Layout
import LocalVcs.NameMap

namespace LocalVcs

/-- Staged entries, and whether they differ from what is stored. -/
structure Staging where
  additions : NameMap Bytes
  removals : NameMap Bytes
  changed : Bool
  deriving DecidableEq

namespace Staging

/-! ## 1. Entries -/

/-- Nothing staged. -/
def empty : Staging := ⟨∅, ∅, false⟩

/-- Whether nothing is staged. -/
def isEmpty (s : Staging) : Bool := s.additions.isEmpty && s.removals.isEmpty

/-- Stages contents to be recorded under a name. -/
def add (s : Staging) (name : String) (content : Bytes) : Staging :=
  ⟨s.additions.insert name content, s.removals.erase name, true⟩

/-- Stages a name to be dropped. -/
def remove (s : Staging) (name : String) (content : Bytes) : Staging :=
  ⟨s.additions.erase name, s.removals.insert name content, true⟩

/-- Forgets the contents staged under a name. -/
def unstageAddition (s : Staging) (name : String) : Staging :=
  ⟨s.additions.erase name, s.removals, s.changed || s.additions.contains name⟩

/-- Forgets that a name is to be dropped. -/
def unstageRemoval (s : Staging) (name : String) : Staging :=
  ⟨s.additions, s.removals.erase name, s.changed || s.removals.contains name⟩

/-- Forgets everything that is staged. -/
def clear (s : Staging) : Staging := ⟨∅, ∅, s.changed || !s.isEmpty⟩

/-! ## 2. Reading -/

variable (root : Path)

/-- The stored entries that are staged in one way; none when their directory is missing. -/
def readEntries (t : FileTree) (what : Layout.Staged) : Except Fault (NameMap Bytes) :=
  if t.exists? (Layout.staged root what) then
    match t.list? (Layout.staged root what) with
    | none => .error (.refused (.listStaged (Layout.stagedPlace what)))
    | some entries =>
      .ok (Std.ExtTreeMap.ofList
        ((FileTree.filesOf entries).map fun (name, content) => (name.shown, content.bytes)) compare)
  else .ok ∅

/-- Takes over what is stored.  When the removals cannot be read, the additions have been taken over
already. -/
def reload (t : FileTree) (s : Staging) : Except Fault Unit × Staging :=
  match readEntries root t .addition with
  | .error fault => (.error fault, s)
  | .ok additions =>
    match readEntries root t .removal with
    | .error fault => (.error fault, { s with additions })
    | .ok removals => (.ok (), ⟨additions, removals, false⟩)

/-- What is stored. -/
def load (t : FileTree) : Except Fault Staging :=
  match reload root t empty with
  | (.ok (), s) => .ok s
  | (.error fault, _) => .error fault

/-! ## 3. Writing -/

/-- Removes the files whose entries are not staged any more. -/
def dropStale (what : Layout.Staged) (entries : NameMap Bytes) : List FileName → Action Unit
  | [] => pure ()
  | name :: rest => do
    unless name.shown ∈ entries do
      Action.edit (.refused (.unstage (Layout.stagedPlace what) name)) fun t =>
        t.removeFile? ((Layout.staged root what).child name)
    dropStale what entries rest

/-- Writes a file for each entry. -/
def writeEach (what : Layout.Staged) : List (String × Bytes) → Action Unit
  | [] => pure ()
  | (name, content) :: rest => do
    Action.edit (.refused (.stage name (Layout.stagedPlace what))) fun t =>
      t.write? ((Layout.staged root what).join name) (.plain content)
    writeEach what rest

/-- Makes a directory hold exactly these entries. -/
def writeEntries (what : Layout.Staged) (entries : NameMap Bytes) : Action Unit := do
  let dir := Layout.staged root what
  Action.makeDirs (.refused (.makeStaging (Layout.stagedPlace what))) dir
  let present ← Action.read fun t => (t.list? dir).elim (.error .system) .ok
  dropStale root what entries (present.map Prod.fst)
  writeEach root what entries.toList

/-- Stores what is staged, unless nothing has changed. -/
def save (s : Staging) : Action Staging := do
  if s.changed then
    writeEntries root .addition s.additions
    writeEntries root .removal s.removals
    return { s with changed := false }
  else return s

end Staging

end LocalVcs
