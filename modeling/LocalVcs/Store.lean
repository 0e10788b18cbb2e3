/-
# Object stores

A repository keeps blobs and commits in a store each.  An object lies in a file named by its id,
packed; it is never changed and never removed, so saving it again does nothing.

The files are those of `Database`: `save` is `store`, `ids` is `list_object_ids`, and `idsBeginning`
is `find_objects_by_prefix`.  `Blobs` is `BlobStore`, `Commits` is `CommitStore`, and `find?` is
`get_by_fingerprint`.

* `Blobs.get?`, `Commits.get?`: the object that an id names, if one is stored.
* `Commits.find?`: the commit that an id or an abbreviation of one names.
-/
import LocalVcs.Action
import LocalVcs.History
import LocalVcs.Layout

namespace LocalVcs

/-! ## 1. Files of a store -/

namespace Store

variable (root : Path) (kind : Kind)

/-- The encoding that lies in an object's file; `none` when there is no such file. -/
def encoding? (t : FileTree) (id : ObjectId) : Except Damage (Option Bytes) :=
  match t.contents? (Layout.object root kind id) with
  | none => .ok none
  | some (.packed encoding) => .ok (some encoding)
  | some (.plain _) => .error .undecodable

/-- Stores an encoding under an id, unless something is stored there. -/
def save (id : ObjectId) (encoding : Bytes) : Action Unit := do
  let present ← Action.read fun t => .ok (t.exists? (Layout.object root kind id))
  unless present do
    Action.makeDirs (.refused (.makeObjectDir (Layout.objectPlace kind id)))
      ((Layout.store root kind).child id.directory)
    Action.edit (.refused (.writeObject (Layout.objectPlace kind id))) fun t =>
      t.replace? (Layout.object root kind id) (.packed encoding)

/-- Ids in ascending order. -/
def sorted (ids : List ObjectId) : List ObjectId :=
  ids.mergeSort fun a b => (compare a b).isLE

/-- The ids of the files in the directories of a store, in ascending order. -/
def ids (t : FileTree) : List ObjectId :=
  match t.locate (Layout.store root kind) with
  | none => []
  | some path =>
    sorted ((t.children path).flatMap fun (directory, entry) =>
      if entry = .dir then
        (FileTree.filesOf (t.children (directory :: path))).filterMap fun (name, _) =>
          (ObjectId.ofText? (directory.shown ++ name.shown)).toOption
      else [])

/-- The ids in a store that begin with an abbreviation, in ascending order.  From two digits on,
they are looked for in the one directory where they can be. -/
def idsBeginning (t : FileTree) (text : String) : List ObjectId :=
  let start := (ObjectId.lowered text).toList
  if ¬start.all (fun c => decide (Sha1.IsHexDigit c)) then []
  else if start.length < 2 then (ids root kind t).filter (·.beginsWith text)
  else
    let directory := String.ofList (start.take 2)
    match t.list? ((Layout.store root kind).child directory) with
    | none => []
    | some entries =>
      sorted (entries.filterMap fun (name, _) =>
        if (start.drop 2).isPrefixOf name.shown.toList then
          (ObjectId.ofText? (directory ++ name.shown)).toOption
        else none)

end Store

/-! ## 2. Blobs -/

namespace Blobs

variable (root : Path)

/-- The contents stored under an id, if there are any. -/
def get? (t : FileTree) (id : ObjectId) : Except Damage (Option Bytes) := do
  match ← Store.encoding? root .blob t id with
  | none => return none
  | some encoding =>
    match Kind.readHeader encoding with
    | (.ok .blob, content) => return some content
    | (.ok .commit, _) => throw (.wrongKind id .commit .blob)
    | (.error defect, _) => throw (.ofHeader defect)

/-- The contents stored under an id. -/
def load (t : FileTree) (id : ObjectId) : Except Damage Bytes := do
  match ← get? root t id with
  | some content => return content
  | none => throw (.missing .blob id)

/-- Stores contents and gives their id. -/
def save (content : Bytes) : Action ObjectId := do
  let id := Object.blobId content
  Store.save root .blob id (Object.blobEncoding content)
  return id

end Blobs

/-! ## 3. Commits -/

namespace Commits

variable (root : Path)

/-- The commit stored under an id, if there is one. -/
def get? (t : FileTree) (id : ObjectId) : Except Damage (Option Commit) := do
  match ← Store.encoding? root .commit t id with
  | none => return none
  | some encoding =>
    match Kind.readHeader encoding with
    | (.ok .commit, body) =>
      let c ← Commit.ofBody? body
      if c.id = id then return some c else throw (.mismatch id c.id)
    | (.ok .blob, _) => throw (.wrongKind id .blob .commit)
    | (.error defect, _) => throw (.ofHeader defect)

/-- The commit stored under an id. -/
def load (t : FileTree) (id : ObjectId) : Except Damage Commit := do
  match ← get? root t id with
  | some c => return c
  | none => throw (.missing .commit id)

/-- Stores a commit. -/
def save (c : Commit) : Action Unit := Store.save root .commit c.id c.encoding

/-- All stored commits in the order of their ids. -/
def all (t : FileTree) : Except Damage (List Commit) :=
  (Store.ids root .commit t).mapM (load root t)

/-- The commit that an id or an abbreviation names.  A stored id names its commit; else an
abbreviation names the one commit whose id begins so, and nothing when there are more. -/
def find? (t : FileTree) (text : String) : Except Damage (Option Commit) := do
  let exact ← match ObjectId.ofText? text with
    | .ok id => get? root t id
    | .error _ => .ok none
  match exact with
  | some c => return some c
  | none =>
    if text = "" then return none
    else
      match Store.idsBeginning root .commit t text with
      | [id] => get? root t id
      | _ => return none

/-- The commits with a message, in the order of their ids. -/
def withMessage (t : FileTree) (message : String) : Except Damage (List Commit) :=
  (all root t).map fun cs => cs.filter fun c => c.message = message

/-- More items than any walk through stored commits has: one for each file, and one that fails. -/
def walkBound (t : FileTree) : Nat := t.entries.length + 1

/-- A commit and all its ancestors, depth first. -/
def ancestors (t : FileTree) (id : ObjectId) : Except Damage (List Commit) :=
  History.collect ((History.Search.start id).items (load root t) (walkBound t))

/-- A commit and its first parents down to the first commit. -/
def chain (t : FileTree) (id : ObjectId) : Except Damage (List Commit) :=
  History.collect (History.Chain.items (load root t) (walkBound t) (some id))

end Commits

end LocalVcs
