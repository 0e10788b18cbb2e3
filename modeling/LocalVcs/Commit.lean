/-
# Commits

A commit is a snapshot: which blob each tracked name holds, together with a message, a moment and
the commits it follows.  Its encoding is a text of lines, so its id is a function of its fields:

    timestamp 1672574400 +0000
    parent 0be787c959fcaddf54cad419cf4ecef335e3300c
    file 2e65efe2a145dda7ee51d1741299f848e5bf752e foo.txt

    the message

This is `Commit` as `encode_body` writes it and `deserialize` reads it, with `parse_timestamp` as
`readMoment`; `Object` puts commits beside `Blob`.

* `Commit.encoding`: the bytes that name the commit.
* `Commit.ofBody?`: the commit that a text of this form tells of.
-/
import LocalVcs.NameMap
import LocalVcs.Object.Damage
import LocalVcs.Text.Cut
import LocalVcs.Time.Moment

namespace LocalVcs

open Text

/-- Which blob each tracked name holds. -/
abbrev Manifest := NameMap ObjectId

/-- A snapshot of the tracked files with its place in the history: no parent for the first commit,
one as a rule, two for a merge, the primary one first. -/
structure Commit where
  message : String
  moment : Time.Moment
  parents : List ObjectId
  manifest : Manifest
  deriving DecidableEq

namespace Commit

/-! ## 1. Writing -/

/-- The line for a parent. -/
def parentLine (id : ObjectId) : List Char := "parent ".toList ++ id.text.toList

/-- The line for a tracked name. -/
def fileLine (entry : String × ObjectId) : List Char :=
  "file ".toList ++ entry.2.text.toList ++ ' ' :: entry.1.toList

/-- The line for the moment. -/
def momentLine (moment : Time.Moment) : List Char :=
  "timestamp ".toList ++ Decimal.ofInt moment.seconds ++ ' ' :: Time.offsetText moment.offset

/-- The lines before the message, names in ascending order. -/
def headerLines (c : Commit) : List (List Char) :=
  momentLine c.moment :: (c.parents.map parentLine ++ c.manifest.toList.map fileLine)

/-- The text of a commit. -/
def body (c : Commit) : String :=
  String.ofList (['\n'].intercalate c.headerLines ++ '\n' :: '\n' :: c.message.toList)

/-- The bytes that a commit is stored as. -/
def encoding (c : Commit) : Bytes := Kind.commit.frame (Bytes.ofText c.body)

/-- The header of a commit's encoding as a text. -/
def headerText (c : Commit) : String :=
  Kind.commit.word ++ " " ++ String.ofList (Decimal.ofNat c.body.utf8ByteSize) ++ "\x00"

/-- The name of a commit: the digest of its header and its body, written as one text. -/
def id (c : Commit) : ObjectId := ObjectId.ofEncoding (Bytes.ofText (c.headerText ++ c.body))

/-- The two ways of writing the header agree. -/
theorem ofText_headerText_body (c : Commit) :
    Bytes.ofText (c.headerText ++ c.body) = c.encoding := by
  have blank : Bytes.ofText " " = [0x20] := by decide
  have zero : Bytes.ofText "\x00" = [0x00] := by decide
  rw [encoding, Kind.frame, headerText, Bytes.length_ofText]
  simp only [Bytes.ofText_append, blank, zero, List.append_assoc, List.cons_append, List.nil_append]

theorem id_eq (c : Commit) : c.id = ObjectId.ofEncoding c.encoding := by
  rw [id, ofText_headerText_body]

/-! ## 2. Reading -/

/-- Reads what follows the word `timestamp`. -/
def readMoment (cs : List Char) : Except CommitDefect Time.Moment := do
  let (secondsText, offsetText) ← (cutAt [' '] cs).elim (.error .timestampShape) .ok
  let seconds ← (Decimal.readInt64? secondsText).elim (.error .timestampNumber) .ok
  let offset ← match Time.readOffset offsetText with
    | .ok offset => .ok offset
    | .error .malformed => .error (.offsetShape (String.ofList offsetText))
    | .error .outOfRange => .error (.offsetRange (String.ofList offsetText))
  (Time.Moment.ofParts? seconds offset).elim (.error .timestampRange) .ok

/-- Reads an id in the text of a commit. -/
def readId (cs : List Char) : Except Damage ObjectId :=
  (ObjectId.ofText? (String.ofList cs)).mapError .malformedId

/-- Adds what one line after the first tells. -/
def addLine (read : List ObjectId × Manifest) (line : List Char) :
    Except Damage (List ObjectId × Manifest) :=
  match after? "parent " line with
  | some parent => do
    let id ← readId parent
    return (read.1 ++ [id], read.2)
  | none =>
    match after? "file " line with
    | some entry =>
      match cutAt [' '] entry with
      | some (blob, name) => do
        let id ← readId blob
        return (read.1, read.2.insert (String.ofList name) id)
      | none => .error (.commitText .fileLine)
    | none => .error (.commitText (.unexpectedLine (String.ofList line)))

/-- Reads the text of a commit.  The first empty line ends the header; the message is the rest, to
the last character. -/
def ofText? (text : String) : Except Damage Commit := do
  let (header, message) ← (cutAt ['\n', '\n'] text.toList).elim
    (.error (.commitText .noSeparator)) .ok
  let (first, others) ← match Text.lines header with
    | line :: others =>
      match after? "timestamp " line with
      | some first => .ok (first, others)
      | none => .error (.commitText .noTimestamp)
    | [] => .error (.commitText .noTimestamp)
  let moment ← (readMoment first).mapError .commitText
  let (parents, manifest) ← others.foldlM addLine ([], ∅)
  return ⟨String.ofList message, moment, parents, manifest⟩

/-- Reads the body of a commit's encoding. -/
def ofBody? (body : Bytes) : Except Damage Commit :=
  match Bytes.text? body with
  | some text => ofText? text
  | none => .error .notUtf8

/-! ## 3. Views -/

/-- The commit before this one on its own branch. -/
def parent? (c : Commit) : Option ObjectId := c.parents.head?

/-- The commit that a merge brought in. -/
def mergedParent? (c : Commit) : Option ObjectId := c.parents[1]?

/-- Whether the commit joins two histories. -/
def isMerge (c : Commit) : Bool := 1 < c.parents.length

/-- The blob that a name holds in the snapshot. -/
def tracked? (c : Commit) (name : String) : Option ObjectId := c.manifest[name]?

/-- What is kept of a commit where it is written down: all but the moment as it is. -/
def told (c : Commit) : Commit := { c with moment := c.moment.told }

/-- The commit that every history begins with. -/
def initial : Commit := ⟨"initial commit", Time.Moment.epoch, [], ∅⟩

end Commit

/-! ## 4. Objects of either kind -/

/-- What an encoding stands for. -/
inductive Object
  | blob (content : Bytes)
  | commit (commit : Commit)
  deriving DecidableEq

namespace Object

/-- The encoding of a file's contents. -/
def blobEncoding (content : Bytes) : Bytes := Kind.blob.frame content

/-- The name of a blob with these contents. -/
def blobId (content : Bytes) : ObjectId := ObjectId.ofEncoding (blobEncoding content)

/-- Reads an encoding, header and body. -/
def ofEncoding? (encoding : Bytes) : Except Damage Object :=
  match Kind.readHeader encoding with
  | (.ok .blob, body) => .ok (.blob body)
  | (.ok .commit, body) => (Commit.ofBody? body).map .commit
  | (.error defect, _) => .error (.ofHeader defect)

end Object

end LocalVcs
