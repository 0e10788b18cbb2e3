/-
# Damaged objects

Why an object cannot be loaded from a store: it is not there, its file cannot be unpacked, its
encoding breaks the format, or it is not the object that its id names.

These are the ways in which `load` and `get` of a store fail, and `deserialize` of `Commit` and
`Blob`.
-/
import LocalVcs.Object.Kind
import LocalVcs.Text.Quoted

namespace LocalVcs

/-- Where the text of a commit breaks its format. -/
inductive CommitDefect
  | noSeparator
  | noTimestamp
  | timestampShape
  | timestampNumber
  | offsetShape (text : String)
  | offsetRange (text : String)
  | timestampRange
  | fileLine
  | unexpectedLine (line : String)
  deriving DecidableEq

/-- The text of the complaint. -/
def CommitDefect.message : CommitDefect → String
  | noSeparator => "missing message separator"
  | noTimestamp => "missing timestamp line"
  | timestampShape => "malformed timestamp"
  | timestampNumber => "timestamp is not a number"
  | offsetShape text => "malformed offset " ++ text
  | offsetRange text => "offset out of range " ++ text
  | timestampRange => "timestamp out of range"
  | fileLine => "invalid file line"
  | unexpectedLine line => "unexpected line " ++ Text.quote line

/-- Why an object cannot be loaded. -/
inductive Damage
  /-- No object of this kind is stored under the id. -/
  | missing (kind : Kind) (id : ObjectId)
  /-- The object's file does not hold packed bytes. -/
  | undecodable
  /-- A text in the object is not UTF-8. -/
  | notUtf8
  /-- The header names no kind. -/
  | unknownKind (word : String)
  /-- The text of a commit breaks its format. -/
  | commitText (defect : CommitDefect)
  /-- The text of a commit names an object that cannot be. -/
  | malformedId (defect : ObjectId.Malformed)
  /-- The object is of another kind than the store's. -/
  | wrongKind (id : ObjectId) (found wanted : Kind)
  /-- The commit is not the one that its id names. -/
  | mismatch (id actual : ObjectId)
  deriving DecidableEq

namespace Damage

/-- The damage that a header's defect amounts to. -/
def ofHeader : Kind.HeaderDefect → Damage
  | .notUtf8 => notUtf8
  | .unknownWord text => unknownKind text

/-- The text of the complaint. -/
def message : Damage → String
  | missing .blob id => "blob " ++ id.text ++ " is missing from the object store"
  | missing .commit id => "commit " ++ id.text ++ " is missing from the store"
  | undecodable => "Unable to decompress object content"
  | notUtf8 => "invalid utf-8"
  | unknownKind word => "Invalid object type: " ++ word
  | commitText defect => "Invalid commit object: " ++ defect.message
  | malformedId defect => defect.message
  | wrongKind id found wanted =>
    "object " ++ id.text ++ " is a " ++ found.word ++ ", not a " ++ wanted.word
  | mismatch id actual =>
    "commit object " ++ id.text ++ " is corrupt: content hashes to " ++ actual.text

end Damage

end LocalVcs
