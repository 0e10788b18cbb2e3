/-
# Cutting texts

Texts are cut as lists of characters: at the first place where a mark occurs, and at line ends. 
They are put together from lines.

`cutAt`, `after?` and `lines` are the standard `split_once`, `strip_prefix` and `lines`, as
`deserialize` of `Commit` uses them.
-/

namespace LocalVcs.Text

/-- Whether `piece` stands somewhere in the text. -/
def occurs (piece : List Char) : List Char → Bool
  | [] => piece.isEmpty
  | c :: rest => piece.isPrefixOf (c :: rest) || occurs piece rest

/-- The text before and after the first place where `mark` stands. -/
def cutAt (mark : List Char) : List Char → Option (List Char × List Char)
  | [] => if mark.isEmpty then some ([], []) else none
  | c :: rest =>
    match mark.isPrefixOf? (c :: rest) with
    | some after => some ([], after)
    | none => (cutAt mark rest).map fun (before, after) => (c :: before, after)

/-- The text after `start`, when it begins so. -/
def after? (start : String) (cs : List Char) : Option (List Char) :=
  start.toList.isPrefixOf? cs

/-- A line without the carriage return that it may end in. -/
def withoutReturn (line : List Char) : List Char :=
  if line.getLast? = some '\r' then line.dropLast else line

/-- The lines of a text.  A line feed ends a line, together with a carriage return before it; what
follows the last line feed is a line when it is not empty, and is then left as it is. -/
def lines (cs : List Char) : List (List Char) :=
  let pieces := cs.splitOn '\n'
  pieces.dropLast.map withoutReturn ++ (pieces.getLast?.filter (· ≠ [])).toList

/-- The text of some lines, a line feed behind each. -/
def ofLines (lines : List String) : String := String.join (lines.map (· ++ "\n"))

end LocalVcs.Text
