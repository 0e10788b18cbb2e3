/-
# Log entries

The block of lines that tells of one commit in a log.

`logEntry` is `format_entry`.
-/
import LocalVcs.Commit

namespace LocalVcs

/-- The line that names both parents of a merge in short; no other commit has one. -/
def Commit.mergeLine (c : Commit) : List String :=
  match c.parent?, c.mergedParent? with
  | some first, some second => ["Merge: " ++ first.short ++ " " ++ second.short]
  | _, _ => []

/-- The block for a commit, with the date as a reader sees it whose zone at each second `zone`
tells, and an empty line at the end. -/
def logEntry (zone : Time.Zone) (c : Commit) : String :=
  let date := String.ofList (Time.logDate (zone c.moment.seconds) c.moment)
  Text.ofLines
    (["===", "commit " ++ c.id.text] ++ c.mergeLine ++ ["Date: " ++ date, c.message, ""])

end LocalVcs
