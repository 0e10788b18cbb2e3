/-
# Untracked files in the way

A working file that no commit holds exists nowhere else, so nothing may write over it or delete it.

This is `find_untracked_in_the_way`.
-/
import LocalVcs.Commit

namespace LocalVcs

/-- The first of the `touched` names that is a working file and is not tracked. -/
def untrackedInTheWay? (working : List String) (tracked : Manifest) (touched : List String) :
    Option String :=
  touched.find? fun name => name ∉ tracked ∧ name ∈ working

end LocalVcs
