/-
# Maps by name

Finite maps from names to values, in the order of the names' bytes.  Two maps with the same entries
are equal, so a map is the same however it was put together.
-/
import Std.Data.ExtTreeMap

namespace LocalVcs

/-- A finite map from names, equal to another when it has the same entries. -/
abbrev NameMap (α : Type) := Std.ExtTreeMap String α compare

end LocalVcs
