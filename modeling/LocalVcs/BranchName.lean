/-
# Names of branches

A branch is named by a path of words, such as `feature/login`.  Names that a file system or a
command line would take for something else are refused.

This is `BranchName`: `ofText?` gives the names that `try_parse` and `lookup` accept, and `master`
is `default_branch`.

* `BranchName.ofText?`: the texts that are names.
-/
import LocalVcs.Text.Cut

namespace LocalVcs

/-- A character that stands in no name: a control character, the space, and a few marks. -/
def isReservedInNames (c : Char) : Bool :=
  c.toNat ≤ 0x20 || c = '\x7f' || c ∈ ['*', ':', '?', '[', '\\', '~', '^']

/-- Whether a text names a branch. -/
def IsBranchName (cs : List Char) : Prop :=
  cs ≠ [] ∧ cs.head? ≠ some '.' ∧ cs.head? ≠ some '/' ∧ cs.getLast? ≠ some '/' ∧
    Text.occurs ['/', '.'] cs = false ∧ Text.occurs ['.', '.'] cs = false ∧
    ".lock".toList.isSuffixOf cs = false ∧ Text.occurs ['@', '\x7b'] cs = false ∧
    cs.any isReservedInNames = false

instance (cs : List Char) : Decidable (IsBranchName cs) := by
  unfold IsBranchName; infer_instance

/-- The name of a branch. -/
structure BranchName where
  text : String
  valid : IsBranchName text.toList
  deriving DecidableEq

namespace BranchName

@[ext] theorem ext {a b : BranchName} (h : a.text = b.text) : a = b := by
  cases a; cases b; simp_all

/-- The order of the texts' bytes. -/
instance : Ord BranchName := ⟨fun a b => compare a.text b.text⟩

instance : ToString BranchName := ⟨text⟩

/-- The name with this text; `none` when it names no branch. -/
def ofText? (text : String) : Option BranchName :=
  if h : IsBranchName text.toList then some ⟨text, h⟩ else none

@[simp] theorem ofText?_text (name : BranchName) : ofText? name.text = some name := by
  rw [ofText?, dif_pos name.valid]

/-- The branch that a repository starts with. -/
def master : BranchName := ⟨"master", by decide⟩

end BranchName

end LocalVcs
