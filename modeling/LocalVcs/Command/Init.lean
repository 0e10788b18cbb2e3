/-
# Starting a repository

This is `init` of `Repository`.
-/
import LocalVcs.Command.Basic

namespace LocalVcs.Command

/-- Makes the directories of a repository, the first commit, and the branch `master` that is current
and stands for it. -/
def init (root : Path) : Action Unit := do
  if ← Action.read fun t => .ok (isInitialized root t) then
    Action.fail .alreadyInitialized
  Action.makeDirs (.refused (.makeArea ".gitlet/objects")) (Layout.store root .blob)
  Action.makeDirs (.refused (.makeArea ".gitlet/commits")) (Layout.store root .commit)
  Action.makeDirs (.refused (.makeArea ".gitlet/branches")) (Layout.branches root)
  Action.makeDirs (.refused (.makeArea ".gitlet/index/addition")) (Layout.staged root .addition)
  Action.makeDirs (.refused (.makeArea ".gitlet/index/removal")) (Layout.staged root .removal)
  Action.orFault (.refused .storeInitial) (Commits.save root Commit.initial)
  Branches.save root ⟨BranchName.master, Commit.initial.id⟩
  Action.orFault (.refused .createHead) (Branches.setHead root BranchName.master)

end LocalVcs.Command
