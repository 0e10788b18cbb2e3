/-
# Faults

Why a command fails.  A user error is expected: it says what the user asked for in vain, and the
command ends well.  The rest are failures: a damaged object, or a request that the file system
refused.  `Fault.message` holds every wording.

The user errors are those of `UserError`; the refusals are the contexts that the commands and the
areas of a repository add to what goes wrong.
-/
import LocalVcs.BranchName
import LocalVcs.FileTree.FileName
import LocalVcs.Object.Damage

namespace LocalVcs

/-! ## 1. User errors -/

/-- What the user asked for in vain. -/
inductive UserError
  | alreadyInitialized
  | notInitialized
  | fileNotFound
  | emptyCommitMessage
  | nothingStaged
  | noReasonToRemove
  | noCommitWithMessage
  | noSuchCommit
  | fileNotInCommit
  | alreadyOnBranch
  | noSuchBranch
  | untrackedFileInTheWay
  | branchExists
  | branchNotFound
  | removeCurrentBranch
  | uncommittedChanges
  | mergeWithItself
  | incorrectOperands
  | invalidBranchName (text : String)
  deriving DecidableEq

/-- What the user reads. -/
def UserError.message : UserError → String
  | alreadyInitialized =>
    "A Gitlet version-control system already exists in the current directory."
  | notInitialized => "Not in an initialized Gitlet directory."
  | fileNotFound => "File does not exist."
  | emptyCommitMessage => "Please enter a commit message."
  | nothingStaged => "No changes added to the commit."
  | noReasonToRemove => "No reason to remove the file."
  | noCommitWithMessage => "Found no commit with that message."
  | noSuchCommit => "No commit with that id exists."
  | fileNotInCommit => "File does not exist in that commit."
  | alreadyOnBranch => "No need to checkout the current branch."
  | noSuchBranch => "No such branch exists."
  | untrackedFileInTheWay =>
    "There is an untracked file in the way; delete it, or add and commit it first."
  | branchExists => "A branch with that name already exists."
  | branchNotFound => "A branch with that name does not exist."
  | removeCurrentBranch => "Cannot remove the current branch."
  | uncommittedChanges => "You have uncommitted changes."
  | mergeWithItself => "Cannot merge a branch with itself."
  | incorrectOperands => "Incorrect operands."
  | invalidBranchName text => "Invalid branch name: " ++ text

/-! ## 2. Refusals -/

/-- What could not be done with the files of a repository or of its working tree.  Places are told
as paths below the working directory. -/
inductive Refusal
  /-- HEAD cannot be read as text. -/
  | readHead
  /-- HEAD names a branch that is not there. -/
  | findHeadBranch (name : BranchName)
  /-- A branch's file cannot be read as text. -/
  | readBranch (place : String)
  /-- A branch's file holds no id. -/
  | parseBranch (place : String)
  /-- A branch is listed and is not there. -/
  | listBranch (name : BranchName)
  /-- HEAD or a branch's file cannot be written. -/
  | writeRef (place : String)
  /-- A branch's file cannot be deleted. -/
  | deleteBranch (place : String)
  /-- An empty directory of branches cannot be removed. -/
  | pruneBranches (place : String)
  /-- A directory of staged files cannot be listed. -/
  | listStaged (place : String)
  /-- A directory for staged files cannot be made. -/
  | makeStaging (place : String)
  /-- The file of an entry that is no longer staged cannot be removed. -/
  | unstage (place : String) (name : FileName)
  /-- The file of a staged entry cannot be written. -/
  | stage (name place : String)
  /-- The directory for an object cannot be made. -/
  | makeObjectDir (place : String)
  /-- An object's file cannot be written. -/
  | writeObject (place : String)
  /-- A name is none of a file in the working tree. -/
  | nameAtRoot (name : String)
  /-- The working tree cannot be listed. -/
  | listWorking
  /-- A working file cannot be read. -/
  | readWorking (name : String)
  /-- A directory cannot give place to a working file. -/
  | replaceDirectory (name : String)
  /-- A working file cannot be written. -/
  | writeWorking (name : String)
  /-- A working file cannot be deleted. -/
  | deleteWorking (name : String)
  /-- A directory of a new repository cannot be made. -/
  | makeArea (place : String)
  /-- The first commit of a new repository cannot be stored. -/
  | storeInitial
  /-- HEAD of a new repository cannot be written. -/
  | createHead
  deriving DecidableEq

/-- A place below the working directory, in quotes. -/
def quotedPlace (root place : String) : String := Text.quote (root ++ "/" ++ place)

/-- An entry of a directory below the working directory, in quotes. -/
def quotedEntry (root place : String) (name : FileName) : String :=
  let above := root ++ "/" ++ place ++ "/"
  String.ofList ('"' :: above.toList.flatMap Text.escape ++ name.escaped ++ ['"'])

/-- The text of a refusal to the user whose working directory is `root`. -/
def Refusal.message (root : String) : Refusal → String
  | readHead => "failed to read HEAD at " ++ quotedPlace root ".gitlet/HEAD"
  | findHeadBranch name => "HEAD points at missing branch " ++ name.text
  | readBranch place => "failed to read branch file at " ++ quotedPlace root place
  | parseBranch place => "branch file at " ++ quotedPlace root place ++ " is corrupt"
  | listBranch name => "branch " ++ name.text ++ " disappeared while listing"
  | writeRef place => "failed to write ref file at " ++ quotedPlace root place
  | deleteBranch place => "failed to delete branch file at " ++ quotedPlace root place
  | pruneBranches place =>
    "failed to remove empty branch directory at " ++ quotedPlace root place
  | listStaged place => "failed to list staged files in " ++ quotedPlace root place
  | makeStaging place => "failed to create staging directory " ++ quotedPlace root place
  | unstage place name => "failed to unstage " ++ quotedEntry root place name
  | stage name place => "failed to stage " ++ name ++ " in " ++ quotedPlace root place
  | makeObjectDir place => "Unable to create object directory " ++ root ++ "/" ++ place
  | writeObject place => "Unable to rename object file to " ++ root ++ "/" ++ place
  | nameAtRoot name => Text.quote name ++ " is not a file name at the working tree root"
  | listWorking => "failed to list working directory " ++ Text.quote root
  | readWorking name => "failed to read working file " ++ name
  | replaceDirectory name => "failed to replace directory " ++ name ++ " with a file"
  | writeWorking name => "failed to write working file " ++ name
  | deleteWorking name => "failed to delete working file " ++ name
  | makeArea place => "Failed to create " ++ place ++ " directory"
  | storeInitial => "Failed to store the initial commit"
  | createHead => "Failed to create initial HEAD reference"

/-! ## 3. Faults -/

/-- Why a command fails. -/
inductive Fault
  /-- The user asked in vain. -/
  | user (error : UserError)
  /-- An object cannot be loaded. -/
  | damaged (damage : Damage)
  /-- A request was refused, and it is known what for. -/
  | refused (refusal : Refusal)
  /-- A request was refused, and nothing more is said. -/
  | system
  /-- The date for new commits is no date. -/
  | invalidDate (text : String)
  /-- Two commits have no ancestor in common. -/
  | noSharedHistory (head other : ObjectId)
  deriving DecidableEq

/-- The text of a fault to the user whose working directory is `root`. -/
def Fault.message (root : String) : Fault → String
  | user error => error.message
  | damaged damage => damage.message
  | refused refusal => refusal.message root
  | system => "operating system error"
  | invalidDate text => "GITLET_DATE is not a valid date: " ++ text
  | noSharedHistory head other => head.text ++ " and " ++ other.text ++ " share no history"

end LocalVcs
