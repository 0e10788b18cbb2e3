/-
# Requests

What a user can ask for, and how a request is carried out: the date for new commits is read, the
working directory must hold a repository, and then the command runs.

The date is `commit_timestamp` of `Config`, which `from_env` reads; the requests are those that
`run` chooses from.

* `Request.run`: the command for a request.
* `Request.perform`: the whole of it.
-/
import LocalVcs.Command.Branch
import LocalVcs.Command.Init
import LocalVcs.Command.Merge
import LocalVcs.Command.Report
import LocalVcs.Command.Stage
import LocalVcs.Time.Written

namespace LocalVcs

/-- What a user can ask for. -/
inductive Request
  | init
  | add (file : String)
  | commit (message : String)
  | rm (file : String)
  | log
  | globalLog
  | find (message : String)
  | status
  /-- Taking a file out of a commit, or switching to a branch: a target alone is a branch, a target
  with a file is a commit, and a file alone stands for the current commit. -/
  | checkout (target file : Option String)
  | branch (name : String)
  | rmBranch (name : String)
  | reset (commit : String)
  | merge (branch : String)
  deriving DecidableEq

/-- Where and when commands run. -/
structure Settings where
  /-- The working directory. -/
  root : Path
  /-- The date that is to stand in new commits, as it is written. -/
  date : Option String
  /-- The time; it stands in new commits when no date is to. -/
  now : Time.Moment
  /-- The zone that logs are read in. -/
  zone : Time.Zone

namespace Request

/-- The command for a request. -/
def run (root : Path) (zone : Time.Zone) (date : Time.Moment) : Request → Action Unit
  | init => Command.init root
  | add file => Command.add root file
  | commit message => Command.commit root date message
  | rm file => Command.rm root file
  | log => Command.log root zone
  | globalLog => Command.globalLog root zone
  | find message => Command.find root message
  | status => Command.status root
  | checkout none none => Action.fail .incorrectOperands
  | checkout none (some file) => Command.checkoutFile root file
  | checkout (some target) (some file) => Command.checkoutFileAt root target file
  | checkout (some target) none => Command.checkoutBranch root target
  | branch name => Command.branch root name
  | rmBranch name => Command.rmBranch root name
  | reset target => Command.reset root target
  | merge name => Command.merge root date name

/-- The moment for new commits. -/
def commitMoment (settings : Settings) : Except Fault Time.Moment :=
  match settings.date with
  | none => .ok settings.now
  | some text => (Time.readDate? text).elim (.error (.invalidDate text)) .ok

/-- Carries out a request.  Only `init` needs no repository; `guarded` is false where the caller
answers for that. -/
def perform (settings : Settings) (guarded : Bool) (request : Request) : Action Unit := do
  let date ← Action.ofExcept (commitMoment settings)
  if guarded ∧ request ≠ init then Command.ensureInitialized settings.root
  request.run settings.root settings.zone date

end Request

end LocalVcs
