/-
# The outcome of a commit

A commit has three outcomes: it is refused without a message, or with nothing staged, and then
nothing has changed; else it goes through.  The new commit comes behind the old tip and holds what
was staged, and the log has grown by it.

In no state of a run is a name staged both ways, so the snapshot may be told by cases: what is
staged to be recorded, what is staged to be dropped, and what the commit before holds.

* `Staging.OneWay`, `Run.stagedOneWay`: no name is staged both ways.
* `Logs`: what the log of a state is.
* `Committed`: what a commit has done; `Run.commit_comes_to`: committing in any state of a run.
-/
import LocalVcs.Proofs.Effects
import LocalVcs.Proofs.Restoring
import LocalVcs.Proofs.WellFormed

namespace LocalVcs

open FileTree Layout

variable {root : Path} {t t' : FileTree} {mine : Branch} {head : Commit} {staging : Staging}
  {date : Time.Moment} {past : List Recording}

/-! ## 1. No name is staged both ways -/

namespace Staging

/-- No name is staged both ways. -/
def OneWay (s : Staging) : Prop := ∀ name ∈ s.additions, name ∉ s.removals

theorem oneWay_empty : empty.OneWay := fun _ h => absurd h Std.ExtTreeMap.not_mem_empty

variable {s : Staging} (h : s.OneWay)

include h

theorem OneWay.unstageAddition (file : String) : (s.unstageAddition file).OneWay :=
  fun name hname => h name (Std.ExtTreeMap.mem_erase.mp hname).2

theorem OneWay.unstageRemoval (file : String) : (s.unstageRemoval file).OneWay :=
  fun name hname hremoved => h name hname (Std.ExtTreeMap.mem_erase.mp hremoved).2

theorem OneWay.add (file : String) (content : Bytes) : (s.add file content).OneWay := by
  intro name hname hremoved
  obtain ⟨other, hremoved⟩ := Std.ExtTreeMap.mem_erase.mp hremoved
  rcases Std.ExtTreeMap.mem_insert.mp hname with same | hadded
  · exact other same
  · exact h name hadded hremoved

theorem OneWay.remove (file : String) (content : Bytes) : (s.remove file content).OneWay := by
  intro name hname hremoved
  obtain ⟨other, hadded⟩ := Std.ExtTreeMap.mem_erase.mp hname
  rcases Std.ExtTreeMap.mem_insert.mp hremoved with same | hremoved
  · exact other same
  · exact h name hadded hremoved

theorem OneWay.stageContent (file : String) (content : Bytes) :
    (Command.stageContent head s file content).OneWay := by
  unfold Command.stageContent
  split
  · exact (h.unstageAddition file).unstageRemoval file
  · exact (h.add file content).unstageRemoval file

end Staging

/-- What is stored in the staging area is staged one way. -/
def StagedOneWay (root : Path) (t : FileTree) : Prop := ∃ s, Shows root t s ∧ s.OneWay

namespace StagedOneWay

theorem oneWay (h : StagedOneWay root t) (intact : Intact root t)
    (hload : Staging.load root t = .ok staging) : staging.OneWay := by
  obtain ⟨s, shows_, oneWay⟩ := h
  obtain rfl := Except.ok.inj
    ((Staging.load_of_shows intact.housed intact.index shows_).symm.trans hload)
  exact oneWay

theorem of_touches (h : StagedOneWay root t) {areas : List Area} (touch : Touches root areas t t')
    (away : ∀ what, Area.index what ∉ areas) : StagedOneWay root t' := by
  obtain ⟨s, shows_, oneWay⟩ := h
  exact ⟨s, shows_.of_touches touch away, oneWay⟩

theorem of_edit (h : StagedOneWay root t) (edit : UserEdit root t t') : StagedOneWay root t' := by
  obtain ⟨s, shows_, oneWay⟩ := h
  exact ⟨s, shows_.congr fun what name => edit.at?_eq (holds_staged what name) (by simp), oneWay⟩

theorem of_empty (h : Shows root t Staging.empty) : StagedOneWay root t :=
  ⟨Staging.empty, h, Staging.oneWay_empty⟩

/-- **A request stages no name both ways.** -/
theorem of_effect (h : StagedOneWay root t) (finds : Finds root t mine head staging)
    {request : Request} {r : Except Fault Unit}
    (effect : Effect root t mine head staging date request r t') : StagedOneWay root t' := by
  have oneWay := h.oneWay finds.intact finds.staging
  cases effect with
  | refused | reported | behind => exact h
  | staged _ _ _ shows_ => exact ⟨_, shows_, oneWay.stageContent _ _⟩
  | dropped _ _ _ shows_ => exact ⟨_, shows_, (oneWay.unstageAddition _).remove _ _⟩
  | unstaged _ _ _ shows_ => exact ⟨_, shows_, oneWay.unstageAddition _⟩
  | restored _ _ _ trackable edit => exact h.of_touches (edit.touches trackable.notMeta) (by simp)
  | branched _ _ touch | halted touch | removed _ _ _ touch => exact h.of_touches touch (by simp)
  | committed _ _ recorded => exact of_empty recorded.index
  | switched _ switched | reset _ switched | forwarded _ _ switched =>
    exact of_empty switched.index
  | merged _ merged => exact of_empty merged.recorded.index

end StagedOneWay

/-- A request that is carried out stages no name both ways, whether a branch is current or none. -/
theorem StagedOneWay.of_perform (h : StagedOneWay root t) (intact : Intact root t)
    {settings : Settings} {request : Request} (here : settings.root = root)
    (dates : settings.Dates request) {guarded : Bool} {printed : String}
    {r : Except Fault Unit} {w' : World}
    (hrun : request.perform settings guarded ⟨t, printed⟩ = (r, w')) :
    StagedOneWay root w'.tree := by
  cases hcurrent : Branches.current root t with
  | error fault =>
    have touch := Request.perform_of_no_current intact (fun b hb => by simp [hcurrent] at hb) here
      request guarded printed
    rw [Action.Leads, hrun] at touch
    exact h.of_touches touch (by simp)
  | ok mine =>
    obtain ⟨head, -, -, hload⟩ := intact.load_of_current hcurrent
    obtain ⟨staging, hstaging, -⟩ := Staging.load_eq intact.housed intact.index
    have finds : Finds root t mine head staging := ⟨intact, hcurrent, hload, hstaging⟩
    have effect := Request.perform_effect finds here request dates guarded printed
    rw [Action.Leads, hrun] at effect
    obtain ⟨date, effect⟩ := effect
    exact h.of_effect finds effect

/-- **In no state of a run is a name staged both ways.** -/
theorem Run.stagedOneWay {allowed : Request → Prop} (run : Run root allowed Settings.Dates past t) :
    StagedOneWay root t := by
  induction run with
  | start free hinit => exact StagedOneWay.of_empty (Command.begun_of_init free hinit).index
  | edit _ edit ih => exact ih.of_edit edit
  | other run here dates _ hrun _ ih => exact ih.of_perform run.intact here dates hrun
  | recording run here dates _ hrun _ _ ih => exact ih.of_perform run.intact here dates hrun

/-! ## 2. The log -/

/-- The log of a state: these are the commits from the current one on, each followed by its first
parent, and they are what is printed. -/
structure Logs (root : Path) (t : FileTree) (b : Branch) (cs : List Commit) : Prop where
  chain : Commits.chain root t b.tip = .ok cs
  prints : ∀ zone printed, Command.log root zone ⟨t, printed⟩ =
    (.ok (), ⟨t, printed ++ String.join (cs.map (logEntry zone))⟩)

theorem Logs.of_line (h : Intact root t) (hcurrent : Branches.current root t = .ok mine)
    {cs : List Commit} (line : History.Line (Commits.load root t) mine.tip cs) :
    Logs root t mine cs := by
  have chain := h.chain_of_line line
  refine ⟨chain, fun zone printed => ?_⟩
  obtain ⟨c, -, hid, hload⟩ := h.load_of_current hcurrent
  have walked : Command.undamaged (fun t => Commits.chain root t c.id) ⟨t, printed⟩ =
      (.ok cs, ⟨t, printed⟩) := Command.undamaged_run (hid ▸ chain)
  rw [Command.log, Action.bind_run_ok (Command.headCommit_run hcurrent hload),
    Action.bind_run_ok walked]
  rfl

/-! ## 3. What a commit has done -/

/-- From `t` to `t'` the commit `c` has been recorded on the current branch `mine`, behind `parent`,
with what was staged. -/
structure Committed (root : Path) (message : String) (date : Time.Moment) (mine : Branch)
    (parent : Commit) (staging : Staging) (log : List Commit) (c : Commit) (t t' : FileTree) :
    Prop where
  message_eq : c.message = message
  /-- The whole second is recorded, in the zone to the minute. -/
  moment_eq : c.moment = date.told
  parents_eq : c.parents = [mine.tip]
  /-- What was staged to be recorded is held. -/
  added : ∀ (name : String) bytes, staging.additions[name]? = some bytes →
    c.manifest[name]? = some (Object.blobId bytes)
  /-- What was staged to be dropped is not held. -/
  dropped : ∀ name ∈ staging.removals, name ∉ c.manifest
  /-- All else is as the commit before holds it. -/
  kept : ∀ name, name ∉ staging.additions → name ∉ staging.removals →
    c.manifest[name]? = parent.manifest[name]?
  load : Commits.load root t' c.id = .ok c
  current : Branches.current root t' = .ok ⟨mine.name, c.id⟩
  index : Staging.load root t' = .ok Staging.empty
  /-- Nothing has changed outside the repository's own directory. -/
  work : ∀ p, ¬metaPath root <:+ p → t'.at? p = t.at? p
  head : t'.at? (headPath root) = t.at? (headPath root)
  /-- The other branches stand where they stood. -/
  others : ∀ name : BranchName, ¬['/', '/'] <:+: name.text.toList → name ≠ mine.name →
    Branches.get? root t' name = Branches.get? root t name
  /-- The log is the new commit, then the whole old log. -/
  logs : Logs root t' ⟨mine.name, c.id⟩ (c :: log)

/-- What is recorded without collisions can be loaded, and the log goes on with the old one. -/
theorem Recorded.committed {message : String}
    (recorded : Recorded root mine ⟨message, date, head, staging, none⟩ t t')
    (finds : Finds root t mine head staging) (plain : PlainName mine.name.text)
    (oneWay : staging.OneWay)
    (stored : CommitStored root t' (Recording.made ⟨message, date, head, staging, none⟩))
    {log : List Commit} (line : History.Line (Commits.load root t) mine.tip log) :
    Committed root message date mine head staging log
      (Recording.made ⟨message, date, head, staging, none⟩) t t' := by
  have h := finds.intact
  have h' := recorded.intact
  have hcurrent := recorded.current h finds.current
  have hload := h'.load_iff.mpr ⟨rfl, stored⟩
  have tip : head.id = mine.tip := (h.of_load finds.load).1
  have holds : ∀ name : String, (Recording.made
      ⟨message, date, head, staging, none⟩).manifest[name]? = if name ∈ staging.removals then none
        else (staging.additions[name]?.map Object.blobId).or head.manifest[name]? :=
    staging.getElem?_nextManifest head.manifest
  have grows : ∀ id c, Commits.load root t id = .ok c → Commits.load root t' id = .ok c :=
    fun _ _ => h.load_of_grows h' recorded.objects.grows
  refine
    { message_eq := rfl
      moment_eq := rfl
      parents_eq := by rw [← tip]; rfl
      added := ?_
      dropped := ?_
      kept := ?_
      load := hload
      current := hcurrent
      index := Staging.load_of_shows h'.housed h'.index recorded.index
      work := fun p outside => recorded.touch.at?_outside (by simp) outside
      head := recorded.touch.at?_eq Area.holds_head (by simp)
      others := ?_
      logs := Logs.of_line h' hcurrent (.onward hload ?_ (line.mono grows)) }
  · intro name bytes hbytes
    have hmem : name ∈ staging.additions := NameMap.mem_iff_exists_getElem?.mpr ⟨bytes, hbytes⟩
    rw [holds, if_neg (oneWay name hmem), hbytes]
    rfl
  · intro name hname held
    obtain ⟨blob, hblob⟩ := NameMap.mem_iff_exists_getElem?.mp held
    rw [holds, if_pos hname] at hblob
    cases hblob
  · intro name hnot hnot'
    rw [holds, if_neg hnot', Std.ExtTreeMap.getElem?_eq_none hnot]
    rfl
  · intro name noDouble other
    refine recorded.moved.get?_eq h.housed.free h'.housed.free fun heq => other ?_
    exact branchPath_injective_of_noDouble noDouble plain.1 heq
  · rw [← tip]
    rfl

/-! ## 4. In a run -/

/-- **What a commit comes to**, in any state of a run.  Without a message it is refused, and with
nothing staged as well; else it goes through, and where no digests collide, what was staged has been
recorded. -/
theorem Run.commit_comes_to (run : Run root Request.Plain Settings.Dates past t)
    {settings : Settings} (here : settings.root = root)
    (hdate : Request.commitMoment settings = .ok date) (tellable : date.Tellable)
    (message : String) (guarded : Bool) (printed : String) :
    ∃ mine parent staging log, Branches.current root t = .ok mine ∧
      Commits.load root t mine.tip = .ok parent ∧ Staging.load root t = .ok staging ∧
      Logs root t mine log ∧
      (message = "" → (Request.commit message).perform settings guarded ⟨t, printed⟩ =
        (.error (.user .emptyCommitMessage), ⟨t, printed⟩)) ∧
      (message ≠ "" → staging.isEmpty = true →
        (Request.commit message).perform settings guarded ⟨t, printed⟩ =
          (.error (.user .nothingStaged), ⟨t, printed⟩)) ∧
      (message ≠ "" → staging.isEmpty = false → ∃ t',
        (Request.commit message).perform settings guarded ⟨t, printed⟩ =
          (.ok (), ⟨t', printed⟩) ∧
        (CollisionFree (⟨message, date, parent, staging, none⟩ :: past) →
          ∃ c, Committed root message date mine parent staging log c t t')) := by
  obtain ⟨mine, head, staging, finds, plain⟩ := run.exists_finds
  have h := finds.intact
  obtain ⟨log, line, -⟩ := h.exists_line finds.load
  have performs : ∀ {out}, Command.commit root date message ⟨t, printed⟩ = out →
      (Request.commit message).perform settings guarded ⟨t, printed⟩ = out := fun hrun =>
    (Request.perform_run h here hdate guarded printed).trans hrun
  have reads : Command.commit root date message ⟨t, printed⟩ =
      Command.record root date staging message none ⟨t, printed⟩ := by
    rw [Command.commit, Action.bind_run_ok (Action.read_run finds.staging)]
  refine ⟨mine, head, staging, log, finds.current, finds.load, finds.staging,
    Logs.of_line h finds.current line, fun empty => performs ?_, fun some_ nothing => performs ?_,
    fun some_ something => ?_⟩
  · rw [reads, Command.record]
    dsimp only
    rw [if_pos empty]
    rfl
  · rw [reads, Command.record]
    dsimp only
    rw [if_neg some_, if_pos ⟨nothing, rfl⟩]
    rfl
  · obtain ⟨t', hrun, recorded⟩ := Command.commit_run h finds.staging something finds.current
      finds.load some_ tellable printed
    refine ⟨t', performs hrun, fun free => ⟨_, recorded.committed finds plain
      (run.stagedOneWay.oneWay h finds.staging) ?_ line⟩⟩
    have archive := (run.archive (free.mono (List.subset_cons_self _ _))).of_recorded recorded
      (h.of_load finds.load).2.1 free
    exact archive.commitStored List.mem_cons_self

/-- The one file is committed behind the first commit. -/
theorem Apart.commit_comes_to_left : ∃ t t', Run [] Request.Plain Settings.Dates [] t ∧
    Apart.settings.root = [] ∧ Request.commitMoment Apart.settings = .ok Time.Moment.epoch ∧
    Time.Moment.epoch.Tellable ∧ "left" ≠ "" ∧
    (Staging.single "file" [1]).isEmpty = false ∧ CollisionFree [Apart.left] ∧
    (Request.commit "left").perform Apart.settings true ⟨t, ""⟩ = (.ok (), ⟨t', ""⟩) ∧
    ∃ c, Committed [] "left" Time.Moment.epoch ⟨BranchName.master, Commit.initial.id⟩
      Commit.initial (Staging.single "file" [1]) [Commit.initial] c t t' := by
  obtain ⟨t₁, hrun₁, begun⟩ := Command.init_run Apart.startable ""
  have run₁ : Run [] Request.Plain Settings.Dates [] t₁ := Run.start Apart.startable.free hrun₁
  have new : Commit.initial.manifest["file"]? ≠ some (Object.blobId [1]) := by simp [Commit.initial]
  obtain ⟨t, run, -, hstaging, hcurrent, hload, -⟩ := run₁.stage_file Apart.here rfl begun.index
    begun.current (begun.intact.load_commit begun.stored) Apart.trackable_file new trivial
  have some_ : (Staging.single "file" [1]).isEmpty = false := by
    simp [Staging.single, Staging.isEmpty]
  have free : CollisionFree [Apart.left] := Apart.collisionFree.mono (by simp)
  obtain ⟨mine, parent, staging, log, hcurrent', hload', hstaging', logs, -, -, goes⟩ :=
    run.commit_comes_to Apart.here rfl (by decide) "left" true ""
  obtain rfl := Except.ok.inj (hcurrent'.symm.trans hcurrent)
  obtain rfl := Except.ok.inj (hload'.symm.trans hload)
  obtain rfl := Except.ok.inj (hstaging'.symm.trans hstaging)
  have first : History.Line (Commits.load [] t) Commit.initial.id [Commit.initial] :=
    .last hload rfl
  obtain rfl := Except.ok.inj (logs.chain.symm.trans (run.intact.chain_of_line first))
  obtain ⟨t', hrun, done⟩ := goes (by decide) some_
  exact ⟨t, t', run, Apart.here, rfl, by decide, by decide, some_, free, hrun, done free⟩

namespace Apart

/-- A leap second. -/
def leapSecond : Time.Moment :=
  (Time.Moment.of? 1483228799 Time.nanoseconds 0).get (by decide)

/-- The top of the file tree, with a leap second as the date of new commits. -/
def leaping : Settings := { settings with date := some "2016-12-31 23:59:60 +0000" }

theorem commitMoment_leaping : Request.commitMoment leaping = .ok leapSecond := by decide +kernel

/-- A commit is dated by a leap second, and another second is recorded. -/
theorem leapSecond_not_recorded : ∃ t t', Run [] Request.Plain Settings.Dates [] t ∧
    leaping.root = [] ∧ Request.commitMoment leaping = .ok leapSecond ∧ leapSecond.Tellable ∧
    (Request.commit "left").perform leaping true ⟨t, ""⟩ = (.ok (), ⟨t', ""⟩) ∧
    ∃ b c, Branches.current [] t' = .ok b ∧ Commits.load [] t' b.tip = .ok c ∧
      c.moment ≠ leapSecond := by
  obtain ⟨t₁, hrun₁, begun⟩ := Command.init_run startable ""
  have run₁ : Run [] Request.Plain Settings.Dates [] t₁ := Run.start startable.free hrun₁
  have new : Commit.initial.manifest["file"]? ≠ some (Object.blobId [1]) := by simp [Commit.initial]
  obtain ⟨t, run, -, hstaging, hcurrent, hload, -⟩ := run₁.stage_file here rfl begun.index
    begun.current (begun.intact.load_commit begun.stored) trackable_file new trivial
  have h := run.intact
  have tellable : leapSecond.Tellable := by decide
  obtain ⟨t', hcommit, recorded⟩ := Command.commit_run h hstaging
    (by simp [Staging.single, Staging.isEmpty]) hcurrent hload (show "left" ≠ "" by decide)
    tellable ""
  obtain ⟨c, stored, hid, -⟩ := recorded.stored
  refine ⟨t, t', run, rfl, commitMoment_leaping, tellable,
    (Request.perform_run h rfl commitMoment_leaping true "").trans hcommit, _, c,
    recorded.current h hcurrent, recorded.intact.load_iff.mpr ⟨hid, stored⟩, fun same => ?_⟩
  -- what is stored is the beginning of a second
  have whole := stored.readable.whole.1
  rw [same] at whole
  exact absurd whole (by decide)

end Apart

end LocalVcs
