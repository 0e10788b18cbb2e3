/-
# Runs

A repository is started in a directory without links; then requests are carried out, well or not,
and between them the user edits working files.  Every request keeps the repository intact, so it is
intact in every state that a run comes to.

* `Run`: the states that runs come to, with what has been recorded on the way.
* `Request.run_does`: one step; `Run.intact`, `Run.headStands`: whole runs.
* `Later`: the states that a run goes on to.
-/
import LocalVcs.Proofs.Commands.Merging
import LocalVcs.Proofs.Commands.Starting
import LocalVcs.Proofs.WrittenZone
import LocalVcs.Request

namespace LocalVcs

open FileTree Layout

variable {root : Path} {t t' : FileTree} {plain : Prop}

/-! ## 1. Steps of a run -/

/-- The user edits what lies outside the repository's own directory, and makes no links. -/
structure UserEdit (root : Path) (t t' : FileTree) : Prop where
  within : ∀ p, metaPath root <:+ p → t'.at? p = t.at? p
  free : t'.LinkFree root

/-- What a request is about to record. -/
inductive Records (root : Path) (t : FileTree) (date : Time.Moment) : Request → Recording → Prop
  /-- A commit records what is staged behind the current commit. -/
  | commit {message : String} {b : Branch} {parent : Commit} {staging : Staging} :
      Branches.current root t = .ok b → Commits.load root t b.tip = .ok parent →
      Staging.load root t = .ok staging →
      Records root t date (.commit message) ⟨message, date, parent, staging, none⟩
  /-- A merge of three snapshots records what its steps stage. -/
  | merge {name : String} {mine theirs : Branch} {head other split : Commit}
      {steps : List MergeStep} :
      ThreeWay root t name mine theirs head other split →
      MergeStep.plan root t head other (resolvedNames split head other) = .ok steps →
      Records root t date (.merge name) (mergeRecording date mine theirs head other steps)

/-- Whether the zone of a date can be told, where a request records a commit under it. -/
def Request.Dated (date : Time.Moment) : Request → Prop
  | .commit _ | .merge _ => date.Tellable
  | _ => True

/-- Whether a request that records a commit is carried out at a date whose zone can be told. -/
def Settings.Dates (settings : Settings) (request : Request) : Prop :=
  ∀ date, Request.commitMoment settings = .ok date → request.Dated date

/-- Whether a request names branches plainly only. -/
def Request.Plain : Request → Prop
  | .branch name | .rmBranch name | .merge name | .checkout (some name) none => PlainName name
  | _ => True

/-- The states that runs of allowed requests come to, each carried out under settings that suit it,
with all that has been recorded on the way, the last first. -/
inductive Run (root : Path) (allowed : Request → Prop) (suited : Settings → Request → Prop) :
    List Recording → FileTree → Prop
  | start {t : FileTree} {printed : String} {w' : World} : t.LinkFree root →
      Command.init root ⟨t, printed⟩ = (.ok (), w') → Run root allowed suited [] w'.tree
  | edit {past : List Recording} {t t' : FileTree} : Run root allowed suited past t →
      UserEdit root t t' → Run root allowed suited past t'
  /-- A request that fails, or that is none to record. -/
  | other {past : List Recording} {t : FileTree} {settings : Settings} {guarded : Bool}
      {request : Request} {printed : String} {r : Except Fault Unit} {w' : World} :
      Run root allowed suited past t → settings.root = root → suited settings request →
      allowed request → request.perform settings guarded ⟨t, printed⟩ = (r, w') →
      (∀ date rec, r = .ok () → Request.commitMoment settings = .ok date →
        ¬Records root t date request rec) →
      Run root allowed suited past w'.tree
  /-- A request that records a commit. -/
  | recording {past : List Recording} {t : FileTree} {settings : Settings} {guarded : Bool}
      {request : Request} {printed : String} {w' : World} {date : Time.Moment} {rec : Recording} :
      Run root allowed suited past t → settings.root = root → suited settings request →
      allowed request → request.perform settings guarded ⟨t, printed⟩ = (.ok (), w') →
      Request.commitMoment settings = .ok date → Records root t date request rec →
      Run root allowed suited (rec :: past) w'.tree

/-- A run under settings of one kind is a run under all that are of a wider kind. -/
theorem Run.mono {allowed : Request → Prop} {suited suited' : Settings → Request → Prop}
    {past : List Recording} (run : Run root allowed suited past t)
    (wider : ∀ settings request, suited settings request → suited' settings request) :
    Run root allowed suited' past t := by
  induction run with
  | start free hinit => exact .start free hinit
  | edit _ edit ih => exact ih.edit edit
  | other _ here suits hallowed hrun none_ ih =>
    exact ih.other here (wider _ _ suits) hallowed hrun none_
  | recording _ here suits hallowed hrun hdate hrec ih =>
    exact ih.recording here (wider _ _ suits) hallowed hrun hdate hrec

variable {request : Request} {settings : Settings} {date : Time.Moment} {rec : Recording}

/-- A request records one thing at most. -/
theorem Records.unique {other : Recording} (h : Records root t date request rec)
    (h' : Records root t date request other) : rec = other := by
  cases h with
  | commit hcurrent hload hstaging =>
    cases h' with
    | commit hcurrent' hload' hstaging' =>
      obtain rfl := Except.ok.inj (hcurrent.symm.trans hcurrent')
      obtain rfl := Except.ok.inj (hload.symm.trans hload')
      obtain rfl := Except.ok.inj (hstaging.symm.trans hstaging')
      rfl
  | merge m hplan =>
    cases h' with
    | merge m' hplan' =>
      obtain rfl := Except.ok.inj (m.current.symm.trans m'.current)
      obtain rfl := Option.some.inj (Except.ok.inj (m.found.symm.trans m'.found))
      obtain rfl := Except.ok.inj (m.loadHead.symm.trans m'.loadHead)
      obtain rfl := Except.ok.inj (m.loadOther.symm.trans m'.loadOther)
      have meet := Option.some.inj (Except.ok.inj (m.meet.symm.trans m'.meet))
      obtain rfl := Except.ok.inj ((meet ▸ m.loadSplit).symm.trans m'.loadSplit)
      obtain rfl := Except.ok.inj (hplan.symm.trans hplan')
      rfl

/-- What is recorded comes behind a stored commit. -/
theorem Records.parent (h : Records root t date request rec) (intact : Intact root t) :
    CommitStored root t rec.parent := by
  cases h with
  | commit _ hload _ => exact (intact.of_load hload).2.1
  | merge m _ => exact (intact.of_load m.loadHead).2.1

/-- The zone of a date that is written out can always be told, so all that matters is the clock. -/
theorem Settings.Dates.of_clock (clock : settings.date = none → settings.now.Tellable)
    (request : Request) : settings.Dates request := by
  intro date h
  have tellable : date.Tellable := by
    unfold Request.commitMoment at h
    split at h
    · rename_i unwritten
      obtain rfl := Except.ok.inj h
      exact clock unwritten
    · rename_i text _
      cases hread : Time.readDate? text with
      | none => simp [hread] at h
      | some found =>
        obtain rfl : found = date := by simpa [hread] using h
        exact Time.readDate?_tellable hread
  cases request with
  | commit _ | merge _ => exact tellable
  | _ => trivial

theorem Settings.Dates.of_moment (hdate : Request.commitMoment settings = .ok date)
    (dated : request.Dated date) : settings.Dates request := by
  intro date' hdate'
  obtain rfl := Except.ok.inj (hdate.symm.trans hdate')
  exact dated

/-! ## 2. Edits by the user -/

namespace UserEdit

/-- What changes under one name in the working directory the user might have changed. -/
theorem of_workEdit {name : String} (edit : WorkEdit root name t t') (notMeta : name ≠ metaName)
    (free : t.LinkFree root) : UserEdit root t t' :=
  ⟨fun p inside => edit.frame p fun below =>
      (Area.holds_work (FileName.text_ne notMeta) below).outside rfl inside,
    fun p target below hlink => free p target below (edit.noLink p target hlink)⟩

theorem at?_eq (h : UserEdit root t t') {area : Area} {p : Path} (held : area.Holds root p)
    (inside : area ≠ .work) : t'.at? p = t.at? p :=
  h.within p ((Area.meta_suffix_of_ne_work root inside).trans held.below)

/-- The current branch is still the same. -/
theorem current_eq (h : UserEdit root t t') (free : t.LinkFree root) :
    Branches.current root t' = Branches.current root t :=
  Branches.current_congr_of_at? free h.free (h.at?_eq Area.holds_head (by simp))
    fun name => h.at?_eq (Branches.holds_branchPath root name) (by simp)

theorem housed (h : UserEdit root t t') (housed : Housed root t) : Housed root t' where
  free := h.free
  room := housed.room
  standing p hp := by
    have meta_ : t'.at? (metaPath root) = some .dir := by
      rw [h.within _ (List.suffix_refl _), housed.at?_meta]
    rcases Area.meta_suffix_of_mem_skeleton hp with rfl | inside
    · exact at?_eq_dir_of_suffix meta_ (List.suffix_cons _ _)
        (Area.ne_of_longer (Nat.lt_succ_self _)).symm
    · rw [h.within p inside, housed.standing p hp]

theorem sameObjects (h : UserEdit root t t') : SameObjects root t t' :=
  fun _ _ => h.at?_eq Area.holds_object (by simp)

/-- **Edits by the user keep a repository.** -/
theorem keeps (edit : UserEdit root t t') (h : Intact root t) : Kept plain root t t' where
  intact := by
    refine ⟨edit.housed h.housed, h.stores.congr fun kind p held => edit.at?_eq held (by simp),
      fun what name e hat => ?_,
      h.refs.mono edit.sameObjects.grows fun p content below hat => ?_, ?_⟩
    · rw [edit.at?_eq (holds_staged what name) (by simp)] at hat
      exact h.index what name e hat
    · rwa [edit.within p ((List.suffix_cons _ _).trans below)] at hat
    · rw [edit.at?_eq Area.holds_head (by simp)]
      exact h.head
  objects := edit.sameObjects
  head _ stands := stands.of_stay (edit.at?_eq Area.holds_head (by simp))
    fun p content below hat => ⟨content, by
      rw [edit.within p ((List.suffix_cons _ _).trans below), hat]⟩

end UserEdit

/-! ## 3. Requests -/

namespace Request

open LocalVcs.Action Command

/-- What a request leads to: it records nothing and all objects stay as they are, or working files
are edited first and then a commit is recorded. -/
def Does (plain : Prop) (root : Path) (t : FileTree) (date : Time.Moment) (request : Request)
    (r : Except Fault Unit) (t' : FileTree) : Prop :=
  (Kept plain root t t' ∧ ∀ rec, r = .ok () → ¬Records root t date request rec) ∨
    ∃ b rec t₁, r = .ok () ∧ Records root t date request rec ∧ Branches.current root t = .ok b ∧
      Kept plain root t t₁ ∧ Touches root [.work] t t₁ ∧ Recorded root b rec t₁ t'

theorem Does.of_kept {r : Except Fault Unit} (kept : Kept plain root t t')
    (none_ : ∀ rec, ¬Records root t date request rec) : Does plain root t date request r t' :=
  Or.inl ⟨kept, fun rec _ => none_ rec⟩

theorem commit_does (h : Intact root t) (tellable : date.Tellable) (message printed : String) :
    (Command.commit root date message).Leads ⟨t, printed⟩ fun r w' =>
      Does plain root t date (.commit message) r w'.tree := by
  refine leads_read_bind ?_ ?_
  · intro staging hstaging
    obtain ⟨-, shows_⟩ := Staging.load_spec h.housed h.index hstaging
    obtain ⟨additions, -⟩ := shows_.trackable h.index
    refine (record_leads h (by simp) additions tellable (fun _ => shows_) printed).mono ?_
    rintro r w' (⟨rfl, fault, rfl⟩ | ⟨b, parent, hcurrent, hload, rfl, -, recorded⟩)
    · exact Or.inl ⟨Kept.refl h, fun _ hok => by cases hok⟩
    · exact Or.inr ⟨b, _, t, rfl, .commit hcurrent hload hstaging, hcurrent, Kept.refl h,
        Touches.refl root t, recorded⟩
  · intro fault hfault
    exact Or.inl ⟨Kept.refl h, fun _ hok => by cases hok⟩

theorem merge_does (h : Intact root t) (tellable : date.Tellable) {name : String}
    (hplain : plain → PlainName name) (printed : String) :
    (Command.merge root date name).Leads ⟨t, printed⟩ fun r w' =>
      Does plain root t date (.merge name) r w'.tree := by
  refine (merge_leads h tellable hplain printed).mono ?_
  rintro r w' (⟨kept, none_⟩ | ⟨mine, theirs, head, other, split, steps, t₁, rfl, m, merged⟩)
  · refine Or.inl ⟨kept, ?_⟩
    intro rec hok hrec
    cases hrec with
    | merge m _ => exact none_ hok _ _ _ _ _ m
  · exact Or.inr ⟨mine, _, t₁, rfl, .merge m merged.planned, m.current, Kept.of_work h merged.work,
      merged.work, merged.recorded⟩

/-- **What a request leads to.**  Only `commit` and `merge` record anything. -/
theorem run_does (h : Intact root t) (request : Request) (dated : request.Dated date)
    (hplain : plain → request.Plain) (zone : Time.Zone) (printed : String) :
    (request.run root zone date).Leads ⟨t, printed⟩ fun r w' =>
      Does plain root t date request r w'.tree := by
  have keeps : ∀ {a : Action Unit}, (∀ rec, ¬Records root t date request rec) →
      a.Leads ⟨t, printed⟩ (fun _ w' => Kept plain root t w'.tree) →
      a.Leads ⟨t, printed⟩ fun r w' => Does plain root t date request r w'.tree :=
    fun none_ leads => leads.mono fun _ _ kept => Does.of_kept kept none_
  have reports : ∀ {a : Action Unit}, (∀ rec, ¬Records root t date request rec) →
      a.Leads ⟨t, printed⟩ (fun _ w' => w'.tree = t) →
      a.Leads ⟨t, printed⟩ fun r w' => Does plain root t date request r w'.tree := by
    refine fun none_ leads => keeps none_ (leads.mono fun _ w' same => ?_)
    rw [same]
    exact Kept.refl h
  cases request with
  | init => exact keeps (by rintro _ ⟨⟩) (Leads.of_run (init_of_intact h printed) (Kept.refl h))
  | add file => exact keeps (by rintro _ ⟨⟩) (add_keeps h file printed)
  | commit message => exact commit_does h dated message printed
  | rm file => exact keeps (by rintro _ ⟨⟩) (rm_keeps h file printed)
  | log => exact reports (by rintro _ ⟨⟩) (log_leads root zone _)
  | globalLog => exact reports (by rintro _ ⟨⟩) (globalLog_leads root zone _)
  | find message => exact reports (by rintro _ ⟨⟩) (find_leads root message _)
  | status => exact reports (by rintro _ ⟨⟩) (status_leads root _)
  | checkout target file =>
    rcases target with _ | target <;> rcases file with _ | file
    · exact keeps (by rintro _ ⟨⟩) (leads_fail (Kept.refl h))
    · exact keeps (by rintro _ ⟨⟩) (checkoutFile_keeps h file printed)
    · exact keeps (by rintro _ ⟨⟩) (checkoutBranch_keeps h hplain printed)
    · exact keeps (by rintro _ ⟨⟩) (checkoutFileAt_keeps h target file printed)
  | branch name => exact keeps (by rintro _ ⟨⟩) (branch_keeps h name printed)
  | rmBranch name => exact keeps (by rintro _ ⟨⟩) (rmBranch_keeps h hplain printed)
  | reset target => exact keeps (by rintro _ ⟨⟩) (reset_keeps h target printed)
  | merge name => exact merge_does h dated hplain printed

theorem ensureInitialized_run (h : Intact root t) (printed : String) :
    ensureInitialized root ⟨t, printed⟩ = (.ok (), ⟨t, printed⟩) := by
  have present : isInitialized root t = true := by
    rw [isInitialized_eq h.housed.free h.housed.room, h.housed.at?_meta]; rfl
  unfold ensureInitialized
  rw [bind_run_ok (isInitialized_run present)]
  rfl

theorem perform_run (h : Intact root t) (here : settings.root = root)
    (hdate : commitMoment settings = .ok date) (guarded : Bool) (printed : String) :
    request.perform settings guarded ⟨t, printed⟩ =
      request.run root settings.zone date ⟨t, printed⟩ := by
  have hread : ofExcept (commitMoment settings) ⟨t, printed⟩ = (.ok date, ⟨t, printed⟩) := by
    rw [hdate]; rfl
  unfold perform
  dsimp only
  rw [bind_run_ok hread, here]
  split
  · rw [bind_run_ok (ensureInitialized_run h printed)]
  · rfl

/-- Nothing is changed before the command runs: a date that is malformed, or a working directory
with no repository, is all that can be met. -/
theorem leads_perform_of_run {w : World} {guarded : Bool} {Q : Except Fault Unit → World → Prop}
    (error : ∀ fault, Q (.error fault) w)
    (hrun : ∀ date, (request.run settings.root settings.zone date).Leads w Q) :
    (request.perform settings guarded).Leads w Q := by
  refine leads_ofExcept_bind (fun date _ => ?_) fun fault _ => error fault
  split
  · rw [ensureInitialized, bind_assoc]
    refine leads_read_bind (fun initialized _ => ?_) fun fault _ => error fault
    split
    · exact hrun date
    · exact leads_fail_bind (error _)
  · exact hrun date

theorem leads_perform (h : Intact root t) (here : settings.root = root)
    (hdate : commitMoment settings = .ok date) (guarded : Bool) {printed : String}
    {Q : Except Fault Unit → World → Prop}
    (hrun : (request.run root settings.zone date).Leads ⟨t, printed⟩ Q) :
    (request.perform settings guarded).Leads ⟨t, printed⟩ Q := by
  rw [Leads, perform_run h here hdate]
  exact hrun

theorem perform_run_error {fault : Fault} (hdate : commitMoment settings = .error fault)
    (guarded : Bool) (printed : String) :
    request.perform settings guarded ⟨t, printed⟩ = (.error fault, ⟨t, printed⟩) := by
  have hread : ofExcept (commitMoment settings) ⟨t, printed⟩ = (.error fault, ⟨t, printed⟩) := by
    rw [hdate]; rfl
  unfold perform
  rw [bind_run_error hread]

/-- A request succeeds where its command does, with a date that can be read. -/
theorem of_perform_ok {guarded : Bool} {w w' : World}
    (h : request.perform settings guarded w = (.ok (), w')) :
    ∃ date, commitMoment settings = .ok date ∧
      request.run settings.root settings.zone date w = (.ok (), w') := by
  unfold perform at h
  obtain ⟨date, w₁, hread, h⟩ := of_bind_ok h
  obtain ⟨hdate, rfl⟩ := Prod.mk.inj hread
  refine ⟨date, hdate, ?_⟩
  split at h
  · obtain ⟨_, w₂, hensure, h⟩ := of_bind_ok h
    obtain ⟨initialized, w₃, hread, hensure⟩ := of_bind_ok hensure
    obtain ⟨-, rfl⟩ := Prod.mk.inj hread
    cases initialized with
    | true =>
      obtain ⟨-, rfl⟩ := Prod.mk.inj hensure
      exact h
    | false => cases hensure
  · exact h

variable (plain) in
/-- A request that records nothing keeps the repository. -/
theorem kept_of_perform (h : Intact root t) (here : settings.root = root)
    (dates : settings.Dates request) (hplain : plain → request.Plain) {guarded : Bool}
    {printed : String} {r : Except Fault Unit}
    {w' : World} (hrun : request.perform settings guarded ⟨t, printed⟩ = (r, w'))
    (none_ : ∀ date rec, r = .ok () → commitMoment settings = .ok date →
      ¬Records root t date request rec) : Kept plain root t w'.tree := by
  cases hdate : commitMoment settings with
  | error fault =>
    rw [perform_run_error hdate] at hrun
    obtain ⟨-, rfl⟩ := Prod.mk.inj hrun
    exact Kept.refl h
  | ok date =>
    have does := run_does h request (dates date hdate) hplain settings.zone printed
    rw [Leads, ← perform_run h here hdate guarded printed, hrun] at does
    rcases does with ⟨kept, -⟩ | ⟨b, rec, t₁, hok, hrec, -⟩
    · exact kept
    · exact absurd hrec (none_ date rec hok hdate)

variable (plain) in
/-- **A request that records a commit** records just that, on the current branch, and touches no
more than working files before. -/
theorem recorded_of_perform (h : Intact root t) (here : settings.root = root)
    (dates : settings.Dates request) (hplain : plain → request.Plain) {guarded : Bool}
    {printed : String} {w' : World}
    (hrun : request.perform settings guarded ⟨t, printed⟩ = (.ok (), w'))
    (hdate : commitMoment settings = .ok date) (hrec : Records root t date request rec) :
    ∃ b t₁, Branches.current root t = .ok b ∧ Kept plain root t t₁ ∧ Touches root [.work] t t₁ ∧
      Recorded root b rec t₁ w'.tree := by
  have does := run_does h request (dates date hdate) hplain settings.zone printed
  rw [Leads, ← perform_run h here hdate guarded printed, hrun] at does
  rcases does with ⟨-, none_⟩ | ⟨b, rec', t₁, -, hrec', hcurrent, kept, touch, recorded⟩
  · exact absurd hrec (none_ rec rfl)
  · obtain rfl := hrec'.unique hrec
    exact ⟨b, t₁, hcurrent, kept, touch, recorded⟩

end Request

/-! ## 4. Whole runs -/

namespace Run

variable {allowed : Request → Prop} {past : List Recording}

/-- **A repository is intact in every state that a run comes to.** -/
theorem intact (h : Run root allowed Settings.Dates past t) : Intact root t := by
  induction h with
  | start free hinit => exact (Command.begun_of_init free hinit).intact
  | edit _ edit ih =>
    have kept : Kept False root _ _ := edit.keeps ih
    exact kept.intact
  | other _ here dates _ hrun none_ ih =>
    exact (Request.kept_of_perform False ih here dates False.elim hrun none_).intact
  | recording _ here dates _ hrun hdate hrec ih =>
    obtain ⟨b, t₁, -, -, -, recorded⟩ :=
      Request.recorded_of_perform False ih here dates False.elim hrun hdate hrec
    exact recorded.intact

/-- **`HEAD` names a branch that is there** where requests name branches plainly only. -/
theorem headStands (h : Run root allowed Settings.Dates past t)
    (hplain : ∀ r, allowed r → r.Plain) :
    HeadStands root t := by
  induction h with
  | start free hinit => exact (Command.begun_of_init free hinit).head
  | edit run edit ih => exact (edit.keeps run.intact).head trivial ih
  | other run here dates hallowed hrun none_ ih =>
    exact (Request.kept_of_perform True run.intact here dates (fun _ => hplain _ hallowed) hrun
      none_).head trivial ih
  | recording run here dates hallowed hrun hdate hrec ih =>
    obtain ⟨b, t₁, -, kept, -, recorded⟩ := Request.recorded_of_perform True run.intact here dates
      (fun _ => hplain _ hallowed) hrun hdate hrec
    exact recorded.headStands (kept.head trivial ih)

end Run

/-! ## 5. Later states -/

/-- The states that a run comes to from one of its states on by requests of a kind, with all that
has been recorded until then. -/
inductive Later (root : Path) (kind : Request → Prop) (suited : Settings → Request → Prop)
    (past : List Recording) (t : FileTree) : List Recording → FileTree → Prop
  | here : Later root kind suited past t past t
  | edit {past' : List Recording} {t' t'' : FileTree} : Later root kind suited past t past' t' →
      UserEdit root t' t'' → Later root kind suited past t past' t''
  /-- A request that fails, or that is none to record. -/
  | other {past' : List Recording} {t' : FileTree} {settings : Settings} {guarded : Bool}
      {request : Request} {printed : String} {r : Except Fault Unit} {w' : World} :
      Later root kind suited past t past' t' → settings.root = root →
      suited settings request → kind request →
      request.perform settings guarded ⟨t', printed⟩ = (r, w') →
      (∀ date rec, r = .ok () → Request.commitMoment settings = .ok date →
        ¬Records root t' date request rec) →
      Later root kind suited past t past' w'.tree
  /-- A request that records a commit. -/
  | recording {past' : List Recording} {t' : FileTree} {settings : Settings} {guarded : Bool}
      {request : Request} {printed : String} {w' : World} {date : Time.Moment} {rec : Recording} :
      Later root kind suited past t past' t' → settings.root = root →
      suited settings request → kind request →
      request.perform settings guarded ⟨t', printed⟩ = (.ok (), w') →
      Request.commitMoment settings = .ok date → Records root t' date request rec →
      Later root kind suited past t (rec :: past') w'.tree

/-- What has been recorded stays recorded. -/
theorem Later.subset {kind : Request → Prop} {suited : Settings → Request → Prop}
    {past past' : List Recording}
    (later : Later root kind suited past t past' t') : past ⊆ past' := by
  induction later with
  | here => exact List.Subset.refl _
  | edit _ _ ih | other _ _ _ _ _ _ ih => exact ih
  | recording _ _ _ _ _ _ _ ih => exact List.Subset.trans ih (List.subset_cons_self _ _)

/-- A run comes to its later states. -/
theorem Run.later {allowed kind : Request → Prop} {suited : Settings → Request → Prop}
    {past past' : List Recording} (run : Run root allowed suited past t)
    (hkind : ∀ request, kind request → allowed request)
    (later : Later root kind suited past t past' t') : Run root allowed suited past' t' := by
  induction later with
  | here => exact run
  | edit _ edit ih => exact ih.edit edit
  | other _ here suits hrequest hrun none_ ih =>
    exact ih.other here suits (hkind _ hrequest) hrun none_
  | recording _ here suits hrequest hrun hdate hrec ih =>
    exact ih.recording here suits (hkind _ hrequest) hrun hdate hrec

end LocalVcs
