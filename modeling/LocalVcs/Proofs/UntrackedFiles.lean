/-
# Untracked files

The status calls a working file untracked that the next commit will not hold: it is not staged, and
the current commit does not track it or it is staged for removal.  What guards a switch and a merge
asks the current commit only.  So a file that the status calls untracked outlives both, unless it is
there again after it has been staged for removal.

* `Status.report`, `Command.status_eq`: what the status prints.
* `Status.mem_untracked_iff`: the files that it calls untracked.
* `Run.untracked_stays`: what becomes of such a file in a switch and in a merge.
* `Apart.untracked_overwritten`: a file that is there again, and is written over.
-/
import LocalVcs.Proofs.MergeOutcome
import LocalVcs.Proofs.SwitchOutcome

namespace LocalVcs

open FileTree Layout

variable {root : Path} {t : FileTree} {name : String} {content : Content} {mine : Branch}
  {current : Commit}

/-! ## 1. The report -/

/-- What the status tells of a repository. -/
def Status.report (root : Path) (t : FileTree) : Except Fault Status := do
  let staging ← Staging.load root t
  let branches ← Branches.all root t
  let current ← Branches.head root t
  let mine ← Branches.current root t
  let head ← (Commits.load root t mine.tip).mapError Fault.damaged
  let working ← Command.workingIds root t
  return .inspect (branches.map Branch.name) current head.manifest
    (staging.additions.map fun _ content => Object.blobId content)
    (Std.ExtTreeSet.ofList staging.removals.keys compare) working

/-- **The status prints its report.** -/
theorem Command.status_eq (root : Path) :
    Command.status root = Action.read (Status.report root) >>= fun s => Action.print s.render := by
  unfold Command.status Status.report
  refine Action.read_bind_eq fun staging => Action.read_bind_eq fun branches =>
    Action.read_bind_eq fun current => ?_
  rw [headCommit, bind_assoc]
  refine Action.read_bind_eq fun mine => ?_
  rw [loadCommit, undamaged]
  refine Action.read_bind_eq fun head => Action.read_bind_eq fun working => ?_
  rfl

namespace Command

/-- The ids are those of what is read of the files that are listed. -/
theorem of_workingIds {working : NameMap ObjectId} (h : workingIds root t = .ok working) :
    ∃ names ids, Worktree.list root t = .ok names ∧
      working = Std.ExtTreeMap.ofList ids compare ∧ ids.map Prod.fst = names ∧
      List.Forall₂ (fun name entry => entry.1 = name ∧
        ∃ bytes, Worktree.read root t name = .ok bytes ∧ Object.blobId bytes = entry.2)
        names ids := by
  simp only [workingIds, bind, Except.bind, pure, Except.pure] at h
  split at h
  · cases h
  · rename_i names hlist
    split at h
    · cases h
    · rename_i ids hids
      have each : List.Forall₂ (fun name entry => entry.1 = name ∧
          ∃ bytes, Worktree.read root t name = .ok bytes ∧ Object.blobId bytes = entry.2)
          names ids := by
        refine (forall₂_of_mapM hids).imp fun name entry hentry => ?_
        simp only [workingId, bind, Except.bind, pure, Except.pure] at hentry
        split at hentry
        · cases hentry
        · rename_i bytes hread
          obtain rfl := Except.ok.inj hentry
          exact ⟨rfl, bytes, hread, rfl⟩
      have sameNames : ids.map Prod.fst = names := by
        clear hids h hlist
        induction each with
        | nil => rfl
        | cons hentry _ ih => rw [List.map_cons, ih, hentry.1]
      exact ⟨names, ids, hlist, (Except.ok.inj h).symm, sameNames, each⟩

theorem mem_workingIds {working : NameMap ObjectId} (h : workingIds root t = .ok working) :
    ∃ names, Worktree.list root t = .ok names ∧ ∀ name, name ∈ working ↔ name ∈ names := by
  obtain ⟨names, ids, hlist, rfl, sameNames, -⟩ := of_workingIds h
  refine ⟨names, hlist, fun name => ?_⟩
  rw [Std.ExtTreeMap.mem_ofList, List.contains_iff_mem, sameNames]

/-- Where all that is listed can be read, it is listed under its own name. -/
theorem mem_workingIds_iff (h : Housed root t) {working : NameMap ObjectId}
    (hworking : workingIds root t = .ok working) : name ∈ working ↔
      (Worktree.fileName? name).isSome = true ∧
        ∃ content, t.at? (name :: root) = some (.file content) := by
  obtain ⟨names, hlist, mem_working⟩ := mem_workingIds hworking
  have mem_names (name : String) : name ∈ names ↔ _ := Worktree.mem_of_list hlist
  rw [mem_working, mem_names]
  constructor
  · intro listed
    obtain ⟨names', ids, hlist', -, -, each⟩ := of_workingIds hworking
    obtain rfl := Except.ok.inj (hlist.symm.trans hlist')
    obtain ⟨_, _, -, bytes, hread, -⟩ := exists_of_mem_forall₂ each.flip
      ((mem_names name).mpr listed)
    have noLink := fun target => h.free (.text name :: root) target (List.suffix_cons _ _)
    obtain ⟨content, hat, -⟩ := Worktree.at?_of_read listed.names noLink hread
    exact ⟨listed.1, content, hat⟩
  · rintro ⟨named, content, hat⟩
    exact .of_file named hat

/-- The working files are all read, or one that is listed cannot be read. -/
theorem workingIds_cases (h : Housed root t) :
    ((∃ working, workingIds root t = .ok working) ∧ ∀ name, ¬Worktree.Unread root t name) ∨
      ∃ name, Worktree.Unread root t name ∧
        workingIds root t = .error (.refused (.readWorking name)) := by
  obtain ⟨names, hlist, -⟩ := Worktree.list_eq h
  have reads : workingIds root t = (names.mapM (workingId root t)).map
      fun ids => Std.ExtTreeMap.ofList ids compare := by
    rw [workingIds, hlist]
    rfl
  rw [reads]
  rcases mapM_cases (f := workingId root t) names with
    ⟨each, ids, hids⟩ | ⟨name, hname, fault, fails, hids⟩
  · refine Or.inl ⟨⟨_, by rw [hids]; rfl⟩, fun name unread => ?_⟩
    obtain ⟨names', hlist', hname⟩ := unread.listed
    obtain rfl := Except.ok.inj (hlist.symm.trans hlist')
    obtain ⟨entry, hentry⟩ := each name hname
    rw [workingId, unread.fails] at hentry
    cases hentry
  · rcases Worktree.read_cases hlist hname with ⟨content, hread⟩ | unread
    · rw [workingId, hread] at fails
      cases fails
    · rw [workingId, unread.fails] at fails
      exact Or.inr ⟨name, unread, by rw [hids, ← Except.error.inj fails]; rfl⟩

end Command

namespace Status

/-- What a report has been made from. -/
theorem of_report {s : Status} (h : report root t = .ok s) :
    ∃ staging branches name mine head working, Staging.load root t = .ok staging ∧
      Branches.current root t = .ok mine ∧ Commits.load root t mine.tip = .ok head ∧
      Command.workingIds root t = .ok working ∧
      s = inspect branches name head.manifest
        (staging.additions.map fun _ content => Object.blobId content)
        (Std.ExtTreeSet.ofList staging.removals.keys compare) working := by
  simp only [report, bind, Except.bind, pure, Except.pure] at h
  split at h
  · cases h
  rename_i staging hstaging
  split at h
  · cases h
  split at h
  · cases h
  split at h
  · cases h
  rename_i mine hmine
  split at h
  · cases h
  rename_i head hhead
  split at h
  · cases h
  rename_i working hworking
  refine ⟨staging, _, _, mine, head, working, hstaging, hmine, ?_, hworking, (Except.ok.inj h).symm⟩
  cases hload : Commits.load root t mine.tip with
  | error damage => simp [hload, Except.mapError] at hhead
  | ok c =>
    rw [hload] at hhead
    exact congrArg Except.ok (Except.ok.inj hhead)

/-- **The files that the status calls untracked** are the plain working files that are not staged
and that the current commit does not track, or that are staged for removal. -/
theorem mem_untracked_iff (h : Housed root t) {s : Status} (hreport : report root t = .ok s) :
    ∃ staging mine head, Staging.load root t = .ok staging ∧ Branches.current root t = .ok mine ∧
      Commits.load root t mine.tip = .ok head ∧
      (∀ name, name ∈ s.removed ↔ name ∈ staging.removals) ∧
      ∀ name, name ∈ s.untracked ↔
        ((Worktree.fileName? name).isSome = true ∧
          ∃ content, t.at? (name :: root) = some (.file content)) ∧
        name ∉ staging.additions ∧ (name ∉ head.manifest ∨ name ∈ staging.removals) := by
  obtain ⟨staging, branches, current, mine, head, working, hstaging, hmine, hhead, hworking, rfl⟩ :=
    of_report hreport
  have mem_removals : ∀ name,
      name ∈ (Std.ExtTreeSet.ofList staging.removals.keys compare : NameSet) ↔
      name ∈ staging.removals := fun name => by
    rw [Std.ExtTreeSet.mem_ofList, List.contains_iff_mem, Std.ExtTreeMap.mem_keys]
  refine ⟨staging, mine, head, hstaging, hmine, hhead, fun name => ?_, fun name => ?_⟩
  · rw [inspect, Std.ExtTreeSet.mem_toList, mem_removals]
  · rw [inspect, mem_untrackedFiles, mem_removals, Command.mem_workingIds_iff h hworking,
      Std.ExtTreeMap.mem_map]

/-- The status of an intact repository in which a branch is current can be told, but for a working
file that is listed and cannot be read. -/
theorem report_cases (h : Intact root t) (hcurrent : Branches.current root t = .ok mine) :
    ((∃ s, report root t = .ok s) ∧ ∀ name, ¬Worktree.Unread root t name) ∨
      ∃ name, Worktree.Unread root t name ∧
        report root t = .error (.refused (.readWorking name)) := by
  obtain ⟨staging, hstaging, -⟩ := Staging.load_eq h.housed h.index
  obtain ⟨branches, hbranches⟩ := Branches.all_run h.housed h.refs
  have hhead := (Branches.of_current hcurrent).1
  obtain ⟨head, -, -, hload⟩ := h.load_of_current hcurrent
  rcases Command.workingIds_cases h.housed with ⟨⟨working, hworking⟩, all⟩ |
    ⟨name, unread, hworking⟩
  · exact Or.inl ⟨⟨_, by simp only [report, hstaging, hbranches, hhead, hcurrent, hload, hworking,
      bind, Except.bind, Except.mapError]; rfl⟩, all⟩
  · exact Or.inr ⟨name, unread, by simp only [report, hstaging, hbranches, hhead, hcurrent, hload,
      hworking, bind, Except.bind, Except.mapError]⟩

/-- It can be told where all working files are named by texts, and the working directory is not too
deep. -/
theorem report_run (h : Intact root t) (hcurrent : Branches.current root t = .ok mine)
    (texts : TextsIn root t)
    (room : Route.bytesOf root + longestName + 1 ≤ Route.longest) :
    ∃ s, report root t = .ok s := by
  rcases report_cases h hcurrent with ⟨told, -⟩ | ⟨name, unread, -⟩
  · exact told
  · exact absurd unread (Worktree.not_unread_of_room h.housed texts room name)

end Status

/-! ## 2. Files in a switch -/

/-- What a working file can be told by is not the name of the repository's directory. -/
theorem Worktree.notMeta_of_named (named : (fileName? name).isSome = true) : name ≠ metaName := by
  rintro rfl
  exact absurd named (by decide)

/-- A switch that succeeds may write over a file or delete it that the current commit tracks; any
other file is as before. -/
theorem Switches.spares {target : Commit} {printed : String} {moves : FileTree → Prop}
    {r : Except Fault Unit} {w' : World} (h : Switches root current target t printed moves r w')
    (named : (Worktree.fileName? name).isSome = true)
    (hat : t.at? (name :: root) = some (.file content)) :
    w'.tree.at? (name :: root) = t.at? (name :: root) ∨ name ∈ current.manifest ∧ r = .ok () := by
  obtain ⟨-, -, rfl⟩ | ⟨clear, t', hok, rfl, switched, -⟩ := h
  · exact Or.inl rfl
  · by_cases old : name ∈ current.manifest
    · exact Or.inr ⟨old, hok⟩
    · have new : name ∉ target.manifest := fun new => clear ⟨name, new, old, .of_file named hat⟩
      exact Or.inl (switched.at?_eq (Worktree.notMeta_of_named named) old new)

namespace Command

open LocalVcs.Action

variable (h : Intact root t) (hcurrent : Branches.current root t = .ok mine)
  (hload : Commits.load root t mine.tip = .ok current)
  (named : (Worktree.fileName? name).isSome = true)
    (hat : t.at? (name :: root) = some (.file content))

include h hcurrent hload named hat

theorem checkoutBranch_spares (text printed : String) :
    (checkoutBranch root text).Leads ⟨t, printed⟩ fun r w' =>
      w'.tree.at? (name :: root) = t.at? (name :: root) ∨ name ∈ current.manifest ∧ r = .ok () := by
  by_cases other : ∃ theirs, Branches.find? root t text = .ok (some theirs) ∧
    theirs.name ≠ mine.name
  · obtain ⟨theirs, hfind, other⟩ := other
    obtain ⟨found, -, hget⟩ := Branches.of_find? hfind
    obtain ⟨target, stored, rfl, -, -⟩ := Branches.of_get? h.housed h.refs hget
    exact (checkoutBranch_leads h hcurrent hload hfind other (h.load_iff.mpr ⟨rfl, stored⟩)
      printed).mono fun _ _ outcome => outcome.spares named hat
  · refine leads_resolveBranch_bind (fun theirs hfind => ?_) fun _ => Or.inl rfl
    have same : theirs.name = mine.name := by
      by_contra different
      exact other ⟨theirs, hfind, different⟩
    have isCurrent : Branches.isCurrent root t theirs.name = .ok true := by
      rw [Branches.isCurrent, (Branches.of_current hcurrent).1]
      simp [Except.map, same]
    refine leads_read_bind_ok isCurrent ?_
    exact leads_fail_bind (Or.inl rfl)

theorem reset_spares (text printed : String) :
    (reset root text).Leads ⟨t, printed⟩ fun r w' =>
      w'.tree.at? (name :: root) = t.at? (name :: root) ∨ name ∈ current.manifest ∧ r = .ok () := by
  by_cases known : ∃ target, Commits.find? root t text = .ok (some target)
  · obtain ⟨target, hfind⟩ := known
    exact (reset_leads h hcurrent hload hfind printed).mono
      fun _ _ outcome => outcome.spares named hat
  · exact leads_resolveCommit_bind (fun c hfind => absurd ⟨c, hfind⟩ known) fun _ => Or.inl rfl

/-! ## 3. Files in a merge -/

/-- A merge is made with nothing staged only, so it spares every file that the current commit does
not track or that is staged for removal. -/
theorem merge_spares {staging : Staging} (hstaging : Staging.load root t = .ok staging)
    (untracked : name ∉ current.manifest ∨ name ∈ staging.removals) {date : Time.Moment}
    (tellable : date.Tellable) (text printed : String) :
    (merge root date text).Leads ⟨t, printed⟩ fun _ w' =>
      w'.tree.at? (name :: root) = t.at? (name :: root) := by
  -- where the merge begins at all, the current commit does not track the file
  have notTracked : ∀ staging', Staging.load root t = .ok staging' → staging'.isEmpty = true →
      name ∉ current.manifest := by
    intro staging' hstaging' nothing
    obtain rfl := Except.ok.inj (hstaging.symm.trans hstaging')
    refine untracked.resolve_right fun removed => ?_
    simp only [Staging.isEmpty, Bool.and_eq_true, Std.ExtTreeMap.isEmpty_iff] at nothing
    simp [nothing.2] at removed
  by_cases apart : ∃ mine theirs head other split,
      ThreeWay root t text mine theirs head other split
  · obtain ⟨mine', theirs, head, other, split, three⟩ := apart
    obtain rfl := Except.ok.inj (hcurrent.symm.trans three.current)
    obtain rfl := Except.ok.inj (hload.symm.trans three.loadHead)
    obtain ⟨staging', hstaging', nothing⟩ := three.nothing
    have old := notTracked staging' hstaging' nothing
    obtain ⟨working, hlist, hrun⟩ := mergeTips_run h three tellable printed
    split at hrun
    · exact Leads.of_run ((merge_of_threeWay h three date printed).trans hrun) rfl
    · rename_i clear
      obtain ⟨steps, t₁, t', hrun, merged⟩ := hrun
      refine Leads.of_run ((merge_of_threeWay h three date printed).trans hrun) ?_
      have untouched : name ∉ touchedNames split current other := fun touched =>
        clear ((isSome_untrackedInTheWay?_iff h.housed _ _ _ hlist).mpr
          ⟨name, touched, old, .of_file named hat⟩)
      have recorded : t'.at? (name :: root) = t₁.at? (name :: root) :=
        merged.recorded.touch.at?_eq (Area.holds_work
          (FileName.text_ne (Worktree.notMeta_of_named named)) (List.suffix_refl _)) (by simp)
      refine recorded.trans (merged.frame _ fun step hstep => not_suffix_of_ne ?_)
      rintro rfl
      exact untouched (merged.touched_of_step hstep)
  · have none_ : ∀ mine theirs head other split,
        ¬ThreeWay root t text mine theirs head other split :=
      fun mine theirs head other split three => apart ⟨mine, theirs, head, other, split, three⟩
    refine leads_merge_of_not_threeWay none_
      (Q := fun _ t' => t'.at? (name :: root) = t.at? (name :: root)) (fun _ => rfl)
      (fun _ _ _ _ _ => rfl) ?_
    intro _ mine' theirs _ other hstaging' tips _
    obtain ⟨staging', hempty, nothing⟩ := tips.nothing
    refine (switchTo_leads h hstaging' hcurrent hload tips.loadOther printed).mono ?_
    intro r w' outcome
    exact (outcome.spares named hat).resolve_right
      fun lost => notTracked staging' hempty nothing lost.1

end Command

/-! ## 4. Untracked files in a run -/

/-- Whether a request may take the working tree to another snapshot. -/
def Request.ChangesSnapshot : Request → Prop
  | .checkout (some _) none | .reset _ | .merge _ => True
  | _ => False

open LocalVcs.Action Command in
/-- **A file that the status calls untracked** is there with the same contents after a switch or a
merge, whether that fails or succeeds; but one that is staged for removal as well may be lost where
a branch is checked out, or a commit is reset to, with success. -/
theorem Run.untracked_stays {allowed : Request → Prop} {past : List Recording}
    (run : Run root allowed Settings.Dates past t) {settings : Settings}
    (here : settings.root = root) {s : Status}
    (hreport : Status.report root t = .ok s) (untracked : name ∈ s.untracked) {request : Request}
    (changes : request.ChangesSnapshot) (dates : settings.Dates request) (guarded : Bool)
    (printed : String) :
    Command.status root ⟨t, printed⟩ = (.ok (), ⟨t, printed ++ s.render⟩) ∧
    ∃ content, t.at? (name :: root) = some (.file content) ∧
      (request.perform settings guarded).Leads ⟨t, printed⟩ fun r w' =>
        w'.tree.at? (name :: root) = some (.file content) ∨
          name ∈ s.removed ∧ r = .ok () ∧ ∀ branch, request ≠ .merge branch := by
  have h := run.intact
  obtain ⟨staging, mine, current, hstaging, hcurrent, hload, mem_removed, mem_untracked⟩ :=
    Status.mem_untracked_iff h.housed hreport
  obtain ⟨⟨named, content, hat⟩, -, notHeld⟩ := (mem_untracked name).mp untracked
  refine ⟨?_, content, hat, ?_⟩
  · rw [status_eq, bind_run_ok (read_run hreport)]
    rfl
  rw [← hat]
  -- a file that the current commit tracks is untracked only where it is staged for removal
  have lost : ∀ {r : Except Fault Unit} {w' : World},
      w'.tree.at? (name :: root) = t.at? (name :: root) ∨ name ∈ current.manifest ∧ r = .ok () →
      (∀ branch, request ≠ .merge branch) →
      w'.tree.at? (name :: root) = t.at? (name :: root) ∨
        name ∈ s.removed ∧ r = .ok () ∧ ∀ branch, request ≠ .merge branch :=
    fun outcome noMerge => outcome.imp_right fun ⟨old, hok⟩ =>
      ⟨(mem_removed name).mpr (notHeld.resolve_left fun new => new old), hok, noMerge⟩
  cases hdate : Request.commitMoment settings with
  | error fault => exact Leads.of_run (Request.perform_run_error hdate guarded printed) (Or.inl rfl)
  | ok date =>
    refine Request.leads_perform h here hdate guarded ?_
    cases request with
    | checkout target file =>
      rcases target with _ | text <;> rcases file with _ | file <;> try exact changes.elim
      exact (checkoutBranch_spares h hcurrent hload named hat text printed).mono
        fun _ _ outcome => lost outcome (by simp)
    | reset text =>
      exact (reset_spares h hcurrent hload named hat text printed).mono
        fun _ _ outcome => lost outcome (by simp)
    | merge text =>
      exact (merge_spares h hcurrent hload named hat hstaging notHeld (dates date hdate) text
        printed).mono fun _ _ => Or.inl
    | _ => exact changes.elim

/-! ## 5. Two files -/

namespace Apart

theorem trackable_note : Trackable [] "note" := by
  have name : Worktree.fileName? "note" = some "note" := by decide
  exact .of_names name (by decide) (by decide)

/-- A file that is tracked nowhere is there with its contents when the current branch has been taken
to the commit that the other one stands for. -/
theorem untracked_outlives : ∃ t t' s, Run [] Request.Plain Settings.Dates [right, left] t ∧
    Status.report [] t = .ok s ∧ "note" ∈ s.untracked ∧
    (Request.reset left.made.id.text).perform settings false ⟨t, ""⟩ = (.ok (), ⟨t', ""⟩) ∧
    t'.at? ["note"] = some (.file (.plain [3])) := by
  obtain ⟨t₀, run₀, nothing₀, hcurrent₀, -, texts₀⟩ := exists_run
  obtain ⟨t, -, run, touch, only⟩ := run₀.exists_edit trackable_note [3]
  have hat := only.written
  have h := run.intact
  have hcurrent : Branches.current [] t = .ok ⟨BranchName.master, right.made.id⟩ := by
    rw [Branches.current_congr run₀.intact.housed h.housed touch (by simp) (by simp), hcurrent₀]
  have hstaging := Staging.load_of_shows h.housed h.index (nothing₀.of_touches touch (by simp))
  obtain ⟨hleft, hright, -⟩ := loads run
  obtain ⟨s, hreport⟩ := Status.report_run h hcurrent (only.textsIn texts₀) (by decide)
  obtain ⟨staging, mine, head, hstaging', hmine, hhead, mem_removed, mem_untracked⟩ :=
    Status.mem_untracked_iff h.housed hreport
  obtain rfl := Except.ok.inj (hstaging.symm.trans hstaging')
  obtain rfl := Except.ok.inj (hcurrent.symm.trans hmine)
  obtain rfl := Except.ok.inj (hright.symm.trans hhead)
  have notHeld : "note" ∉ right.made.manifest := fun held => by
    obtain ⟨blob, hblob⟩ := NameMap.mem_iff_exists_getElem?.mp held
    rw [right, made_manifest, if_neg (by decide)] at hblob
    cases hblob
  have untracked : "note" ∈ s.untracked :=
    (mem_untracked "note").mpr ⟨⟨by decide, _, hat⟩, by simp [Staging.empty], Or.inl notHeld⟩
  obtain ⟨t', hreset, -⟩ := Command.reset_run False h (h.load_iff.mp hleft).2 hcurrent hright
    not_blocked ""
  have changes : Request.ChangesSnapshot (.reset left.made.id.text) := trivial
  obtain ⟨-, content, hat', outcome⟩ := run.untracked_stays here hreport untracked changes
    (fun _ _ => trivial) false ""
  have hperform : (Request.reset left.made.id.text).perform settings false ⟨t, ""⟩ =
      (.ok (), ⟨t', ""⟩) := by
    rw [Request.perform_run h here rfl]
    exact hreset
  rw [Action.Leads, hperform] at outcome
  obtain stays | ⟨removed, -⟩ := outcome
  · exact ⟨t, t', s, run, hreport, untracked, hperform, by rw [stays, ← hat', hat]⟩
  · exact absurd ((mem_removed "note").mp removed) (by simp [Staging.empty])

/-- After the one file has been staged for removal, the user writes it again.  The status calls the
file untracked, and resetting to the current commit writes over it. -/
theorem untracked_overwritten : ∃ t₀ t₁ t t' s, Run [] Request.Plain Settings.Dates [left] t₀ ∧
    (Request.rm "file").perform settings false ⟨t₀, ""⟩ = (.ok (), ⟨t₁, ""⟩) ∧
    UserEdit [] t₁ t ∧ Run [] Request.Plain Settings.Dates [left] t ∧
    Status.report [] t = .ok s ∧ "file" ∈ s.untracked ∧
    t.at? ["file"] = some (.file (.plain [2])) ∧
    (Request.reset left.made.id.text).perform settings false ⟨t, ""⟩ = (.ok (), ⟨t', ""⟩) ∧
    t'.at? ["file"] = some (.file (.plain [1])) := by
  obtain ⟨t₀, run₀, nothing₀, -, -, hcurrent₀, texts₀⟩ := exists_begun
  have h₀ := run₀.intact
  have free : CollisionFree [left] := collisionFree.mono (by simp)
  have stored₀ := (run₀.archive free).commitStored (List.mem_singleton_self left)
  have held : left.made.manifest["file"]? = some (Object.blobId [1]) := by
    rw [left, made_manifest, if_pos rfl]
  -- the file is staged for removal
  obtain ⟨content, t₁', t₁, -, hrm, gone, -, indexed, kept₁, shows₁⟩ := Command.rm_deletes False h₀
    (Staging.load_of_shows h₀.housed h₀.index nothing₀) hcurrent₀ (h₀.load_iff.mpr ⟨rfl, stored₀⟩)
    held ""
  have deleted : Touches [] [.work] t₀ t₁' :=
    gone.touches (List.forall_mem_singleton.mpr trackable_file.notMeta)
  have touch₁ : Touches [] [.work, .index .addition, .index .removal] t₀ t₁ :=
    (deleted.mono (by simp)).trans (indexed.mono (by simp))
  have texts₁ : TextsIn [] t₁ := (gone.textsIn texts₀).of_touches indexed (by simp)
  have hrm : (Request.rm "file").run [] settings.zone settings.now ⟨t₀, ""⟩ = (.ok (), ⟨t₁, ""⟩) :=
    hrm
  have hallowed : Request.Plain (.rm "file") := trivial
  have run₁ : Run [] Request.Plain Settings.Dates [left] t₁ :=
    run₀.next here rfl hallowed hrm trivial (by rintro _ _ ⟨⟩)
  -- the user writes it again
  obtain ⟨t, edit, run, touch, only⟩ := run₁.exists_edit trackable_file [2]
  have hat := only.written
  have h := run.intact
  have hcurrent : Branches.current [] t = .ok ⟨BranchName.master, left.made.id⟩ := by
    rw [Branches.current_congr run₁.intact.housed h.housed touch (by simp) (by simp),
      Branches.current_congr h₀.housed run₁.intact.housed touch₁ (by simp) (by simp), hcurrent₀]
  have archive := run.archive free
  have stored := archive.commitStored (List.mem_singleton_self left)
  have hload : Commits.load [] t left.made.id = .ok left.made := h.load_iff.mpr ⟨rfl, stored⟩
  have hstaging := Staging.load_of_shows h.housed h.index (shows₁.of_touches touch (by simp))
  obtain ⟨s, hreport⟩ := Status.report_run h hcurrent (only.textsIn texts₁) (by decide)
  have untracked : "file" ∈ s.untracked := by
    obtain ⟨staging, mine, head, hstaging', -, -, -, mem_untracked⟩ :=
      Status.mem_untracked_iff h.housed hreport
    obtain rfl := Except.ok.inj (hstaging.symm.trans hstaging')
    refine (mem_untracked "file").mpr ⟨⟨by decide, _, hat⟩, ?_, Or.inr ?_⟩
    · simp [Staging.remove, Staging.unstageAddition, Staging.empty]
    · simp [Staging.remove]
  -- the commit that is reset to holds other contents
  have clear : ¬Switch.Blocked [] t left.made left.made := by
    rintro ⟨name, held, untracked, -⟩
    exact untracked held
  obtain ⟨t', hreset, -, switched, -⟩ := Command.reset_run False h stored hcurrent hload clear ""
  obtain ⟨bytes, hbytes, hat'⟩ := switched.written "file" _ held
  have hblob : Blobs.load [] t (Object.blobId [1]) = .ok [1] := by
    have staged : left.staged.additions["file"]? = some [1] := by
      simp [left, recording, Staging.single]
    exact h.loadBlob_iff.mpr
      (archive.stored (.blob [1]) (.brought (List.mem_singleton_self left) (.blob staged)))
  obtain rfl := Except.ok.inj (hbytes.symm.trans hblob)
  refine ⟨t₀, t₁, t, t', s, run₀, ?_, edit, run, hreport, untracked, hat, ?_, hat'⟩
  · rw [Request.perform_run h₀ here rfl, hrm]
  · rw [Request.perform_run h here rfl]
    exact hreset

end Apart

end LocalVcs
