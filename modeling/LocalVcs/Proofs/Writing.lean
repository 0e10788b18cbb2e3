/-
# What writes

The parts of a command that write do nothing but edits in a scope, and they fail late: a user error
and an object that cannot be loaded are found out by reading, and what fails here is a request that
the file system refuses.

* `Fault.IsEarly`: the faults that are found out by reading.
* `Action.Writes`: an action that does edits in a scope only, and meets no early fault.
* `Store.save_writes`, `Branches.save_writes`, `Staging.save_writes`, `Worktree.write_writes`,
  `Switch.apply_writes`, `MergeStep.applyAll_writes`: what writes.
-/
import LocalVcs.Command.Merge
import LocalVcs.Proofs.Edits
import LocalVcs.Proofs.Outcome

namespace LocalVcs

open FileTree Layout

/-! ## 1. Early faults -/

/-- The user has asked in vain, or an object cannot be loaded. -/
def Fault.IsEarly : Fault → Prop
  | user _ | damaged _ => True
  | _ => False

theorem late_refused {refusal : Refusal} : ¬(Fault.refused refusal).IsEarly := id

theorem late_system : ¬Fault.system.IsEarly := id

/-- A fault that stands for the lack of something that is read. -/
theorem late_of_elim {α β : Type} {o : Option α} {late fault : Fault} {f : α → β}
    (h : ¬late.IsEarly)
    (hfault : o.elim (Except.error late) (fun x => Except.ok (f x)) = .error fault) :
    ¬fault.IsEarly := by
  cases o with
  | none => exact Except.error.inj hfault ▸ h
  | some x => cases hfault

/-! ## 2. Writing actions -/

namespace Action

variable {α β : Type} {a : Action α} {f : α → Action β} {root : Path} {scope : Scope} {w : World}

/-- From a world an action does nothing but edits in a scope, and it meets no early fault. -/
def Writes (root : Path) (scope : Scope) (a : Action α) (w : World) : Prop :=
  a.Leads w fun r w' => Edits root scope w.tree w'.tree ∧
    ∀ fault, r = .error fault → ¬fault.IsEarly

theorem writes_pure {x : α} : (pure x : Action α).Writes root scope w :=
  ⟨.refl _ _ _, by rintro _ ⟨⟩⟩

theorem writes_print {text : String} : (print text).Writes root scope w :=
  ⟨.refl _ _ _, by rintro _ ⟨⟩⟩

theorem writes_print_if {text : String} {c : Prop} [Decidable c] :
    (if c then print text else pure ()).Writes root scope w := by
  split
  · exact writes_print
  · exact writes_pure

theorem writes_edit {fault : Fault} {request : FileTree → Option FileTree} (late : ¬fault.IsEarly)
    (h : ∀ t', request w.tree = some t' → Edit root scope w.tree t') :
    (edit fault request).Writes root scope w := by
  simp only [Writes, Leads, edit]
  split
  · rename_i t' hrequest
    exact ⟨.of_edit (h t' hrequest), by rintro _ ⟨⟩⟩
  · exact ⟨.refl _ _ _, fun met hmet => Except.error.inj hmet ▸ late⟩

theorem writes_makeDirs {fault : Fault} {r : Route} (late : ¬fault.IsEarly)
    (h : ∀ t, Edit root scope t (t.makeDirs r).2) : (makeDirs fault r).Writes root scope w := by
  refine ⟨.of_edit (h w.tree), fun met hmet => ?_⟩
  simp only [makeDirs] at hmet
  split at hmet
  · cases hmet
  · exact Except.error.inj hmet ▸ late

theorem Writes.bind (h : a.Writes root scope w) (next : ∀ x w', (f x).Writes root scope w') :
    (a >>= f).Writes root scope w :=
  Leads.bind h
    (fun x w' ⟨before, _⟩ => (next x w').mono fun _ _ ⟨after, late⟩ => ⟨before.trans after, late⟩)
    fun _ _ ⟨before, late⟩ =>
      ⟨before, fun met hmet => late met (congrArg Except.error (Except.error.inj hmet))⟩

theorem writes_read_bind {view : FileTree → Except Fault α}
    (late : ∀ fault, view w.tree = .error fault → ¬fault.IsEarly)
    (next : ∀ x, view w.tree = .ok x → (f x).Writes root scope w) :
    (read view >>= f).Writes root scope w :=
  leads_read_bind next fun fault hfault =>
    ⟨.refl _ _ _, fun _ hmet => Except.error.inj hmet ▸ late fault hfault⟩

theorem Writes.discard (h : a.Writes root scope w) : (discard a).Writes root scope w :=
  h.bind fun _ _ => writes_pure

theorem Writes.orFault {fault : Fault} (h : a.Writes root scope w) (late : ¬fault.IsEarly) :
    (orFault fault a).Writes root scope w := by
  unfold Writes Leads Action.orFault at *
  rcases hrun : a w with ⟨met | x, w'⟩
  · rw [hrun] at h
    obtain ⟨edits, hmet⟩ := h
    cases met with
    | user error => exact absurd trivial (hmet _ rfl)
    | _ => exact ⟨edits, fun _ heq => Except.error.inj heq ▸ late⟩
  · rw [hrun] at h
    exact ⟨h.1, by rintro _ ⟨⟩⟩

end Action

open LocalVcs.Action

variable {root : Path} {scope : Scope}

/-! ## 3. Objects and references -/

theorem Store.save_writes {kind : Kind} (enters : scope.enters (storeName kind)) (id : ObjectId)
    (encoding : Bytes) (w : World) : (Store.save root kind id encoding).Writes root scope w := by
  have spelled : ((Layout.store root kind).child id.directory).Spelled :=
    (Route.spelled_metaDir.child _).child _
  refine writes_read_bind (by rintro _ ⟨⟩) fun present _ => ?_
  split
  · exact writes_pure
  · exact (writes_makeDirs late_refused fun _ => .dirs enters (.objectDir kind id) spelled).bind
      fun _ _ => writes_edit late_refused fun _ h =>
        .put enters (.object kind id) (spelled.child _) (Or.inr h)

theorem Blobs.save_writes (enters : scope.enters (storeName .blob)) (content : Bytes) (w : World) :
    (Blobs.save root content).Writes root scope w :=
  (Store.save_writes enters _ _ w).bind fun _ _ => writes_pure

theorem Commits.save_writes (enters : scope.enters (storeName .commit)) (c : Commit) (w : World) :
    (Commits.save root c).Writes root scope w := Store.save_writes enters _ _ w

namespace Branches

theorem save_writes (enters : scope.enters "branches") (branch : Branch) (w : World) :
    (save root branch).Writes root scope w := by
  obtain ⟨into, spelled⟩ : (Branches.route root branch.name).parent.Into root "branches" ∧
      (Branches.route root branch.name).parent.Spelled := Route.Into.branchDir branch.name
  exact (writes_makeDirs late_system fun _ => .dirs enters into spelled).bind fun _ _ =>
    writes_edit late_refused fun _ h =>
      .put enters (.branch branch.name) (Route.spelled_branch branch.name) (Or.inl h)

theorem setHead_writes (enters : scope.enters "HEAD") (name : BranchName) (w : World) :
    (setHead root name).Writes root scope w :=
  (writes_makeDirs late_system fun _ => .headDir enters).bind fun _ _ =>
    writes_edit late_refused fun _ h => .head enters h

/-- The directory that some segments lead to from that of the branches. -/
theorem below_of_segments {segment : FileName} {above : List FileName}
    (level : (".." : FileName) ∉ segment :: above) (goes : Route.goes segment = true) :
    (Route.mk root ((Layout.branches root).segments ++ (segment :: above).reverse)).Below root
      "branches" := by
  have hpath :
      (Route.mk root ((Layout.branches root).segments ++ (segment :: above).reverse)).path =
      segment :: (above.filter Route.goes ++ branchesPath root) := by
    have front : [FileName.text metaName, "branches"].filter Route.goes =
        [FileName.text metaName, "branches"] := by decide
    change (Route.mk root ([FileName.text metaName, "branches"] ++ _)).path = _
    rw [Route.path_mk, List.filter_append, front, List.filter_reverse, List.filter_cons_of_pos goes]
    simp [branchesPath, metaPath]
  refine ⟨⟨by decide, ⟨.text "branches" :: (segment :: above).reverse, rfl, ?_⟩, ?_⟩, ?_⟩
  · simpa [and_comm] using level
  · rw [hpath]
    exact (List.suffix_append _ _).trans (List.suffix_cons _ _)
  · rw [hpath]
    exact Area.ne_of_longer (Nat.lt_succ_of_le (List.suffix_append _ _).length_le)

theorem prune_writes (enters : scope.enters "branches") {segments : List FileName}
    (level : (".." : FileName) ∉ segments) (w : World) :
    (prune root segments).Writes root scope w := by
  induction segments generalizing w with
  | nil => exact writes_pure
  | cons segment above ih =>
    have levelAbove : (".." : FileName) ∉ above := fun hup => level (List.mem_cons_of_mem _ hup)
    rw [prune]
    split
    · rename_i goes
      refine writes_read_bind (fun _ => late_of_elim late_system) fun empty _ => ?_
      split
      · exact (writes_edit late_refused fun _ h =>
          .drop enters (below_of_segments level goes) (Or.inr h)).bind fun _ w' => ih levelAbove w'
      · exact writes_pure
    · exact ih levelAbove w

theorem remove_writes (enters : scope.enters "branches") (name : BranchName) (w : World) :
    (remove root name).Writes root scope w := by
  have level := level_route root name
  rw [route_eq] at level
  have levelAbove : (".." : FileName) ∉ (segmentsOf name.text).reverse.tail := fun hup =>
    level (List.mem_append_right [FileName.text metaName, "branches"]
      (List.mem_reverse.mp (List.mem_of_mem_tail hup)))
  refine writes_read_bind (by rintro _ ⟨⟩) fun present _ => ?_
  split
  · exact (writes_edit late_refused fun _ h => .drop enters (.branch name) (Or.inl h)).bind
      fun _ w' => prune_writes enters levelAbove w'
  · exact writes_pure

end Branches

/-! ## 4. What is staged -/

namespace Staging

theorem of_load {t : FileTree} {s : Staging} (hload : load root t = .ok s) :
    readEntries root t .addition = .ok s.additions ∧
      readEntries root t .removal = .ok s.removals ∧ s.changed = false := by
  unfold load reload at hload
  split at hload
  · rename_i found hreload
    obtain rfl := Except.ok.inj hload
    split at hreload
    · cases hreload
    · rename_i additions hadditions
      split at hreload
      · cases hreload
      · rename_i removals hremovals
        obtain ⟨-, rfl⟩ := Prod.mk.inj hreload
        exact ⟨hadditions, hremovals, rfl⟩
  · cases hload

theorem dropStale_writes (enters : scope.enters "index") (what : Staged) (entries : NameMap Bytes)
    {names : List FileName} (valid : ∀ name ∈ names, ValidName name) (w : World) :
    (dropStale root what entries names).Writes root scope w := by
  induction names generalizing w with
  | nil => exact writes_pure
  | cons name rest ih =>
    have validRest : ∀ other ∈ rest, ValidName other := fun other hother =>
      valid other (List.mem_cons_of_mem _ hother)
    rw [dropStale]
    split
    · exact ih validRest w
    · exact (writes_edit late_refused fun _ h =>
        .drop enters ((Route.Into.staged what).child (valid name List.mem_cons_self))
          (Or.inl h)).bind
          fun _ w' => ih validRest w'

theorem writeEach_writes (enters : scope.enters "index") (what : Staged)
    {entries : List (String × Bytes)} (stages : ∀ entry ∈ entries, scope.stages entry.1)
    (w : World) :
    (writeEach root what entries).Writes root scope w := by
  induction entries generalizing w with
  | nil => exact writes_pure
  | cons entry rest ih =>
    exact (writes_edit late_refused fun _ h => .stage enters (stages entry List.mem_cons_self)
      h).bind
      fun _ w' => ih (fun other hother => stages other (List.mem_cons_of_mem _ hother)) w'

/-- What is listed of a directory are names that entries can have. -/
theorem validName_of_present {t : FileTree} {r : Route} {present : List (FileName × Entry)}
    (h : (t.list? r).elim (.error .system) .ok = (.ok present : Except Fault _)) :
    ∀ name ∈ present.map Prod.fst, ValidName name := by
  intro name hname
  obtain ⟨⟨n, e⟩, hentry, rfl⟩ := List.mem_map.mp hname
  cases hlist : t.list? r with
  | none => rw [hlist] at h; cases h
  | some found =>
    obtain rfl : found = present := by rw [hlist] at h; exact Except.ok.inj h
    exact validName_of_list? hlist hentry

theorem writeEntries_writes (enters : scope.enters "index") (what : Staged)
    {entries : NameMap Bytes}
    (stages : ∀ name ∈ entries, scope.stages name) (w : World) :
    (writeEntries root what entries).Writes root scope w := by
  have spelled : (Layout.staged root what).Spelled := (Route.spelled_metaDir.child _).child _
  have listed : ∀ entry ∈ entries.toList, scope.stages entry.1 := fun entry hentry =>
    stages _ (NameMap.mem_iff_exists_getElem?.mpr
      ⟨entry.2, Std.ExtTreeMap.mem_toList_iff_getElem?_eq_some.mp hentry⟩)
  refine (writes_makeDirs late_refused fun _ => .dirs enters (.staged what) spelled).bind
    fun _ w' => writes_read_bind (fun _ => late_of_elim late_system) fun present hpresent => ?_
  exact (dropStale_writes enters what entries (validName_of_present hpresent) w').bind
    fun _ w'' => writeEach_writes enters what listed w''

theorem save_writes {s : Staging} (enters : s.changed = true → scope.enters "index")
    (additions : ∀ name ∈ s.additions, scope.stages name)
    (removals : ∀ name ∈ s.removals, scope.stages name) (w : World) :
    (s.save root).Writes root scope w := by
  unfold save
  split
  · rename_i changed
    exact (writeEntries_writes (enters changed) .addition additions w).bind fun _ w' =>
      (writeEntries_writes (enters changed) .removal removals w').bind fun _ _ => writes_pure
  · exact writes_pure

/-- Storing that nothing is staged any more stages nothing. -/
theorem clear_save_writes {s : Staging} (enters : s.clear.changed = true → scope.enters "index")
    (w : World) : (s.clear.save root).Writes root scope w :=
  save_writes enters (by simp [clear]) (by simp [clear]) w

end Staging

/-! ## 5. Working files -/

namespace Worktree

theorem writes_requireRoute_bind {text : String} {f : Route → Action Unit} {w : World}
    (next : ∀ name, fileName? text = some name → (f ⟨root, [name]⟩).Writes root scope w) :
    (ofExcept (requireRoute root text) >>= f).Writes root scope w := by
  refine leads_ofExcept_bind (fun route hroute => ?_) fun fault hfault =>
    ⟨.refl _ _ _, fun met hmet => ?_⟩
  · obtain ⟨name, named, rfl⟩ := exists_of_requireRoute hroute
    exact next name named
  · cases hmet
    exact late_of_elim late_refused hfault

theorem write_writes {text : String} (writes : scope.writes text) (content : Bytes) (w : World) :
    (write root text content).Writes root scope w := by
  refine writes_requireRoute_bind fun name named =>
    writes_read_bind (by rintro _ ⟨⟩) fun isDir _ => ?_
  have written : ∀ w, Action.Writes root scope (Action.edit (.refused (.writeWorking text))
      fun t => t.write? ⟨root, [name]⟩ (.plain content)) w := fun w =>
    writes_edit late_refused fun _ => .write writes named
  split
  · exact (writes_edit late_refused fun _ => .clear writes named).bind fun _ w' => written w'
  · exact written w

theorem remove_writes (text : String) (w : World) : (remove root text).Writes root scope w := by
  refine writes_read_bind (by rintro _ ⟨⟩) fun present _ => ?_
  split
  · exact writes_requireRoute_bind fun name named => writes_edit late_refused fun _ => .delete named
  · exact writes_pure

end Worktree

namespace Switch

theorem deleteEach_writes (names : List String) (w : World) :
    (deleteEach root names).Writes root scope w := by
  induction names generalizing w with
  | nil => exact writes_pure
  | cons name rest ih => exact (Worktree.remove_writes name w).bind fun _ w' => ih w'

theorem writeEach_writes {writes : List (String × Bytes)}
    (can : ∀ entry ∈ writes, scope.writes entry.1) (w : World) :
    (writeEach root writes).Writes root scope w := by
  induction writes generalizing w with
  | nil => exact writes_pure
  | cons entry rest ih =>
    exact (Worktree.write_writes (can entry List.mem_cons_self) entry.2 w).bind fun _ w' =>
      ih (fun other hother => can other (List.mem_cons_of_mem _ hother)) w'

theorem apply_writes {s : Switch} (can : ∀ entry ∈ s.writes, scope.writes entry.1)
    {staging : Staging} (enters : staging.clear.changed = true → scope.enters "index") (w : World) :
    (s.apply root staging).Writes root scope w :=
  (deleteEach_writes _ w).bind fun _ w' => (writeEach_writes can w').bind fun _ w'' =>
    (Staging.clear_save_writes enters w'').discard

end Switch

theorem MergeStep.applyAll_writes {steps : List MergeStep}
    (can : ∀ text content, write text content ∈ steps → scope.writes text) (staging : Staging)
    (w : World) : (applyAll root steps staging).Writes root scope w := by
  induction steps generalizing staging w with
  | nil => exact writes_pure
  | cons step rest ih =>
    have canRest : ∀ text content, write text content ∈ rest → scope.writes text :=
      fun text content hstep => can text content (List.mem_cons_of_mem _ hstep)
    cases step with
    | write text content =>
      exact (Worktree.write_writes (can text content List.mem_cons_self) content w).bind
        fun _ w' => ih canRest _ w'
    | remove text content =>
      exact (Worktree.remove_writes text w).bind fun _ w' => ih canRest _ w'

theorem Command.saveBlobs_writes {entries : List (String × Bytes)}
    (enters : ∀ entry ∈ entries, scope.enters (storeName .blob)) (w : World) :
    (saveBlobs root entries).Writes root scope w := by
  induction entries generalizing w with
  | nil => exact writes_pure
  | cons entry rest ih =>
    exact (Blobs.save_writes (enters entry List.mem_cons_self) entry.2 w).discard.bind
      fun _ w' => ih (fun other hother => enters other (List.mem_cons_of_mem _ hother)) w'

end LocalVcs
