/-
# Commands that record nothing

Staging, taking out snapshots and handling branches leave all objects as they are, and the
repository intact, whether they succeed or not.

* `Command.add_keeps`, `Command.rm_keeps`, …: one statement for each command.
* `Command.checkoutFileAt_run`: taking a file out of a stored commit succeeds.
-/
import LocalVcs.Command.Branch
import LocalVcs.Command.Checkout
import LocalVcs.Command.Stage
import LocalVcs.Proofs.Commands.Reading
import LocalVcs.Proofs.Switching

namespace LocalVcs

open FileTree Layout

variable {root : Path} {t : FileTree} {plain : Prop}

/-! ## 1. Edits of what is staged -/

namespace Staging

theorem unstageAddition_of_unchanged {s : Staging} {name : String}
    (h : (s.unstageAddition name).changed = false) : s.unstageAddition name = s := by
  simp only [unstageAddition, Bool.or_eq_false_iff] at h
  have absent : name ∉ s.additions := by
    rw [← Std.ExtTreeMap.contains_iff_mem, h.2]; exact Bool.false_ne_true
  rw [unstageAddition, NameMap.erase_eq_self absent, h.2, Bool.or_false]

theorem unstageRemoval_of_unchanged {s : Staging} {name : String}
    (h : (s.unstageRemoval name).changed = false) : s.unstageRemoval name = s := by
  simp only [unstageRemoval, Bool.or_eq_false_iff] at h
  have absent : name ∉ s.removals := by
    rw [← Std.ExtTreeMap.contains_iff_mem, h.2]; exact Bool.false_ne_true
  rw [unstageRemoval, NameMap.erase_eq_self absent, h.2, Bool.or_false]

/-- **Saving edits that can be staged keeps a repository intact.** -/
theorem save_keeps (h : Intact root t) {s : Staging}
    (additions : ∀ name ∈ s.additions, Stageable root .addition name)
    (removals : ∀ name ∈ s.removals, Trackable root name)
    (current : s.changed = false → Shows root t s) (printed : String) :
    (discard (s.save root)).Leads ⟨t, printed⟩ fun _ w' => Kept plain root t w'.tree := by
  refine Action.leads_discard ?_
  refine (save_leads h.housed h.index additions removals current printed).mono ?_
  rintro r w' ⟨-, touch, index, -⟩
  exact Kept.of_touches h touch index (by simp) (by simp) (by simp)

end Staging

namespace Command

open LocalVcs.Action

/-- Nothing changes where contents are staged that the current commit holds already and that are not
staged. -/
theorem stageContent_of_unchanged {head : Commit} {s : Staging} {file : String} {content : Bytes}
    (h : (stageContent head s file content).changed = false) :
    stageContent head s file content = s := by
  unfold stageContent at h ⊢
  split at h
  · rename_i held
    have hremoval := Staging.unstageRemoval_of_unchanged h
    rw [hremoval] at h
    rw [if_pos held, hremoval, Staging.unstageAddition_of_unchanged h]
  · simp [Staging.unstageRemoval, Staging.add] at h

theorem mem_stageContent {head : Commit} {s : Staging} {file : String} {content : Bytes} :
    (∀ name ∈ (stageContent head s file content).additions, name = file ∨ name ∈ s.additions) ∧
      ∀ name ∈ (stageContent head s file content).removals, name ∈ s.removals := by
  unfold stageContent
  split
  · refine ⟨fun name hname => Or.inr ?_, ?_⟩
    · exact (Std.ExtTreeMap.mem_erase.mp hname).2
    · intro name hname
      exact (Std.ExtTreeMap.mem_erase.mp hname).2
  · refine ⟨?_, ?_⟩
    · intro name hname
      rcases Std.ExtTreeMap.mem_insert.mp hname with heq | hname
      · exact Or.inl (Std.LawfulEqCmp.eq_of_compare heq).symm
      · exact Or.inr hname
    · intro name hname
      exact (Std.ExtTreeMap.mem_erase.mp (Std.ExtTreeMap.mem_erase.mp hname).2).2

/-! ## 2. Staging files -/

theorem fileName?_of_contains {file : String} (h : Worktree.contains root t file = true) :
    (Worktree.fileName? file).isSome = true := by
  rw [Worktree.contains, Worktree.route?] at h
  cases hname : Worktree.fileName? file with
  | none => simp [hname] at h
  | some name => rfl

theorem add_keeps (h : Intact root t) (file printed : String) :
    (add root file).Leads ⟨t, printed⟩ fun _ w' => Kept plain root t w'.tree := by
  unfold add
  refine leads_read_bind_ok rfl ?_
  dsimp only
  split
  · rename_i present
    refine leads_read_bind ?_ fun _ _ => Kept.refl h
    intro staging hstaging
    obtain ⟨-, shows_⟩ := Staging.load_spec h.housed h.index hstaging
    obtain ⟨additions, removals⟩ := shows_.trackable h.index
    refine leads_read_bind ?_ fun _ _ => Kept.refl h
    intro content _
    refine leads_headCommit_bind ?_ fun _ => Kept.refl h
    intro b head _ _
    refine Staging.save_keeps h ?_ ?_ ?_ _
    · intro name hname
      rcases mem_stageContent.1 name hname with rfl | hname
      · exact ⟨fileName?_of_contains present, fun hno => by cases hno⟩
      · exact Staging.stageable_of_trackable (additions name hname) _
    · intro name hname
      exact removals name (mem_stageContent.2 name hname)
    · intro hsame
      rw [stageContent_of_unchanged hsame]
      exact shows_
  · exact leads_fail_bind (Kept.refl h)

theorem rm_keeps (h : Intact root t) (file printed : String) :
    (rm root file).Leads ⟨t, printed⟩ fun _ w' => Kept plain root t w'.tree := by
  unfold rm
  refine leads_read_bind ?_ fun _ _ => Kept.refl h
  intro staging hstaging
  obtain ⟨-, shows_⟩ := Staging.load_spec h.housed h.index hstaging
  obtain ⟨additions, removals⟩ := shows_.trackable h.index
  have unstaged : ∀ name ∈ staging.additions.erase file, name ∈ staging.additions :=
    fun name hname => (Std.ExtTreeMap.mem_erase.mp hname).2
  refine leads_headCommit_bind ?_ fun _ => Kept.refl h
  intro b head _ hload
  obtain ⟨-, -, sound, -⟩ := h.of_load hload
  dsimp only
  split
  · rename_i blob htracked
    have hname : Trackable root file :=
      sound.names file (NameMap.mem_iff_exists_getElem?.mpr ⟨blob, htracked⟩)
    refine leads_undamaged_bind ?_ fun _ => Kept.refl h
    intro content _
    obtain ⟨t₁, hrun, edit, -⟩ := Worktree.remove_run h.housed hname printed
    have kept₁ : Kept plain root t t₁ := Kept.of_work h (edit.touches hname.notMeta)
    refine leads_bind_of_run hrun ?_
    refine (Staging.save_keeps kept₁.intact ?_ ?_
      ?_ printed).mono fun _ _ => kept₁.trans
    · intro name hmem
      exact Staging.stageable_of_trackable (additions name (unstaged name
        (Std.ExtTreeMap.mem_erase.mp hmem).2)) _
    · intro name hmem
      rcases Std.ExtTreeMap.mem_insert.mp hmem with heq | hmem
      · exact Std.LawfulEqCmp.eq_of_compare heq ▸ hname
      · exact removals name hmem
    · intro hchanged
      simp [Staging.remove] at hchanged
  · split
    · have removals' : ∀ name ∈ (staging.unstageAddition file).removals, Trackable root name :=
        removals
      refine Staging.save_keeps h ?_ removals' ?_ _
      · intro name hmem
        exact Staging.stageable_of_trackable (additions name (unstaged name hmem)) _
      · intro hchanged
        rw [Staging.unstageAddition_of_unchanged hchanged]
        exact shows_
    · exact leads_fail_bind (Kept.refl h)

/-! ## 3. Taking out snapshots -/

/-- A file of a stored commit is written as that commit holds it. -/
theorem restoreFile_run (h : Intact root t) {c : Commit} (stored : CommitStored root t c)
    {file : String} {blob : ObjectId} (htracked : c.manifest[file]? = some blob)
    (printed : String) :
    ∃ content t', Blobs.load root t blob = .ok content ∧
      restoreFile root c file ⟨t, printed⟩ = (.ok (), ⟨t', printed⟩) ∧
      WorkEdit root file t t' ∧ t'.at? (file :: root) = some (.file (.plain content)) := by
  have sound := (h.stores.sound stored).1
  have hname : Trackable root file :=
    sound.names file (NameMap.mem_iff_exists_getElem?.mpr ⟨blob, htracked⟩)
  obtain ⟨content, hload, -⟩ := h.loadBlob_of_tracked sound htracked
  obtain ⟨t', hrun, edit, hat⟩ := Worktree.write_run h.housed hname content printed
  refine ⟨content, t', hload, ?_, edit, hat⟩
  have tracked : c.tracked? file = some blob := htracked
  rw [restoreFile, tracked, ← hrun]
  exact bind_run_ok (undamaged_run hload)

theorem restoreFile_untracked {c : Commit} {file : String} (h : c.manifest[file]? = none) :
    restoreFile root c file = fail .fileNotInCommit := by
  have untracked : c.tracked? file = none := h
  rw [restoreFile, untracked]

/-- Taking a file out of a stored commit touches working files only. -/
theorem restoreFile_touches (h : Intact root t) {c : Commit} (stored : CommitStored root t c)
    (file printed : String) :
    (restoreFile root c file).Leads ⟨t, printed⟩ fun _ w' => Touches root [.work] t w'.tree := by
  cases htracked : c.manifest[file]? with
  | none =>
    rw [restoreFile_untracked htracked]
    exact leads_fail (Touches.refl root t)
  | some blob =>
    obtain ⟨content, t', -, hrun, edit, -⟩ := restoreFile_run h stored htracked printed
    have hname : Trackable root file :=
      (h.stores.sound stored).1.names file (NameMap.mem_iff_exists_getElem?.mpr ⟨blob, htracked⟩)
    exact Leads.of_run hrun (edit.touches hname.notMeta)

theorem restoreFile_keeps (h : Intact root t) {c : Commit} (stored : CommitStored root t c)
    (file printed : String) :
    (restoreFile root c file).Leads ⟨t, printed⟩ fun _ w' => Kept plain root t w'.tree :=
  (restoreFile_touches h stored file printed).mono fun _ _ => Kept.of_work h

theorem checkoutFile_keeps (h : Intact root t) (file printed : String) :
    (checkoutFile root file).Leads ⟨t, printed⟩ fun _ w' => Kept plain root t w'.tree :=
  leads_headCommit_bind (fun _ _ _ hload => restoreFile_keeps h (h.of_load hload).2.1 file printed)
    fun _ => Kept.refl h

theorem checkoutFileAt_keeps (h : Intact root t) (commit file printed : String) :
    (checkoutFileAt root commit file).Leads ⟨t, printed⟩ fun _ w' => Kept plain root t w'.tree :=
  leads_resolveCommit_bind (fun _ hfind => restoreFile_keeps h (h.of_find? hfind) file printed)
    fun _ => Kept.refl h

/-- **Taking a file out of a stored commit succeeds.** -/
theorem checkoutFileAt_run (h : Intact root t) {c : Commit} (stored : CommitStored root t c)
    {file : String} {blob : ObjectId} (htracked : c.manifest[file]? = some blob)
    (printed : String) :
    ∃ content t', Blobs.load root t blob = .ok content ∧
      checkoutFileAt root c.id.text file ⟨t, printed⟩ = (.ok (), ⟨t', printed⟩) ∧
      WorkEdit root file t t' ∧ t'.at? (file :: root) = some (.file (.plain content)) := by
  obtain ⟨content, t', hload, hrun, edit, hat⟩ := restoreFile_run h stored htracked printed
  refine ⟨content, t', hload, ?_, edit, hat⟩
  rw [checkoutFileAt, bind_run_ok (resolveCommit_run (h.find?_of_stored stored)), hrun]

theorem switchTo_keeps (h : Intact root t) {staging : Staging}
    (hstaging : Staging.load root t = .ok staging) {text : String} {branch : Branch}
    (hfind : Branches.find? root t text = .ok (some branch)) (hplain : plain → PlainName text)
    (printed : String) :
    (switchTo root staging branch).Leads ⟨t, printed⟩ fun _ w' => Kept plain root t w'.tree := by
  obtain ⟨name, rfl, hget⟩ := Branches.of_find? hfind
  obtain ⟨c, stored, rfl, -, hfile⟩ := Branches.of_get? h.housed h.refs hget
  unfold switchTo
  refine leads_headCommit_bind ?_ fun _ => Kept.refl h
  intro b current _ hcurrent
  refine leads_undamaged_bind ?_ fun _ => Kept.refl h
  intro target htarget
  refine leads_read_bind ?_ fun _ _ => Kept.refl h
  intro s hplan
  have sound := (h.of_load hcurrent).2.2.1
  have sound' := (h.of_load htarget).2.2.1
  obtain ⟨t₁, hrun₁, kept₁, touch₁, -⟩ :=
    Switch.apply_run plain h hplan sound sound' hstaging printed
  refine leads_bind_of_run hrun₁ ?_
  have hfile₁ := touch₁.at?_eq (Branches.holds_branchPath root name) (by simp)
  rw [hfile] at hfile₁
  obtain ⟨t₂, hrun₂, touch₂, hat₂⟩ :=
    Branches.setHead_run kept₁.intact.housed kept₁.intact.head name printed
  refine Leads.of_run hrun₂ (kept₁.trans ?_)
  exact Kept.setHead kept₁.intact touch₂ (by rw [hat₂, if_pos rfl]) hplain hfile₁

theorem checkoutBranch_keeps (h : Intact root t) {text : String} (hplain : plain → PlainName text)
    (printed : String) :
    (checkoutBranch root text).Leads ⟨t, printed⟩ fun _ w' => Kept plain root t w'.tree := by
  unfold checkoutBranch
  refine leads_resolveBranch_bind ?_ fun _ => Kept.refl h
  intro branch hfind
  refine leads_read_bind ?_ fun _ _ => Kept.refl h
  intro isCurrent _
  dsimp only
  split
  · exact leads_fail_bind (Kept.refl h)
  · refine leads_read_bind ?_ fun _ _ => Kept.refl h
    intro staging hstaging
    exact switchTo_keeps h hstaging hfind hplain printed

/-! ## 4. Handling branches -/

theorem saveBranch_keeps (h : Intact root t) {c : Commit} (stored : CommitStored root t c)
    (name : BranchName) (printed : String) :
    (Branches.save root ⟨name, c.id⟩).Leads ⟨t, printed⟩ fun _ w' => Kept plain root t w'.tree := by
  refine (Branches.save_leads h.housed h.refs stored name printed).mono ?_
  rintro r w' ⟨-, touch, refs, stay⟩
  exact Kept.of_branches h touch refs stay

theorem reset_keeps (h : Intact root t) (commit printed : String) :
    (reset root commit).Leads ⟨t, printed⟩ fun _ w' => Kept plain root t w'.tree := by
  unfold reset
  refine leads_resolveCommit_bind ?_ fun _ => Kept.refl h
  intro target hfind
  have stored := h.of_find? hfind
  refine leads_read_bind ?_ fun _ _ => Kept.refl h
  intro staging hstaging
  refine leads_read_bind ?_ fun _ _ => Kept.refl h
  intro branch _
  refine leads_undamaged_bind ?_ fun _ => Kept.refl h
  intro current hcurrent
  refine leads_read_bind ?_ fun _ _ => Kept.refl h
  intro s hplan
  have sound := (h.of_load hcurrent).2.2.1
  have sound' := (h.stores.sound stored).1
  obtain ⟨t₁, hrun₁, kept₁, -⟩ :=
    Switch.apply_run plain h hplan sound sound' hstaging printed
  refine leads_bind_of_run hrun₁ ?_
  refine (saveBranch_keeps kept₁.intact (stored.mono kept₁.objects.grows) branch.name
    printed).mono fun _ _ => kept₁.trans

theorem branch_keeps (h : Intact root t) (text printed : String) :
    (branch root text).Leads ⟨t, printed⟩ fun _ w' => Kept plain root t w'.tree := by
  unfold branch
  split
  · exact leads_fail (Kept.refl h)
  · rename_i name _
    refine leads_read_bind ?_ fun _ _ => Kept.refl h
    intro present _
    dsimp only
    split
    · exact leads_fail_bind (Kept.refl h)
    · refine leads_read_bind ?_ fun _ _ => Kept.refl h
      intro b hcurrent
      obtain ⟨c, stored, tip, -⟩ := h.load_of_current hcurrent
      rw [tip]
      exact saveBranch_keeps h stored name printed

/-- **Removing a branch that is not current keeps `HEAD` standing** where names are plain: the file
that goes is another one. -/
theorem rmBranch_keeps (h : Intact root t) {text : String} (hplain : plain → PlainName text)
    (printed : String) :
    (rmBranch root text).Leads ⟨t, printed⟩ fun _ w' => Kept plain root t w'.tree := by
  unfold rmBranch
  refine leads_resolveBranch_bind ?_ fun _ => Kept.refl h
  intro b hfind
  obtain ⟨name, rfl, hget⟩ := Branches.of_find? hfind
  obtain ⟨c, stored, rfl, tell, hat⟩ := Branches.of_get? h.housed h.refs hget
  refine leads_read_bind ?_ fun _ _ => Kept.refl h
  intro isCurrent hcurrent
  dsimp only
  split
  · exact leads_fail_bind (Kept.refl h)
  · rename_i other
    obtain ⟨t', hrun, touch, files⟩ := Branches.remove_run h.housed.sealed tell hat printed
    refine Leads.of_run hrun ?_
    have objects := touch.sameObjects (by simp)
    refine ⟨⟨h.housed.of_touches touch, h.stores.of_touches touch (by simp),
      h.index.of_touches touch (by simp),
      h.refs.mono objects.grows fun p content _ hfile => ((files p content).mp hfile).2,
      by rw [touch.at?_eq Area.holds_head (by simp)]; exact h.head⟩, objects, fun hp stands => ?_⟩
    obtain ⟨current, plainCurrent, hhead, content, hfile⟩ := stands
    refine ⟨current, plainCurrent, ?_, content, (files _ _).mpr ⟨?_, hfile⟩⟩
    · rw [touch.at?_eq Area.holds_head (by simp), hhead]
    · intro hpath
      -- the file that goes would be that of the current branch
      have heq : current = name := branchPath_injective plainCurrent (hplain hp) hpath
      rw [Branches.isCurrent, HeadStands.head_eq h.housed plainCurrent hhead] at hcurrent
      simp only [Except.map, heq, decide_true, Except.ok.injEq] at hcurrent
      exact other hcurrent.symm

end Command

end LocalVcs
