/-
# The steps of a merge

The steps that a merge takes name each working file at most once, so what a step leaves is what the
merge leaves, and what is staged afterwards can be told name by name.

* `MergeStep.plan_run`: planning succeeds; the steps are those of the resolutions.
* `MergeStep.stageAll`, `MergeStep.applyAll_run`: carrying the steps out.
-/
import LocalVcs.Command.Merge
import LocalVcs.Proofs.Intact

namespace LocalVcs

open FileTree Layout

variable {root : Path} {t t' : FileTree}

namespace MergeStep

/-! ## 1. One step -/

/-- The working file that a step writes or deletes. -/
def name : MergeStep → String
  | write name _ => name
  | remove name _ => name

/-- What is staged once a step has been carried out. -/
def stage (s : Staging) : MergeStep → Staging
  | write name content => s.add name content
  | remove name content => s.remove name content

/-- What is staged once all steps have been carried out. -/
def stageAll (steps : List MergeStep) (s : Staging) : Staging := steps.foldl stage s

theorem getElem?_additions_stage (s : Staging) (step : MergeStep) (n : String) :
    (stage s step).additions[n]? = match step with
      | write name content => if name = n then some content else s.additions[n]?
      | remove name _ => if name = n then none else s.additions[n]? := by
  cases step with
  | write name content =>
    simp only [stage, Staging.add, Std.ExtTreeMap.getElem?_insert,
      Std.LawfulEqCmp.compare_eq_iff_eq]
  | remove name content =>
    simp only [stage, Staging.remove, Std.ExtTreeMap.getElem?_erase,
      Std.LawfulEqCmp.compare_eq_iff_eq]

theorem getElem?_removals_stage (s : Staging) (step : MergeStep) (n : String) :
    (stage s step).removals[n]? = match step with
      | write name _ => if name = n then none else s.removals[n]?
      | remove name content => if name = n then some content else s.removals[n]? := by
  cases step with
  | write name content =>
    simp only [stage, Staging.add, Std.ExtTreeMap.getElem?_erase,
      Std.LawfulEqCmp.compare_eq_iff_eq]
  | remove name content =>
    simp only [stage, Staging.remove, Std.ExtTreeMap.getElem?_insert,
      Std.LawfulEqCmp.compare_eq_iff_eq]

/-! ## 2. All steps, staged -/

/-- A name that no step names is staged as before. -/
theorem stageAll_of_not_named {steps : List MergeStep} {s : Staging} {n : String}
    (h : ∀ step ∈ steps, step.name ≠ n) :
    (stageAll steps s).additions[n]? = s.additions[n]? ∧
      (stageAll steps s).removals[n]? = s.removals[n]? := by
  induction steps generalizing s with
  | nil => exact ⟨rfl, rfl⟩
  | cons step rest ih =>
    have other := h step (by simp)
    obtain ⟨additions, removals⟩ := ih (s := stage s step) fun step' hstep =>
      h step' (by simp [hstep])
    rw [stageAll, List.foldl_cons]
    rw [stageAll] at additions removals
    rw [additions, removals, getElem?_additions_stage, getElem?_removals_stage]
    cases step <;> exact ⟨if_neg other, if_neg other⟩

/-- What a step stages is staged in the end. -/
theorem stageAll_of_mem {steps : List MergeStep} {s : Staging} {step : MergeStep}
    (nodup : (steps.map name).Nodup) (h : step ∈ steps) :
    (stageAll steps s).additions[step.name]? = (stage s step).additions[step.name]? ∧
      (stageAll steps s).removals[step.name]? = (stage s step).removals[step.name]? := by
  induction steps generalizing s with
  | nil => cases h
  | cons first rest ih =>
    obtain ⟨fresh, nodup⟩ := List.nodup_cons.mp nodup
    rw [stageAll, List.foldl_cons]
    rcases List.mem_cons.mp h with rfl | h
    · exact stageAll_of_not_named fun step' hstep heq => fresh (heq ▸ List.mem_map_of_mem hstep)
    · have other : first.name ≠ step.name := fun heq => fresh (heq ▸ List.mem_map_of_mem h)
      obtain ⟨additions, removals⟩ := ih (s := stage s first) nodup h
      rw [stageAll] at additions removals
      rw [additions, removals]
      cases step <;> simp [getElem?_additions_stage, getElem?_removals_stage, name]

theorem stageAll_of_write {steps : List MergeStep} {s : Staging} {n : String} {content : Bytes}
    (nodup : (steps.map name).Nodup) (h : write n content ∈ steps) :
    (stageAll steps s).additions[n]? = some content ∧ (stageAll steps s).removals[n]? = none := by
  have := stageAll_of_mem (s := s) nodup h
  simpa [getElem?_additions_stage, getElem?_removals_stage, name] using this

theorem stageAll_of_remove {steps : List MergeStep} {s : Staging} {n : String} {content : Bytes}
    (nodup : (steps.map name).Nodup) (h : remove n content ∈ steps) :
    (stageAll steps s).additions[n]? = none ∧ (stageAll steps s).removals[n]? = some content := by
  have := stageAll_of_mem (s := s) nodup h
  simpa [getElem?_additions_stage, getElem?_removals_stage, name] using this

/-- Whatever is staged in the end is named by a step, or was staged before. -/
theorem exists_step_of_staged {steps : List MergeStep} {s : Staging} {n : String}
    (h : n ∈ (stageAll steps s).additions) : (∃ step ∈ steps, step.name = n) ∨ n ∈ s.additions := by
  by_cases named : ∃ step ∈ steps, step.name = n
  · exact Or.inl named
  · right
    have same := (stageAll_of_not_named (s := s) fun step hstep heq =>
      named ⟨step, hstep, heq⟩).1
    rw [Std.ExtTreeMap.mem_iff_isSome_getElem?] at h ⊢
    rwa [← same]

theorem stageAll_of_unchanged {steps : List MergeStep} {s : Staging}
    (h : (stageAll steps s).changed = false) : stageAll steps s = s := by
  have keeps : ∀ (rest : List MergeStep) (s : Staging), s.changed = true →
      (stageAll rest s).changed = true := by
    intro rest
    induction rest with
    | nil => exact fun _ h => h
    | cons step rest ih => exact fun s _ => ih (stage s step) (by cases step <;> rfl)
  cases steps with
  | nil => rfl
  | cons step rest =>
    have := keeps rest (stage s step) (by cases step <;> rfl)
    simp only [stageAll, List.foldl_cons] at h this
    simp [h] at this

/-! ## 3. Carrying out -/

/-- **Carrying out steps succeeds**: afterwards each working file that a step names is as that step
leaves it, and all others are as before. -/
theorem applyAll_run (h : Housed root t) {steps : List MergeStep} (nodup : (steps.map name).Nodup)
    (trackable : ∀ step ∈ steps, Trackable root step.name) (s : Staging) (printed : String) :
    ∃ t', applyAll root steps s ⟨t, printed⟩ = (.ok (stageAll steps s), ⟨t', printed⟩) ∧
      Touches root [.work] t t' ∧
      (∀ n content, write n content ∈ steps → t'.at? (n :: root) = some (.file (.plain content))) ∧
      (∀ n content, remove n content ∈ steps → ∀ c, t'.at? (n :: root) ≠ some (.file c)) ∧
      ∀ p, (∀ step ∈ steps, ¬.text step.name :: root <:+ p) → t'.at? p = t.at? p := by
  induction steps generalizing t s with
  | nil => exact ⟨t, rfl, Touches.refl root t, by simp, by simp, fun _ _ => rfl⟩
  | cons step rest ih =>
    obtain ⟨fresh, nodup⟩ := List.nodup_cons.mp nodup
    have hname := trackable step (by simp)
    -- what the first step leaves at its name is what stands there in the end
    suffices hstep : ∃ t₁, WorkEdit root step.name t t₁ ∧
        (∀ {t' r}, applyAll root rest (stage s step) ⟨t₁, printed⟩ = (r, ⟨t', printed⟩) →
          applyAll root (step :: rest) s ⟨t, printed⟩ = (r, ⟨t', printed⟩)) ∧
        (∀ n content, step = write n content →
          t₁.at? (n :: root) = some (.file (.plain content))) ∧
        ∀ n content, step = remove n content → ∀ c, t₁.at? (n :: root) ≠ some (.file c) by
      obtain ⟨t₁, edit, hrun₁, written₁, removed₁⟩ := hstep
      have touch₁ := edit.touches hname.notMeta
      obtain ⟨t', hrun, touch, written, removed, frame⟩ := ih (h.of_touches touch₁) nodup
        (fun step' hmem => trackable step' (by simp [hmem])) (stage s step)
      have kept : t'.at? (step.name :: root) = t₁.at? (step.name :: root) :=
        frame _ fun step' hmem => not_suffix_of_ne fun heq =>
          fresh (heq ▸ List.mem_map_of_mem hmem)
      refine ⟨t', hrun₁ hrun, touch₁.trans touch, ?_,
        ?_, ?_⟩
      · intro n content hmem
        rcases List.mem_cons.mp hmem with rfl | hmem
        · exact kept.trans (written₁ n content rfl)
        · exact written n content hmem
      · intro n content hmem
        rcases List.mem_cons.mp hmem with rfl | hmem
        · exact fun c hc => removed₁ n content rfl c (kept ▸ hc)
        · exact removed n content hmem
      · intro p hp
        rw [frame p fun step' hmem => hp step' (by simp [hmem]), edit.frame p (hp step (by simp))]
    cases step with
    | write n content =>
      obtain ⟨t₁, hrun₁, edit, hat⟩ := Worktree.write_run h hname content printed
      refine ⟨t₁, edit, fun hrun => (Action.bind_run_ok hrun₁).trans hrun, ?_, by simp⟩
      rintro _ _ heq
      obtain ⟨rfl, rfl⟩ := MergeStep.write.inj heq
      exact hat
    | remove n content =>
      obtain ⟨t₁, hrun₁, edit, hat⟩ := Worktree.remove_run h hname printed
      refine ⟨t₁, edit, fun hrun => (Action.bind_run_ok hrun₁).trans hrun, by simp, ?_⟩
      rintro _ _ heq
      obtain ⟨rfl, -⟩ := MergeStep.remove.inj heq
      exact hat

/-! ## 4. Planning -/

section Plan

variable {head other : Commit}

/-- What a commit holds under a name can be loaded. -/
theorem trackedContent_run (h : Intact root t) {c : Commit} (sound : Sound root t c) (n : String) :
    ∃ content, trackedContent root t c n = .ok content ∧
      (content = none ↔ c.manifest[n]? = none) := by
  have htracked : c.tracked? n = c.manifest[n]? := rfl
  rw [trackedContent, htracked]
  cases hblob : c.manifest[n]? with
  | none => exact ⟨none, rfl, by simp⟩
  | some blob =>
    obtain ⟨content, hload, -⟩ := h.loadBlob_of_tracked sound hblob
    exact ⟨some content, by simp only [hload]; rfl, by simp⟩

theorem name_of_ofResolution {n : String} {resolution : Resolution} {step : MergeStep}
    (h : ofResolution root t head other n resolution = .ok (some step)) : step.name = n := by
  cases resolution with
  | takeOther blob =>
    simp only [ofResolution] at h
    cases hload : Blobs.load root t blob with
    | error damage => simp [hload, Except.map] at h
    | ok content =>
      obtain rfl : write n content = step := by simpa [hload, Except.map] using h
      rfl
  | conflict =>
    simp only [ofResolution, bind, Except.bind, pure, Except.pure] at h
    split at h
    · cases h
    · split at h
      · cases h
      · obtain rfl := Option.some.inj (Except.ok.inj h)
        rfl
  | remove =>
    simp only [ofResolution, bind, Except.bind, pure, Except.pure] at h
    split at h
    · cases h
    · rename_i mine _
      cases mine with
      | none => simp at h
      | some content =>
        obtain rfl : remove n content = step := by simpa using h
        rfl
  | keepHead => simp [ofResolution] at h
  | unchanged => simp [ofResolution] at h

/-- Where the blobs of both commits are stored, each resolution has its step. -/
theorem ofResolution_run (h : Intact root t) (sound : Sound root t head)
    (sound' : Sound root t other) {n : String} {resolution : Resolution}
    (taken : ∀ blob, resolution = .takeOther blob → other.manifest[n]? = some blob) :
    ∃ step, ofResolution root t head other n resolution = .ok step := by
  obtain ⟨mine, hmine, -⟩ := trackedContent_run h sound n
  obtain ⟨theirs, htheirs, -⟩ := trackedContent_run h sound' n
  cases resolution with
  | takeOther blob =>
    obtain ⟨content, hload, -⟩ := h.loadBlob_of_tracked sound' (taken blob rfl)
    exact ⟨some (write n content), by rw [ofResolution, hload]; rfl⟩
  | conflict => exact ⟨some (write n (conflictContent mine theirs)), by
      rw [ofResolution, hmine, htheirs]; rfl⟩
  | remove => exact ⟨mine.map (remove n), by rw [ofResolution, hmine]; rfl⟩
  | keepHead => exact ⟨none, rfl⟩
  | unchanged => exact ⟨none, rfl⟩

theorem nodup_of_forall₂ {entries : List (String × Resolution)} {results : List (Option MergeStep)}
    (h : List.Forall₂ (fun entry result =>
      ofResolution root t head other entry.1 entry.2 = .ok result) entries results)
    (distinct : NameMap.Distinct entries) : ((results.filterMap id).map name).Nodup := by
  induction h with
  | nil => exact List.nodup_nil
  | @cons entry result entries results hresult htail ih =>
    obtain ⟨fresh, distinct⟩ := List.pairwise_cons.mp distinct
    cases result with
    | none => exact ih distinct
    | some step =>
      have hcons : (some step :: results).filterMap id = step :: results.filterMap id := rfl
      rw [hcons, List.map_cons, List.nodup_cons]
      refine ⟨fun hmem => ?_, ih distinct⟩
      obtain ⟨step', hstep', heq⟩ := List.mem_map.mp hmem
      obtain ⟨result', hresult', hsome⟩ := List.mem_filterMap.mp hstep'
      obtain rfl : result' = some step' := hsome
      -- the later step comes from an entry of another name
      obtain ⟨e, he, hof⟩ := exists_of_mem_forall₂ htail hresult'
      refine fresh e he ?_
      rw [← name_of_ofResolution hresult, ← name_of_ofResolution hof, heq]

/-- **Planning a merge succeeds** where the blobs of both commits are stored, and gives the step of
each resolution that has one. -/
theorem plan_run (h : Intact root t) (sound : Sound root t head) (sound' : Sound root t other)
    {resolved : NameMap Resolution} (taken : ∀ (n : String) blob,
      resolved[n]? = some (.takeOther blob) → other.manifest[n]? = some blob) :
    ∃ steps, plan root t head other resolved = .ok steps ∧ (steps.map name).Nodup ∧
      ∀ step, step ∈ steps ↔ ∃ resolution, resolved[step.name]? = some resolution ∧
        ofResolution root t head other step.name resolution = .ok (some step) := by
  have mem_toList : ∀ {n resolution}, (n, resolution) ∈ resolved.toList ↔
      resolved[n]? = some resolution := Std.ExtTreeMap.mem_toList_iff_getElem?_eq_some
  obtain ⟨results, hresults⟩ := mapM_succeeds (l := resolved.toList)
    (f := fun entry => ofResolution root t head other entry.1 entry.2) fun entry hentry =>
      ofResolution_run h sound sound' fun blob hblob =>
        taken entry.1 blob (hblob ▸ mem_toList.mp hentry)
  refine ⟨results.filterMap id, ?_, nodup_of_forall₂ (forall₂_of_mapM hresults)
    (NameMap.distinct_toList _), ?_⟩
  · simp only [plan, bind, Except.bind]
    rw [hresults]
    rfl
  · intro step
    simp only [List.mem_filterMap, id_eq, exists_eq_right]
    constructor
    · intro hmem
      obtain ⟨⟨n, resolution⟩, hentry, hof⟩ := exists_of_mem_mapM hresults hmem
      obtain rfl := name_of_ofResolution hof
      exact ⟨resolution, mem_toList.mp hentry, hof⟩
    · rintro ⟨resolution, hresolved, hof⟩
      obtain ⟨result, hmem, hresult⟩ :=
        exists_mem_of_mapM hresults (mem_toList.mpr hresolved)
      obtain rfl : result = some step := by simpa [hof] using hresult.symm
      exact hmem

end Plan

end MergeStep

end LocalVcs
