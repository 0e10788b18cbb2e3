/-
# The order of staging

Calls that stage different files do not see each other.  Each comes to what it would have come to
alone, with the same result; so they come to the same in any order, and the commit that follows is
the same.

* `StagingCall.comesTo`: what a call comes to.
* `StagingCall.comesTo_congr`: that depends on what stands under its name, and on nothing else that
  other calls change.
* `inTurn_alone`: calls one after the other.
* `Run.staging_order`: any order, in any state of a run.
-/
import LocalVcs.Proofs.OneFile
import LocalVcs.Proofs.UntrackedFiles

namespace LocalVcs

open FileTree Layout

variable {root : Path} {t t' t₁ t₂ : FileTree}

/-! ## 1. One call -/

/-- A call that stages a file: as it is, or, if it is dropped, for removal. -/
structure StagingCall where
  settings : Settings
  guarded : Bool
  dropped : Bool
  file : String

namespace StagingCall

variable {c d : StagingCall}

def request (c : StagingCall) : Request := if c.dropped then .rm c.file else .add c.file

def perform (c : StagingCall) : Action Unit := c.request.perform c.settings c.guarded

/-- A call in this working directory that names a file right in it. -/
structure Fits (c : StagingCall) (root : Path) : Prop where
  here : c.settings.root = root
  noSlash : '/' ∉ c.file.toList

/-- What comes of a call: the result, and what stands under its name then. -/
def comesTo (c : StagingCall) (root : Path) (t : FileTree) : Except Fault Unit × Standing :=
  match Request.commitMoment c.settings with
  | .error fault => (.error fault, standing root c.file t)
  | .ok _ =>
    if c.dropped then (standing root c.file t).rm (heldAt root c.file t)
    else (standing root c.file t).add root c.file (headAt root t) (foundAt root c.file t)

/-- **One call**, in an intact repository. -/
theorem perform_comes (h : Intact root t) (fits : c.Fits root) (printed : String) :
    ∃ t', c.perform ⟨t, printed⟩ = ((c.comesTo root t).1, ⟨t', printed⟩) ∧
      ComesTo root c.file (c.comesTo root t).2 t t' := by
  unfold perform comesTo
  cases hdate : Request.commitMoment c.settings with
  | error fault =>
    exact ⟨t, Request.perform_run_error hdate c.guarded printed, ComesTo.unchanged h⟩
  | ok date =>
    rw [Request.perform_run h fits.here hdate]
    cases hdropped : c.dropped with
    | true =>
      rw [request, hdropped]
      exact Command.rm_comes h c.file printed
    | false =>
      rw [request, hdropped]
      exact Command.add_comes h c.file printed

/-- **What a call depends on.**  Calls that stage other files change nothing that it sees. -/
theorem comesTo_congr (h : Intact root t) (h' : Intact root t')
    (touch : Touches root [.work, .index .addition, .index .removal] t t') (fits : c.Fits root)
    (same : standing root c.file t' = standing root c.file t) :
    c.comesTo root t' = c.comesTo root t := by
  rw [comesTo, comesTo, same, headAt_congr h h' touch, heldAt_congr h h' touch,
    foundAt_congr h h' fits.noSlash (congrArg Standing.work same)]

end StagingCall

/-! ## 2. Calls one after the other -/

/-- Performs calls one after the other, whatever comes of them. -/
def inTurn : List StagingCall → World → List (Except Fault Unit) × World
  | [], w => ([], w)
  | c :: calls, w =>
    let (r, w₁) := c.perform w
    let (rs, w') := inTurn calls w₁
    (r :: rs, w')

/-- From `t` to `t'` these calls have been performed, and each has come to what it comes to
alone. -/
structure AllCome (root : Path) (calls : List StagingCall) (t t' : FileTree) : Prop where
  intact : Intact root t'
  touch : Touches root [.work, .index .addition, .index .removal] t t'
  each : ∀ c ∈ calls, standing root c.file t' = (c.comesTo root t).2
  only : ∀ p, (∀ c ∈ calls, p ∉ places root c.file) → t'.at? p = t.at? p

variable {calls calls' : List StagingCall}

/-- There is only one file tree that the same calls come to. -/
theorem AllCome.unique (h : AllCome root calls t t₁) (h' : AllCome root calls' t t₂)
    (same : ∀ c, c ∈ calls ↔ c ∈ calls') : t₁ = t₂ := by
  refine FileTree.ext fun p => ?_
  by_cases hp : ∃ c ∈ calls, p ∈ places root c.file
  · obtain ⟨c, hc, hp⟩ := hp
    exact standing_eq_iff.mp ((h.each c hc).trans (h'.each c ((same c).mp hc)).symm) p hp
  · simp only [not_exists, not_and] at hp
    rw [h.only p hp, h'.only p fun c hc => hp c ((same c).mpr hc)]

/-- **Each call comes to what it would have come to alone.** -/
theorem inTurn_alone (h : Intact root t) (fits : ∀ c ∈ calls, c.Fits root)
    (apart : calls.Pairwise fun c d => c.file ≠ d.file) (printed : String) :
    ∃ t', inTurn calls ⟨t, printed⟩ =
        (calls.map fun c => (c.comesTo root t).1, ⟨t', printed⟩) ∧ AllCome root calls t t' := by
  induction calls generalizing t with
  | nil => exact ⟨t, rfl, h, Touches.refl root t, by simp, fun _ _ => rfl⟩
  | cons c calls ih =>
    obtain ⟨others, apart⟩ := List.pairwise_cons.mp apart
    obtain ⟨fitsFirst, fits⟩ := List.forall_mem_cons.mp fits
    obtain ⟨t₁, hfirst, first⟩ := StagingCall.perform_comes h fitsFirst printed
    obtain ⟨t', hrest, rest⟩ := ih first.intact fits apart
    -- the first call has changed nothing that the others see
    have same : ∀ d ∈ calls, d.comesTo root t₁ = d.comesTo root t := fun d hd =>
      StagingCall.comesTo_congr h first.intact first.touch (fits d hd)
        (first.only.standing_eq (others d hd).symm)
    -- nor have the others changed what it has left
    have kept : standing root c.file t' = standing root c.file t₁ := standing_eq_iff.mpr fun p hp =>
      rest.only p fun d hd hp' => others d hd (eq_of_mem_places hp hp')
    refine ⟨t', ?_, rest.intact, first.touch.trans rest.touch, ?_, fun p away => ?_⟩
    · simp only [inTurn, hfirst, hrest, List.map_cons]
      rw [List.map_congr_left fun d hd => congrArg Prod.fst (same d hd)]
    · refine List.forall_mem_cons.mpr ⟨kept.trans first.standing, fun d hd => ?_⟩
      rw [rest.each d hd, same d hd]
    · obtain ⟨awayFirst, away⟩ := List.forall_mem_cons.mp away
      rw [rest.only p away, first.only p awayFirst]

/-- Calls on different files come to the same in any order. -/
theorem inTurn_perm (h : Intact root t) (perm : calls.Perm calls') (fits : ∀ c ∈ calls, c.Fits root)
    (apart : calls.Pairwise fun c d => c.file ≠ d.file) (printed : String) :
    ∃ t', Intact root t' ∧
      inTurn calls ⟨t, printed⟩ = (calls.map fun c => (c.comesTo root t).1, ⟨t', printed⟩) ∧
      inTurn calls' ⟨t, printed⟩ = (calls'.map fun c => (c.comesTo root t).1, ⟨t', printed⟩) := by
  obtain ⟨t₁, hrun₁, come₁⟩ := inTurn_alone h fits apart printed
  obtain ⟨t₂, hrun₂, come₂⟩ := inTurn_alone h (fun c hc => fits c (perm.mem_iff.mpr hc))
    ((perm.pairwise_iff fun differ => Ne.symm differ).mp apart) printed
  obtain rfl := come₁.unique come₂ fun c => perm.mem_iff
  exact ⟨t₁, come₁.intact, hrun₁, hrun₂⟩

/-! ## 3. In a run -/

/-- **The order of staging does not matter.**  In every state of a run, two calls that stage files
of different names come to the same in either order: each has the same result, and the file tree is
the same in the end.  So any number of calls on different files come to the same in any order, and a
commit that follows does: it has the same result, and the same commit is current then. -/
theorem Run.staging_order {allowed : Request → Prop} {past : List Recording}
    (run : Run root allowed Settings.Dates past t) (printed : String) :
    (∀ c d : StagingCall, c.Fits root → d.Fits root → c.file ≠ d.file → ∃ rc rd t₁ t₂ t',
      c.perform ⟨t, printed⟩ = (rc, ⟨t₁, printed⟩) ∧ d.perform ⟨t₁, printed⟩ = (rd, ⟨t', printed⟩) ∧
      d.perform ⟨t, printed⟩ = (rd, ⟨t₂, printed⟩) ∧
        c.perform ⟨t₂, printed⟩ = (rc, ⟨t', printed⟩)) ∧
    ∀ calls calls' : List StagingCall, calls.Perm calls' → (∀ c ∈ calls, c.Fits root) →
      calls.Pairwise (fun c d => c.file ≠ d.file) →
      ∃ (outcome : StagingCall → Except Fault Unit) (w : World),
        inTurn calls ⟨t, printed⟩ = (calls.map outcome, w) ∧
        inTurn calls' ⟨t, printed⟩ = (calls'.map outcome, w) ∧
        ∀ (settings : Settings) guarded message, settings.root = root →
          settings.Dates (.commit message) → ∃ r w',
          (Request.commit message).perform settings guarded (inTurn calls ⟨t, printed⟩).2 =
            (r, w') ∧
          (Request.commit message).perform settings guarded (inTurn calls' ⟨t, printed⟩).2 =
            (r, w') ∧
          (r = .ok () → ∃ (name : BranchName) (c : Commit),
            Branches.current root w'.tree = .ok ⟨name, c.id⟩ ∧ c.message = message) := by
  have h := run.intact
  refine ⟨fun c d fitsC fitsD apart => ?_, fun calls calls' perm fits apart => ?_⟩
  · obtain ⟨t₁, hc, -⟩ := StagingCall.perform_comes h fitsC printed
    obtain ⟨t₂, hd, -⟩ := StagingCall.perform_comes h fitsD printed
    obtain ⟨t', -, hrun, hrun'⟩ := inTurn_perm h (.swap d c []) (by simp [fitsC, fitsD])
      (List.pairwise_pair.mpr apart) printed
    rcases hcd : d.perform ⟨t₁, printed⟩ with ⟨rd, w⟩
    rcases hdc : c.perform ⟨t₂, printed⟩ with ⟨rc, w'⟩
    simp only [inTurn, hc, hd, hcd, hdc, List.map_cons, List.map_nil, Prod.mk.injEq,
      List.cons.injEq, and_true, true_and] at hrun hrun'
    obtain ⟨rfl, rfl⟩ := hrun
    obtain ⟨rfl, rfl⟩ := hrun'
    exact ⟨_, _, t₁, t₂, t', hc, hcd, hd, hdc⟩
  · obtain ⟨t', h', hrun, hrun'⟩ := inTurn_perm h perm fits apart printed
    refine ⟨_, ⟨t', printed⟩, hrun, hrun', fun settings guarded message here dates => ?_⟩
    rw [hrun, hrun']
    rcases hcommit : (Request.commit message).perform settings guarded ⟨t', printed⟩ with ⟨r, w'⟩
    refine ⟨r, w', rfl, rfl, ?_⟩
    rintro rfl
    obtain ⟨date, hdate, hcommit⟩ := Request.of_perform_ok hcommit
    rw [here] at hcommit
    obtain ⟨mine, head, staging, finds, recorded⟩ :=
      Command.of_commit_ok h' (dates date hdate) hcommit
    exact ⟨mine.name, _, recorded.current h' finds.current, rfl⟩

namespace Apart

/-- The one file is dropped, -/
def dropFile : StagingCall := ⟨settings, true, true, "file"⟩

/-- and a new one is staged. -/
def addNote : StagingCall := ⟨settings, true, false, "note"⟩

/-- Both calls succeed in either order, and the same comes of a commit that follows. -/
theorem staging_order_left : ∃ t, Run [] Request.Plain Settings.Dates [left] t ∧ dropFile.Fits [] ∧
    addNote.Fits [] ∧ dropFile.file ≠ addNote.file ∧
    (∃ t₁ t₂ t', dropFile.perform ⟨t, ""⟩ = (.ok (), ⟨t₁, ""⟩) ∧
      addNote.perform ⟨t₁, ""⟩ = (.ok (), ⟨t', ""⟩) ∧ addNote.perform ⟨t, ""⟩ = (.ok (), ⟨t₂, ""⟩) ∧
      dropFile.perform ⟨t₂, ""⟩ = (.ok (), ⟨t', ""⟩)) ∧
    ∃ r w,
      (Request.commit "next").perform settings true (inTurn [dropFile, addNote] ⟨t, ""⟩).2 =
        (r, w) ∧
      (Request.commit "next").perform settings true (inTurn [addNote, dropFile] ⟨t, ""⟩).2 =
        (r, w) := by
  obtain ⟨t₀, run₀, nothing₀, -, -, hcurrent₀, -⟩ := exists_begun
  obtain ⟨t, -, run, touch, only⟩ := run₀.exists_edit trackable_note [3]
  have hat := only.written
  have h := run.intact
  have hcurrent : Branches.current [] t = .ok ⟨BranchName.master, left.made.id⟩ := by
    rw [Branches.current_congr run₀.intact.housed h.housed touch (by simp) (by simp), hcurrent₀]
  have hstaging := Staging.load_of_shows h.housed h.index (nothing₀.of_touches touch (by simp))
  have hload := (loads_left run).1
  have held : left.made.manifest["file"]? = some (Object.blobId [1]) := by
    rw [left, made_manifest, if_pos rfl]
  obtain ⟨-, s₁, -, hrm, -⟩ := Command.rm_run False h hstaging hcurrent hload held ""
  obtain ⟨s₂, hadd, -⟩ := Command.add_run False h trackable_note hat hstaging hcurrent hload ""
  have fitsDrop : dropFile.Fits [] := ⟨here, by decide⟩
  have fitsAdd : addNote.Fits [] := ⟨here, by decide⟩
  have apart : dropFile.file ≠ addNote.file := by decide
  obtain ⟨two, many⟩ := run.staging_order ""
  obtain ⟨rc, rd, t₁, t₂, t', hc, hcd, hd, hdc⟩ := two dropFile addNote fitsDrop fitsAdd apart
  have okDrop : dropFile.perform ⟨t, ""⟩ = (.ok (), ⟨s₁, ""⟩) :=
    (Request.perform_run h here rfl true "").trans hrm
  have okAdd : addNote.perform ⟨t, ""⟩ = (.ok (), ⟨s₂, ""⟩) :=
    (Request.perform_run h here rfl true "").trans hadd
  obtain ⟨rfl, rfl⟩ : rc = .ok () ∧ rd = .ok () :=
    ⟨congrArg Prod.fst (hc.symm.trans okDrop), congrArg Prod.fst (hd.symm.trans okAdd)⟩
  obtain ⟨-, -, -, -, commits⟩ := many [dropFile, addNote] [addNote, dropFile]
    (.swap _ _ []) (by simp [fitsDrop, fitsAdd]) (List.pairwise_pair.mpr apart)
  obtain ⟨r, w, hcommit, hcommit', -⟩ := commits settings true "next" here
    (.of_clock (fun _ => by decide) _)
  exact ⟨t, run, fitsDrop, fitsAdd, apart, ⟨t₁, t₂, t', hc, hcd, hd, hdc⟩, r, w, hcommit, hcommit'⟩

end Apart

end LocalVcs
