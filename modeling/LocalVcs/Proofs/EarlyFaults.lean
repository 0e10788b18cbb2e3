/-
# Faults that come early

A command that meets a user error, or an object that cannot be loaded, is still reading then, and
has changed nothing.  This is so in any file tree without links, however damaged the repository is
that lies in it.

* `Request.unchanged_of_user`, `Request.unchanged_of_damaged`: nothing has changed where a request
  meets a user error, or an object that cannot be loaded.
-/
import LocalVcs.Proofs.Progress
import LocalVcs.Proofs.Scopes

namespace LocalVcs

open FileTree Layout LocalVcs.Action

variable {t : FileTree}

namespace Apart

/-- A file of a repository can be overwritten from outside. -/
theorem exists_overwritten {area : Area} {p : Path} {old : Content} (h : Housed [] t)
    (held : area.Holds [] p) (hat : t.at? p = some (.file old)) (new : Content) :
    ∃ t', Touches [] [area] t t' ∧ Housed [] t' ∧ t'.at? p = some (.file new) := by
  obtain ⟨t', hplace⟩ : ∃ t', t.place? p (.file new) = some t' :=
    ⟨_, dif_pos (canPlace_of_file hat)⟩
  have touch : Touches [] [area] t t' := .of_place? hplace held (by simp) (by simp)
  exact ⟨t', touch, h.of_touches touch, by rw [at?_place? hplace, if_pos rfl]⟩

/-- Removing a file fails where the current commit cannot be told. -/
theorem rm_run_error {staging : Staging} {fault : Fault}
    (hstaging : Staging.load [] t = .ok staging)
    (hhead : Command.headCommit [] ⟨t, ""⟩ = (.error fault, ⟨t, ""⟩)) :
    (Request.rm "file").perform settings false ⟨t, ""⟩ = (.error fault, ⟨t, ""⟩) := by
  have hrm : Command.rm [] "file" ⟨t, ""⟩ = (.error fault, ⟨t, ""⟩) := by
    unfold Command.rm
    rw [bind_run_ok (read_run hstaging), bind_run_error hhead]
  exact hrm

end Apart

namespace Request

/-- **Where a request fails with a user error, nothing has changed and nothing has been
printed.** -/
theorem unchanged_of_user {settings : Settings} {guarded : Bool} {request : Request}
    {error : UserError} {w' : World} (free : t.LinkFree settings.root) {printed : String}
    (hrun : request.perform settings guarded ⟨t, printed⟩ = (.error (.user error), w')) :
    w' = ⟨t, printed⟩ := by
  have early : (Fault.user error).IsEarly := trivial
  exact (perform_careful settings guarded request ⟨t, printed⟩).unchanged free early hrun

end Request

/-- Where `HEAD` names no branch, removing a file fails with a user error. -/
theorem Apart.unchanged_without_head : ∃ t w', t.LinkFree settings.root ∧
    (Request.rm "file").perform settings false ⟨t, ""⟩ =
      (.error (.user (.invalidBranchName "..")), w') ∧ w' = ⟨t, ""⟩ := by
  obtain ⟨t₀, run, nothing, -⟩ := exists_begun
  obtain ⟨name, -, hname, -⟩ := run.headStands fun _ plainly => plainly
  obtain ⟨t, touch, housed, hat⟩ := exists_overwritten run.intact.housed Area.holds_head hname
    (.plain (Bytes.ofText ".."))
  have hstaging := Staging.load_of_shows housed
    (run.intact.index.of_touches touch (by simp)) (nothing.of_touches touch (by simp))
  have htext := text?_eq housed.straight_head (by rw [path_head]; exact hat)
  have hread : Branches.head [] t = .error (.user (.invalidBranchName "..")) := by
    rw [Branches.head, htext]
    rfl
  have hhead : Command.headCommit [] ⟨t, ""⟩ =
      (.error (.user (.invalidBranchName "..")), ⟨t, ""⟩) :=
    bind_run_error (read_run (by rw [Branches.current, hread]; rfl))
  have hrun := rm_run_error hstaging hhead
  exact ⟨t, ⟨t, ""⟩, housed.free, hrun, Request.unchanged_of_user housed.free hrun⟩

namespace Request

/-- **Where a request fails because an object cannot be loaded, nothing has changed.** -/
theorem unchanged_of_damaged {settings : Settings} {guarded : Bool} {request : Request}
    {damage : Damage} {w' : World} (free : t.LinkFree settings.root) {printed : String}
    (hrun : request.perform settings guarded ⟨t, printed⟩ = (.error (.damaged damage), w')) :
    w' = ⟨t, printed⟩ := by
  have early : (Fault.damaged damage).IsEarly := trivial
  exact (perform_careful settings guarded request ⟨t, printed⟩).unchanged free early hrun

end Request

/-- Where the file of the current commit cannot be unpacked, removing a file fails. -/
theorem Apart.unchanged_without_commit : ∃ t w', t.LinkFree settings.root ∧
    (Request.rm "file").perform settings false ⟨t, ""⟩ = (.error (.damaged .undecodable), w') ∧
    w' = ⟨t, ""⟩ := by
  obtain ⟨t₀, run, nothing, -, -, hcurrent, -⟩ := exists_begun
  have h := run.intact
  obtain ⟨head, stored, htip, -⟩ := h.load_of_current hcurrent
  obtain ⟨t, touch, housed, hat⟩ := exists_overwritten h.housed Area.holds_object
    stored.stored (.plain [])
  have hstaging := Staging.load_of_shows housed
    (h.index.of_touches touch (by simp)) (nothing.of_touches touch (by simp))
  have hcurrent' : Branches.current [] t = .ok ⟨BranchName.master, left.made.id⟩ := by
    rw [Branches.current_congr h.housed housed touch (by simp) (by simp), hcurrent]
  have hcontents : t.contents? (Layout.object [] .commit head.id) = some (.plain []) :=
    (housed.clear.straight_object .commit head.id).contents?_eq_some_iff.mpr
      (by rw [path_object]; exact hat)
  have hload : Commits.load [] t left.made.id = .error .undecodable := by
    rw [show left.made.id = head.id from htip]
    simp only [Commits.load, Commits.get?, Store.encoding?, hcontents]
    rfl
  have hhead : Command.headCommit [] ⟨t, ""⟩ = (.error (.damaged .undecodable), ⟨t, ""⟩) := by
    rw [Command.headCommit, bind_run_ok (read_run hcurrent')]
    exact Command.undamaged_run_error hload
  have hrun := rm_run_error hstaging hhead
  exact ⟨t, ⟨t, ""⟩, housed.free, hrun, Request.unchanged_of_damaged housed.free hrun⟩

end LocalVcs
