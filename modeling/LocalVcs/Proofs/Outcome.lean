/-
# What actions lead to

An action ends in a result and a world, whether it succeeds or not.  `Action.Leads` says that these
two are as they should be; the rules here take an action apart into its steps, so that each step is
proved about once and used by what it leads to.
-/
import LocalVcs.Action
import Mathlib.Data.List.Forall2

namespace LocalVcs

namespace Action

/-- From a world an action leads to a result and a world of which `Q` holds. -/
def Leads (a : Action α) (w : World) (Q : Except Fault α → World → Prop) : Prop :=
  Q (a w).1 (a w).2

variable {α β : Type} {a : Action α} {f : α → Action β} {w w' : World}

/-! ## 1. Running step by step -/

theorem bind_run (a : Action α) (f : α → Action β) (w : World) :
    (a >>= f) w =
      match a w with
      | (.ok x, w') => f x w'
      | (.error fault, w') => (.error fault, w') := by
  show ExceptT.bindCont f (a w).1 (a w).2 = _
  rcases a w with ⟨_ | x, w'⟩ <;> rfl

theorem bind_run_ok {x : α} (h : a w = (.ok x, w')) : (a >>= f) w = f x w' := by
  rw [bind_run, h]

theorem bind_run_error {fault : Fault} (h : a w = (.error fault, w')) :
    (a >>= f) w = (.error fault, w') := by
  rw [bind_run, h]

theorem discard_run (a : Action α) (w : World) :
    (discard a) w = ((a w).1.map fun _ => (), (a w).2) := by
  show (a >>= fun _ => (pure () : Action Unit)) w = _
  rw [bind_run]
  rcases a w with ⟨_ | x, w'⟩ <;> rfl

theorem orFault_run_ok {fault : Fault} {x : α} (h : a w = (.ok x, w')) :
    orFault fault a w = (.ok x, w') := by
  rw [orFault, h]

theorem of_orFault_ok {fault : Fault} {x : α} (h : orFault fault a w = (.ok x, w')) :
    a w = (.ok x, w') := by
  rw [orFault] at h
  rcases hrun : a w with ⟨fault | y, w''⟩
  · rw [hrun] at h; cases fault <;> cases h
  · rw [hrun] at h; exact h

/-- Where a sequence succeeds, both of its parts do. -/
theorem of_bind_ok {y : β} (h : (a >>= f) w = (.ok y, w')) :
    ∃ x w'', a w = (.ok x, w'') ∧ f x w'' = (.ok y, w') := by
  rw [bind_run] at h
  rcases hrun : a w with ⟨_ | x, w''⟩
  · rw [hrun] at h; cases h
  · rw [hrun] at h; exact ⟨x, w'', rfl, h⟩

section Edits

variable {t t' : FileTree} {printed : String}

theorem read_run {view : FileTree → Except Fault α} {r : Except Fault α} (h : view t = r) :
    read view ⟨t, printed⟩ = (r, ⟨t, printed⟩) := by
  simp only [read, h]

theorem edit_run_some {fault : Fault} {request : FileTree → Option FileTree}
    (h : request t = some t') : edit fault request ⟨t, printed⟩ = (.ok (), ⟨t', printed⟩) := by
  simp only [edit, h]

theorem edit_run_none {fault : Fault} {request : FileTree → Option FileTree}
    (h : request t = none) : edit fault request ⟨t, printed⟩ = (.error fault, ⟨t, printed⟩) := by
  simp only [edit, h]

theorem of_edit_ok {fault : Fault} {request : FileTree → Option FileTree} {w' : World}
    (h : edit fault request ⟨t, printed⟩ = (.ok (), w')) : request t = some w'.tree := by
  cases hrequest : request t with
  | none =>
    rw [edit_run_none hrequest] at h
    cases h
  | some t' =>
    rw [edit_run_some hrequest] at h
    rw [← (Prod.mk.inj h).2]

theorem makeDirs_run_ok {fault : Fault} {r : Route} (h : t.makeDirs r = (true, t')) :
    makeDirs fault r ⟨t, printed⟩ = (.ok (), ⟨t', printed⟩) := by
  simp only [makeDirs, h, if_true]

theorem of_makeDirs_ok {fault : Fault} {r : Route} {w' : World}
    (h : makeDirs fault r ⟨t, printed⟩ = (.ok (), w')) : t.makeDirs r = (true, w'.tree) := by
  rcases hmade : t.makeDirs r with ⟨_ | _, t'⟩
  · simp only [makeDirs, hmade, Bool.false_eq_true, if_false] at h
    cases h
  · simp only [makeDirs, hmade, if_true] at h
    rw [← (Prod.mk.inj h).2]

theorem makeDirs_run_error {fault : Fault} {r : Route} (h : t.makeDirs r = (false, t')) :
    makeDirs fault r ⟨t, printed⟩ = (.error fault, ⟨t', printed⟩) := by
  simp only [makeDirs, h, Bool.false_eq_true, if_false]

end Edits

/-- Two readings one after the other are one reading. -/
theorem read_bind_eq {γ : Type} {view : FileTree → Except Fault α} {f : α → Action γ}
    {next : α → FileTree → Except Fault β} {last : β → Action γ}
    (h : ∀ x, f x = read (next x) >>= last) :
    (read view >>= f) = read (fun t => view t >>= fun x => next x t) >>= last := by
  funext w
  rw [bind_run, bind_run, read, read]
  cases hview : view w.tree with
  | error fault => rfl
  | ok x =>
    dsimp only
    rw [h, bind_run]
    rfl

/-! ## 2. What steps lead to -/

section Rules

variable {P : Except Fault α → World → Prop} {Q : Except Fault β → World → Prop}

theorem Leads.of_run {r : Except Fault β} {b : Action β} (h : b w = (r, w')) (hQ : Q r w') :
    b.Leads w Q := by
  rw [Leads, h]; exact hQ

theorem Leads.mono {b : Action β} {Q' : Except Fault β → World → Prop} (h : b.Leads w Q')
    (hQ : ∀ r w', Q' r w' → Q r w') : b.Leads w Q := hQ _ _ h

theorem Leads.and {b : Action β} {Q' : Except Fault β → World → Prop} (h : b.Leads w Q)
    (h' : b.Leads w Q') : b.Leads w fun r w' => Q r w' ∧ Q' r w' := ⟨h, h'⟩

theorem Leads.bind (h : a.Leads w P) (ok : ∀ x w', P (.ok x) w' → (f x).Leads w' Q)
    (error : ∀ fault w', P (.error fault) w' → Q (.error fault) w') : (a >>= f).Leads w Q := by
  rw [Leads, bind_run]
  rw [Leads] at h
  rcases hrun : a w with ⟨fault | x, w'⟩
  · rw [hrun] at h; exact error fault w' h
  · rw [hrun] at h; exact ok x w' h

theorem leads_bind_of_run {x : α} (h : a w = (.ok x, w')) (ok : (f x).Leads w' Q) :
    (a >>= f).Leads w Q := by
  rw [Leads, bind_run_ok h]; exact ok

theorem leads_discard {a : Action α} {Q : Except Fault Unit → World → Prop}
    (h : a.Leads w fun r w' => Q (r.map fun _ => ()) w') : (discard a).Leads w Q := by
  rw [Leads, discard_run]; exact h

theorem leads_pure {x : β} (h : Q (.ok x) w) : (pure x : Action β).Leads w Q := h

theorem leads_fail {error : UserError} (h : Q (.error (.user error)) w) :
    (fail error : Action β).Leads w Q := h

theorem leads_print {text : String} {Q : Except Fault Unit → World → Prop}
    (h : Q (.ok ()) { w with printed := w.printed ++ text }) : (print text).Leads w Q := h

theorem leads_read_bind {view : FileTree → Except Fault α}
    (ok : ∀ x, view w.tree = .ok x → (f x).Leads w Q)
    (error : ∀ fault, view w.tree = .error fault → Q (.error fault) w) :
    (read view >>= f).Leads w Q := by
  obtain ⟨t, printed⟩ := w
  rcases h : view t with fault | x
  · rw [Leads, bind_run_error (read_run h)]
    exact error fault h
  · exact leads_bind_of_run (read_run h) (ok x h)

theorem leads_read_bind_ok {t : FileTree} {printed : String} {view : FileTree → Except Fault α}
    {x : α} (h : view t = .ok x) (ok : (f x).Leads ⟨t, printed⟩ Q) :
    (read view >>= f).Leads ⟨t, printed⟩ Q :=
  leads_bind_of_run (read_run h) ok

theorem leads_fail_bind {error : UserError} (h : Q (.error (.user error)) w) :
    ((fail error : Action α) >>= f).Leads w Q := h

theorem leads_ofExcept_bind {result : Except Fault α} (ok : ∀ x, result = .ok x → (f x).Leads w Q)
    (error : ∀ fault, result = .error fault → Q (.error fault) w) :
    (ofExcept result >>= f).Leads w Q :=
  @leads_read_bind _ _ f w Q (fun _ => result) ok error

end Rules

end Action

/-! ## 3. Results of many steps -/

section Many

variable {ε α β : Type} {f : α → Except ε β}

theorem forall₂_of_mapM : ∀ {l : List α} {ys : List β}, l.mapM f = .ok ys →
    List.Forall₂ (fun x y => f x = .ok y) l ys
  | [], ys, h => by
    obtain rfl : [] = ys := Except.ok.inj h
    exact List.Forall₂.nil
  | x :: l, ys, h => by
    rw [List.mapM_cons] at h
    cases hx : f x with
    | error e => rw [hx] at h; cases h
    | ok y =>
      cases hl : l.mapM f with
      | error e => rw [hx, hl] at h; cases h
      | ok rest =>
        rw [hx, hl] at h
        obtain rfl : y :: rest = ys := Except.ok.inj h
        exact List.Forall₂.cons hx (forall₂_of_mapM hl)

theorem exists_of_mem_forall₂ {R : α → β → Prop} {l : List α} {ys : List β}
    (h : List.Forall₂ R l ys) {y : β} (hy : y ∈ ys) : ∃ x ∈ l, R x y := by
  induction h with
  | nil => cases hy
  | cons hx _ ih =>
    rcases List.mem_cons.mp hy with rfl | hy
    · exact ⟨_, List.mem_cons_self, hx⟩
    · obtain ⟨x, hmem, hxy⟩ := ih hy
      exact ⟨x, List.mem_cons_of_mem _ hmem, hxy⟩

/-- Every result is that of one of the steps. -/
theorem exists_of_mem_mapM {l : List α} {ys : List β} (h : l.mapM f = .ok ys) {y : β}
    (hy : y ∈ ys) : ∃ x ∈ l, f x = .ok y :=
  exists_of_mem_forall₂ (forall₂_of_mapM h) hy

/-- Every step has a result. -/
theorem exists_mem_of_mapM {l : List α} {ys : List β} (h : l.mapM f = .ok ys) {x : α}
    (hx : x ∈ l) : ∃ y ∈ ys, f x = .ok y :=
  exists_of_mem_forall₂ (forall₂_of_mapM h).flip hx

theorem mapM_succeeds : ∀ {l : List α}, (∀ x ∈ l, ∃ y, f x = .ok y) → ∃ ys, l.mapM f = .ok ys
  | [], _ => ⟨[], rfl⟩
  | x :: l, h => by
    obtain ⟨y, hy⟩ := h x List.mem_cons_self
    obtain ⟨ys, hys⟩ := mapM_succeeds fun z hz => h z (List.mem_cons_of_mem x hz)
    exact ⟨y :: ys, by rw [List.mapM_cons, hy, hys]; rfl⟩

/-- Steps succeed one after the other, or one of them fails, and all of them fail as it does. -/
theorem mapM_cases : ∀ l : List α, ((∀ x ∈ l, ∃ y, f x = .ok y) ∧ ∃ ys, l.mapM f = .ok ys) ∨
    ∃ x ∈ l, ∃ e, f x = .error e ∧ l.mapM f = .error e
  | [] => Or.inl ⟨by simp, [], rfl⟩
  | x :: l => by
    cases hx : f x with
    | error e => exact Or.inr ⟨x, List.mem_cons_self, e, hx, by rw [List.mapM_cons, hx]; rfl⟩
    | ok y =>
      rcases mapM_cases l with ⟨each, ys, hys⟩ | ⟨z, hz, e, fails, hl⟩
      · exact Or.inl ⟨List.forall_mem_cons.mpr ⟨⟨y, hx⟩, each⟩, y :: ys, by
          rw [List.mapM_cons, hx, hys]; rfl⟩
      · exact Or.inr ⟨z, List.mem_cons_of_mem x hz, e, fails, by rw [List.mapM_cons, hx, hl]; rfl⟩

/-- Steps that have the same results one by one have the same results together. -/
theorem mapM_congr {g : α → Except ε β} : ∀ {l : List α}, (∀ x ∈ l, f x = g x) →
    l.mapM f = l.mapM g
  | [], _ => rfl
  | x :: l, h => by
    rw [List.mapM_cons, List.mapM_cons, h x List.mem_cons_self,
      mapM_congr fun y hy => h y (List.mem_cons_of_mem x hy)]

end Many

end LocalVcs
