/-
# Zones of written dates

A date that is written out names its zone by hours and minutes, so the moment that it is read as is
told in a zone of whole minutes, and can be written down and read again.

* `readDate?_tellable`: the zone of a moment that a text names.
-/
import LocalVcs.Time.Written

namespace LocalVcs.Time

/-! ## 1. What a reader reads -/

namespace Reader

variable {α β : Type} {P : α → Prop} {Q : β → Prop}

/-- All that a reader reads is so. -/
def Reads (r : Reader α) (P : α → Prop) : Prop := ∀ cs a rest, r cs = some (a, rest) → P a

theorem bind_eq_some {r : Reader α} {f : α → Reader β} {cs rest : List Char} {b : β}
    (h : (r >>= f) cs = some (b, rest)) :
    ∃ a middle, r cs = some (a, middle) ∧ f a middle = some (b, rest) := by
  obtain ⟨⟨a, middle⟩, hr, hf⟩ := Option.bind_eq_some_iff.mp h
  exact ⟨a, middle, hr, hf⟩

theorem reads_bind {r : Reader α} {f : α → Reader β} (h : ∀ a, Reads (f a) Q) :
    Reads (r >>= f) Q := by
  intro cs b rest hrun
  obtain ⟨a, middle, -, hf⟩ := bind_eq_some hrun
  exact h a middle b rest hf

theorem reads_bind_of {r : Reader α} {f : α → Reader β} (hr : Reads r P)
    (h : ∀ a, P a → Reads (f a) Q) : Reads (r >>= f) Q := by
  intro cs b rest hrun
  obtain ⟨a, middle, ha, hf⟩ := bind_eq_some hrun
  exact h a (hr cs a middle ha) middle b rest hf

theorem reads_pure {a : α} (h : P a) : Reads (pure a) P := by
  intro cs b rest hrun
  obtain ⟨rfl, -⟩ := Prod.mk.inj (Option.some.inj hrun)
  exact h

theorem reads_failure : Reads (failure : Reader α) P := by
  intro cs a rest hrun
  cases hrun

theorem reads_ite {c : Prop} [Decidable c] {r r' : Reader α} (h : Reads r P) (h' : Reads r' P) :
    Reads (if c then r else r') P := by
  split
  · exact h
  · exact h'

theorem of_whole {r : Reader α} (h : Reads r P) {cs : List Char} {a : α}
    (hrun : r.whole cs = some a) : P a := by
  unfold whole at hrun
  split at hrun
  · rename_i b hb
    obtain rfl := Option.some.inj hrun
    exact h cs b [] hb
  · cases hrun

end Reader

open Reader

/-! ## 2. Zones -/

/-- Whether a zone is a whole number of minutes from UTC. -/
def Whole (offset : Int) : Prop := offset % 60 = 0

theorem reads_zone (minus : List Char) (between : Reader Unit) :
    Reads (zone minus between) Whole := by
  refine reads_bind fun west => reads_bind fun hours => reads_bind fun _ =>
    reads_bind fun minutes => ?_
  refine reads_ite (reads_pure ?_) reads_failure
  unfold Whole
  split <;> omega

theorem reads_mailZone : Reads mailZone Whole := by
  intro cs offset rest h
  simp only [mailZone] at h
  split at h
  · exact reads_zone _ _ cs offset rest h
  · obtain ⟨hours, -, heq⟩ := Option.map_eq_some_iff.mp h
    obtain ⟨rfl, -⟩ := Prod.mk.inj heq
    unfold Whole
    omega

theorem reads_numericForm : Reads numericForm fun w => Whole w.offset := by
  -- the zone is read last, behind twelve readers of the rest
  refine reads_bind fun _ => reads_bind fun year => reads_bind fun _ => reads_bind fun month => ?_
  refine reads_bind fun _ => reads_bind fun day => reads_bind fun hour => reads_bind fun _ => ?_
  refine reads_bind fun minute => reads_bind fun _ => reads_bind fun second =>
    reads_bind fun _ => ?_
  exact reads_bind_of (reads_zone _ _) fun offset whole => reads_pure whole

theorem reads_mailForm : Reads mailForm fun w => Whole w.offset := by
  dsimp only [mailForm]
  refine reads_bind fun _ => reads_bind fun weekday => ?_
  -- with a comma behind the weekday or without one, the rest is read in the same way
  refine reads_ite (reads_bind fun _ => ?_) ?_
  all_goals
    refine reads_bind fun _ => reads_bind fun day => reads_bind fun _ => reads_bind fun month => ?_
    refine reads_bind fun _ => reads_bind fun year => reads_bind fun _ => reads_bind fun hour => ?_
    refine reads_bind fun _ => reads_bind fun _ => reads_bind fun _ => reads_bind fun minute => ?_
    -- so it is with the seconds
    refine reads_bind fun colon => reads_ite (reads_bind fun second => ?_) (reads_bind fun _ => ?_)
    all_goals
      refine reads_bind fun _ => reads_bind_of reads_mailZone fun offset whole => ?_
      exact reads_bind fun _ => reads_pure whole

theorem Written.moment?_offset {w : Written} {m : Moment} (h : w.moment? = some m) :
    m.offset = w.offset := by
  simp only [Written.moment?] at h
  split at h
  · exact Moment.offset_of? h
  · cases h

/-- **A written date is told in a zone of whole minutes**, which can be read again. -/
theorem readDate?_tellable {text : String} {m : Moment} (h : readDate? text = some m) :
    m.Tellable := by
  refine Moment.tellable_of_minutes ?_
  have form : ∀ {r : Reader Written}, Reads r (fun w => Whole w.offset) →
      (r.whole text.toList).bind Written.moment? = some m → m.offset % 60 = 0 := by
    intro r hr hrun
    obtain ⟨w, hw, hm⟩ := Option.bind_eq_some_iff.mp hrun
    rw [Written.moment?_offset hm]
    exact of_whole hr hw
  unfold readDate? at h
  cases hnumeric : (numericForm.whole text.toList).bind Written.moment? with
  | some found =>
    rw [hnumeric] at h
    exact form reads_numericForm (hnumeric.trans h)
  | none =>
    rw [hnumeric] at h
    exact form reads_mailForm h

end LocalVcs.Time
