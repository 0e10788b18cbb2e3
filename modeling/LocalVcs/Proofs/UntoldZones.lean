/-
# Zones that cannot be told

Where a commit is written down, its zone is rounded to whole minutes, with the sign of the exact
zone.  Half a minute from a day is rounded to a day, which is no zone; and a zone less than half a
minute to the west is written as `-0000`, which is read as UTC and would have been written with the
other sign.  A commit that is made where the clock is set to such a zone goes through, and can never
be loaded again.

* `Commit.ofBody?_body_of_west`: what is read in place of a commit from just west of UTC.
* `Commits.get?_of_untellable`: the stored commit is taken for damaged.
* `Command.commit_untold`: committing goes through all the same.
-/
import LocalVcs.Proofs.Commands.Recording
import LocalVcs.Command.Checkout

namespace LocalVcs

open FileTree Layout Text

/-! ## 1. What is read -/

namespace Time

/-- A zone that cannot be told is too far from UTC, or just west of it. -/
theorem Moment.far_or_west {m : Moment} (untold : ¬m.Tellable) :
    86370 ≤ m.offset.natAbs ∨ (-30 < m.offset ∧ m.offset < 0) := by
  unfold Tellable at untold
  omega

/-- Just west of UTC, what is written is read as UTC. -/
theorem readOffset_offsetText_of_west {offset : Int} (near : -30 < offset) (west : offset < 0) :
    readOffset (offsetText offset) = .ok 0 := by
  rw [readOffset_offsetText (by omega) (by omega), roundedOffset, if_pos west]
  congr 1
  omega

/-- The sign tells it from UTC. -/
theorem offsetText_ne_of_west {offset : Int} (west : offset < 0) :
    offsetText offset ≠ offsetText 0 := by
  simp [offsetText, west]

end Time

namespace Commit

variable {c : Commit}

/-- A commit as it would have been made in UTC. -/
def utc (c : Commit) : Commit := { c with moment := c.moment.utc }

/-- A commit from just west of UTC is read as the one from UTC. -/
theorem ofBody?_body_of_west
    (names : ∀ name ∈ c.manifest, '\n' ∉ name.toList ∧ '\r' ∉ name.toList)
    (near : -30 < c.moment.offset) (west : c.moment.offset < 0) :
    ofBody? (Bytes.ofText c.body) = .ok c.utc := by
  have offset := Time.readOffset_offsetText_of_west near west
  have made : Time.Moment.ofParts? c.moment.seconds 0 = some c.moment.utc :=
    Time.Moment.ofParts?_of_whole (m := c.moment.utc) ⟨rfl, rfl⟩
  rw [ofBody?, Bytes.text?_ofText]
  dsimp only
  rw [ofText?_body names]
  simp only [readMoment, cutAt_seconds, Option.elim_some, bind, Except.bind, readInt64?_seconds,
    offset, made]
  rfl

/-- The text of a commit tells its lines. -/
theorem headerLines_eq_of_body_eq {c' : Commit} (h : ∀ l ∈ c.headerLines, Line l)
    (h' : ∀ l ∈ c'.headerLines, Line l) (heq : c.body = c'.body) :
    c.headerLines = c'.headerLines := by
  have some_ : c.headerLines ≠ [] := List.cons_ne_nil _ _
  have some_' : c'.headerLines ≠ [] := List.cons_ne_nil _ _
  have cut := cutAt_lines some_ h c.message.toList
  have cut' := cutAt_lines some_' h' c'.message.toList
  have texts := String.ofList_injective heq
  rw [← texts, cut, Option.some.injEq, Prod.mk.injEq] at cut'
  have read := congrArg Text.lines cut'.1
  rwa [lines_intercalate some_ h, lines_intercalate some_' h'] at read

/-- It has another encoding. -/
theorem encoding_utc_ne (names : ∀ name ∈ c.manifest, '\n' ∉ name.toList ∧ '\r' ∉ name.toList)
    (west : c.moment.offset < 0) : c.utc.encoding ≠ c.encoding := by
  intro heq
  have bodies : c.utc.body = c.body := by
    have := congrArg Kind.readHeader heq
    rw [encoding, encoding, Kind.readHeader_frame, Kind.readHeader_frame] at this
    exact Bytes.ofText_injective (Prod.mk.inj this).2
  have lines := headerLines_eq_of_body_eq (line_of_mem_headerLines (c := c.utc) names)
    (line_of_mem_headerLines names) bodies
  have moments : momentLine c.moment.utc = momentLine c.moment := (List.cons.inj lines).1
  have offsets := List.append_cancel_left moments
  exact Time.offsetText_ne_of_west west (List.cons.inj offsets).2.symm

end Commit

/-! ## 2. What is stored -/

variable {root : Path} {t t' : FileTree} {c : Commit}

/-- **A commit whose zone cannot be told is taken for damaged**, unless the one that is read in its
place has the same digest. -/
theorem Commits.get?_of_untellable (clear : Clear root t)
    (names : ∀ name ∈ c.manifest, '\n' ∉ name.toList ∧ '\r' ∉ name.toList)
    (untold : ¬c.moment.Tellable)
    (free : c.utc.id = c.id → c.utc.encoding = c.encoding)
    (stored : Stored root t .commit c.id c.encoding) :
    ∃ damage, Commits.get? root t c.id = .error damage := by
  have hencoding := (encoding?_eq_some_iff clear).mpr stored
  have reads : Commits.get? root t c.id = (do
      let read ← Commit.ofBody? (Bytes.ofText c.body)
      if read.id = c.id then return some read else throw (.mismatch c.id read.id)) := by
    simp only [Commits.get?, hencoding, bind, Except.bind, Commit.encoding, Kind.readHeader_frame]
  rcases Time.Moment.far_or_west untold with far | ⟨near, west⟩
  · rw [reads, Commit.ofBody?_body_of_far names far]
    exact ⟨_, rfl⟩
  · have other : c.utc.id ≠ c.id := fun same => Commit.encoding_utc_ne names west (free same)
    rw [reads, Commit.ofBody?_body_of_west names near west]
    exact ⟨_, if_neg other⟩

namespace Command

open LocalVcs.Action

/-- No file is taken out of a commit that is damaged. -/
theorem checkoutFileAt_of_damaged {id : ObjectId} {damage : Damage}
    (damaged : Commits.get? root t id = .error damage) (file printed : String) :
    checkoutFileAt root id.text file ⟨t, printed⟩ = (.error (.damaged damage), ⟨t, printed⟩) := by
  have found : Commits.find? root t id.text = .error damage := by
    simp only [Commits.find?, ObjectId.ofText?_text, damaged, bind, Except.bind]
  refine bind_run_error (bind_run_error (read_run ?_))
  exact congrArg (Except.mapError Fault.damaged) found

/-- **A commit goes through whatever the zone**, and where its id is new it is stored as it is
written. -/
theorem commit_untold (h : Intact root t) {staging : Staging}
    (hstaging : Staging.load root t = .ok staging) (some_ : staging.isEmpty = false) {b : Branch}
    (hcurrent : Branches.current root t = .ok b) {parent : Commit}
    (hparent : Commits.load root t b.tip = .ok parent) {message : String} (titled : message ≠ "")
    {date : Time.Moment} {r : Recording} (hr : r = ⟨message, date, parent, staging, none⟩)
    (new : ∀ encoding, ¬Stored root t .commit r.made.id encoding) (printed : String) :
    ∃ t', commit root date message ⟨t, printed⟩ = (.ok (), ⟨t', printed⟩) ∧
      Clear root t' ∧ Stored root t' .commit r.made.id r.made.encoding := by
  obtain ⟨-, shows_⟩ := Staging.load_spec h.housed h.index hstaging
  obtain ⟨t₁, t₂, t', hrun, steps⟩ := storing_run h (fun _ => shows_) hcurrent r.made printed
  refine ⟨t', ?_, (h.housed.of_touches steps.touches).clear, ?_⟩
  · have written := storing_written root r b.name
    subst hr
    rw [commit, bind_run_ok (read_run hstaging), record_accepted titled (by simp [some_]),
      bind_run_ok (read_run hcurrent), bind_run_ok (loadCommit_run hparent), written, hrun]
  · have absent : t₁.at? (objectPath root .commit r.made.id) = none := by
      rw [steps.first.at?_eq Area.holds_object (by simp)]
      by_contra some_
      obtain ⟨e, hat⟩ := Option.ne_none_iff_exists'.mp some_
      obtain ⟨c, -, rfl, -⟩ := h.stores.commits _ _ _ hat
      exact new _ hat
    rw [Stored, steps.last.at?_eq Area.holds_object (by simp), steps.saved.object, absent]
    rfl

end Command

end LocalVcs
