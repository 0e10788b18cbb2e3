/-
# Recording a commit

The contents that are staged are stored first, then the commit, then the branch is moved, and at
last the staging area is cleared.  None of these steps can fail in an intact repository, so a commit
is recorded as a whole or not at all.

* `Recording`: what a commit is made from.
* `Recorded`: what has come about once it is recorded.
* `Command.storing_run`: what is left to do for a commit, once all has been read, succeeds;
  `Command.StoringSteps.recorded`: what has come about then.
* `Command.leads_record`: the rule for recording, in any repository.
* `Command.record_run`: recording succeeds; `Command.record_leads`: it does nothing else.
-/
import LocalVcs.Command.Record
import LocalVcs.Proofs.Commands.Reading

namespace LocalVcs

open FileTree Layout

variable {root : Path} {t t' : FileTree}

/-! ## 1. What is recorded -/

/-- What a commit is made from: the commit before it, what is staged, and the tip that a merge
brings in. -/
structure Recording where
  message : String
  date : Time.Moment
  parent : Commit
  staged : Staging
  merged : Option ObjectId

namespace Recording

/-- The commit that is written down. -/
def written (r : Recording) : Commit :=
  ⟨r.message, r.date, r.parent.id :: r.merged.toList, r.staged.nextManifest r.parent.manifest⟩

/-- The commit that is made: what is kept of the one that is written down. -/
def made (r : Recording) : Commit :=
  ⟨r.message, r.date.told, r.parent.id :: r.merged.toList, r.staged.nextManifest r.parent.manifest⟩

theorem told_written (r : Recording) : r.written.told = r.made := rfl

/-- The objects that are stored for it. -/
inductive Brings (r : Recording) : Object → Prop
  | blob {name : String} {content : Bytes} :
      r.staged.additions[name]? = some content → Brings r (.blob content)
  | commit : Brings r (.commit r.made)

/-- All names that are staged can be tracked, the zone of the date can be told, and the commits
before this one are stored with all that comes before them. -/
structure Fits (root : Path) (t : FileTree) (r : Recording) : Prop where
  parent : CommitStored root t r.parent
  merged : ∀ id ∈ r.merged, Rooted root t id
  names : ∀ name ∈ r.staged.additions, Trackable root name
  tellable : r.date.Tellable
  current : r.staged.changed = false → Shows root t r.staged

theorem brings_iff {r : Recording} {o : Object} : r.Brings o ↔
    (∃ entry ∈ r.staged.additions.toList, o = .blob entry.2) ∨ o = .commit r.made := by
  constructor
  · rintro (hadded | -)
    · exact Or.inl ⟨_, Std.ExtTreeMap.mem_toList_iff_getElem?_eq_some.mpr hadded, rfl⟩
    · exact Or.inr rfl
  · rintro (⟨⟨name, content⟩, hmem, rfl⟩ | rfl)
    · exact .blob (Std.ExtTreeMap.mem_toList_iff_getElem?_eq_some.mp hmem)
    · exact .commit

/-- The parents of the new commit are stored with all that comes before them. -/
theorem Fits.rooted {r : Recording} (fits : r.Fits root t) (h : Intact root t) :
    ∀ p ∈ r.made.parents, Rooted root t p := by
  intro p hp
  rcases List.mem_cons.mp hp with rfl | hp
  · exact (h.stores.sound fits.parent).2
  · exact fits.merged p (by simpa using hp)

/-- A name in the new snapshot is staged with its contents, or is held by the commit before. -/
theorem of_made {r : Recording} {name : String} {blob : ObjectId}
    (h : r.made.manifest[name]? = some blob) :
    (∃ content, r.staged.additions[name]? = some content ∧ Object.blobId content = blob) ∨
      (r.staged.additions[name]? = none ∧ r.parent.manifest[name]? = some blob) := by
  have held : (r.staged.nextManifest r.parent.manifest)[name]? = some blob := h
  rw [Staging.getElem?_nextManifest] at held
  split at held
  · cases held
  · cases hadded : r.staged.additions[name]? with
    | none => exact Or.inr ⟨rfl, by simpa [hadded] using held⟩
    | some content => exact Or.inl ⟨content, rfl, by simpa [hadded] using held⟩

end Recording

/-- From `t` to `t'` a commit has been recorded on the branch `b`: its objects are stored, that
branch alone stands for another commit now, and nothing is staged. -/
structure Recorded (root : Path) (b : Branch) (r : Recording) (t t' : FileTree) : Prop where
  intact : Intact root t'
  readable : r.made.Readable
  objects : Added root r.Brings t t'
  touch : Touches root
    [.store .blob, .store .commit, .branches, .index .addition, .index .removal] t t'
  moved : Moved root b.name r.made.id t t'
  index : Shows root t' Staging.empty

namespace Recorded

variable {b : Branch} {r : Recording}

theorem headStands (h : Recorded root b r t t') (stands : HeadStands root t) : HeadStands root t' :=
  stands.of_stay (h.touch.at?_eq Area.holds_head (by simp)) h.moved.filesStay

/-- The current branch stands for the new commit. -/
theorem current (h : Recorded root b r t t') (intact : Intact root t)
    (hcurrent : Branches.current root t = .ok b) :
    Branches.current root t' = .ok ⟨b.name, r.made.id⟩ :=
  h.moved.current intact h.intact (h.touch.at?_eq Area.holds_head (by simp)) hcurrent

/-- A commit that is stored then is the new one or was stored before. -/
theorem commitStored_cases (h : Recorded root b r t t') {c : Commit}
    (stored : CommitStored root t' c) : c = r.made ∨ CommitStored root t c := by
  rcases h.objects.of_stored stored.stored with hold | ⟨o, hbrings, hkind, -, henc⟩
  · exact Or.inr ⟨stored.readable, hold⟩
  · cases hbrings with
    | blob _ => cases hkind
    | commit => exact Or.inl (stored.readable.eq_of_encoding_eq h.readable henc.symm)

/-- A commit is stored under the new id; it is the new one, unless another one lay there before. -/
theorem stored (h : Recorded root b r t t') :
    ∃ c, CommitStored root t' c ∧ c.id = r.made.id ∧ (c = r.made ∨ CommitStored root t c) := by
  obtain ⟨encoding, there⟩ := h.objects.there _ Recording.Brings.commit
  obtain ⟨c, stored, hid⟩ := h.intact.stores.exists_commitStored there
  exact ⟨c, stored, hid, h.commitStored_cases stored⟩

/-- What is recorded is stored, unless another commit with its id was stored before. -/
theorem commitStored_made (h : Recorded root b r t t') (intact : Intact root t)
    (alone : ∀ c, Commits.load root t r.made.id = .ok c → c = r.made) :
    CommitStored root t' r.made := by
  obtain ⟨c, stored, hid, rfl | before⟩ := h.stored
  · exact stored
  · exact alone c (intact.load_iff.mpr ⟨hid, before⟩) ▸ stored

end Recorded

/-! ## 2. Storing what is staged and the commit -/

namespace Command

open LocalVcs.Action

/-- The contents of staged files are stored. -/
theorem saveBlobs_run (housed : Housed root t) (stores : SoundStores root t)
    (entries : List (String × Bytes)) (printed : String) :
    ∃ t', saveBlobs root entries ⟨t, printed⟩ = (.ok (), ⟨t', printed⟩) ∧
      Touches root [.store .blob] t t' ∧ SoundStores root t' ∧
      Added root (fun o => ∃ entry ∈ entries, o = .blob entry.2) t t' := by
  induction entries generalizing t with
  | nil =>
    exact ⟨t, rfl, Touches.refl root t, stores,
      (Added.of_sameObjects (SameObjects.refl root t)).congr fun o => by simp⟩
  | cons entry rest ih =>
    obtain ⟨name, content⟩ := entry
    obtain ⟨t₁, hrun₁, saved⟩ := Store.save_run housed (stores.dirs .blob)
      (Object.blobId content) (Object.blobEncoding content) printed
    have added₁ : Added root (· = .blob content) t t₁ := Added.of_saved stores saved
    obtain ⟨t', hrun, touch, stores', added⟩ :=
      ih (housed.of_touches saved.touches) (stores.save_blob saved)
    refine ⟨t', ?_, saved.touches.trans touch, stores', (added₁.trans added).congr ?_⟩
    · have hblob : Blobs.save root content ⟨t, printed⟩ =
          (.ok (Object.blobId content), ⟨t₁, printed⟩) := bind_run_ok hrun₁
      have hdiscard : (discard (Blobs.save root content)) ⟨t, printed⟩ =
          (.ok (), ⟨t₁, printed⟩) := by
        rw [discard_run, hblob]; rfl
      exact (bind_run_ok hdiscard).trans hrun
    · intro o
      simp only [List.mem_cons, exists_eq_or_imp]

/-- All that the commit to be recorded tracks can be tracked. -/
theorem trackable_made (h : Intact root t) {r : Recording} (parent : CommitStored root t r.parent)
    (names : ∀ name ∈ r.staged.additions, Trackable root name) :
    ∀ name ∈ r.made.manifest, Trackable root name := by
  intro name hname
  obtain ⟨blob, hblob⟩ := NameMap.mem_iff_exists_getElem?.mp hname
  rcases Recording.of_made hblob with ⟨content, hadded, -⟩ | ⟨-, htracked⟩
  · exact names name (NameMap.mem_iff_exists_getElem?.mpr ⟨content, hadded⟩)
  · exact (h.stores.sound parent).1.names name
      (NameMap.mem_iff_exists_getElem?.mpr ⟨blob, htracked⟩)

/-- The commit to be recorded is sound once the staged contents are stored. -/
theorem sound_made (h : Intact root t) {r : Recording} (fits : r.Fits root t)
    (stores' : SoundStores root t') (added : Added root
      (fun o => ∃ entry ∈ r.staged.additions.toList, o = .blob entry.2) t t') :
    Sound root t' r.made := by
  have parent := (h.stores.sound fits.parent).1.mono added.grows
  refine ⟨trackable_made h fits.parent fits.names, ?_, fits.tellable.whole_told⟩
  intro name blob hblob
  rcases Recording.of_made hblob with ⟨content, hadded, rfl⟩ | ⟨-, htracked⟩
  · obtain ⟨encoding, stored⟩ := added.there (.blob content)
      ⟨(name, content), Std.ExtTreeMap.mem_toList_iff_getElem?_eq_some.mpr hadded, rfl⟩
    obtain ⟨content', hid, rfl⟩ := stores'.of_blob stored
    exact ⟨content', hid, stored⟩
  · exact parent.blobs name blob htracked

/-- What is done for a commit once all has been read: the staged contents and the commit are stored,
the branch is moved, and nothing is staged any more. -/
def storing (root : Path) (staging : Staging) (branch : BranchName) (c : Commit) : Action Unit := do
  saveBlobs root staging.additions.toList
  Commits.save root c
  Branches.save root ⟨branch, c.id⟩
  discard (staging.clear.save root)

variable (root) in
/-- A commit is stored as what is kept of it is. -/
theorem storing_written (r : Recording) (branch : BranchName) :
    storing root r.staged branch r.written = storing root r.staged branch r.made := by
  have encoding := Commit.encoding_told r.written
  have id := Commit.id_told r.written
  rw [Recording.told_written] at encoding id
  simp only [storing, Commits.save, encoding, id]

/-- The steps of storing, whatever the commit: from `t` to `t₁` the staged contents, from there to
`t₂` the commit, and then the branch and the staging area. -/
structure StoringSteps (root : Path) (staging : Staging) (branch : BranchName) (c : Commit)
    (t t₁ t₂ t' : FileTree) : Prop where
  blobs : Added root (fun o => ∃ entry ∈ staging.additions.toList, o = .blob entry.2) t t₁
  stores : SoundStores root t₁
  first : Touches root [.store .blob] t t₁
  saved : Saved root .commit c.id c.encoding t₁ t₂
  last : Touches root [.branches, .index .addition, .index .removal] t₂ t'
  moved : Moved root branch c.id t t'
  index : SoundIndex root t'
  empty : Shows root t' Staging.empty

/-- **Storing succeeds** in an intact repository, whatever the commit. -/
theorem storing_run (h : Intact root t) {staging : Staging}
    (current : staging.changed = false → Shows root t staging) {b : Branch}
    (hcurrent : Branches.current root t = .ok b) (c : Commit) (printed : String) :
    ∃ t₁ t₂ t', storing root staging b.name c ⟨t, printed⟩ = (.ok (), ⟨t', printed⟩) ∧
      StoringSteps root staging b.name c t t₁ t₂ t' := by
  obtain ⟨t₁, hrun₁, touch₁, stores₁, added₁⟩ :=
    saveBlobs_run h.housed h.stores staging.additions.toList printed
  have housed₁ := h.housed.of_touches touch₁
  -- the commit
  obtain ⟨t₂, hrun₂, saved⟩ :=
    Store.save_run housed₁ (stores₁.dirs .commit) c.id c.encoding printed
  have touch₂ := saved.touches
  have housed₂ := housed₁.of_touches touch₂
  -- the branch
  obtain ⟨tip, -, -, tell, hfile⟩ := h.of_current hcurrent
  have hfile₂ : t₂.at? (branchPath root b.name) =
      some (.file (.plain (Bytes.ofText tip.id.text))) := by
    rw [touch₂.at?_eq (Branches.holds_branchPath root b.name) (by simp),
      touch₁.at?_eq (Branches.holds_branchPath root b.name) (by simp), hfile]
  obtain ⟨t₃, hrun₃, touch₃, placed⟩ :=
    Branches.save_run housed₂ tell (canPlace_of_file hfile₂) c.id printed
  have housed₃ := housed₂.of_touches touch₃
  -- the staging area
  have index₃ : SoundIndex root t₃ := ((h.index.of_touches touch₁ (by simp)).of_touches touch₂
    (by simp)).of_touches touch₃ (by simp)
  have current₃ : staging.changed = false → Shows root t₃ staging := fun hc =>
    (((current hc).of_touches touch₁ (by simp)).of_touches touch₂ (by simp)).of_touches touch₃
      (by simp)
  obtain ⟨t₄, hrun₄, touch₄, index₄, shows₄⟩ :=
    Staging.clear_save_run housed₃ index₃ current₃ printed
  have moved : Moved root b.name c.id t t₄ := by
    intro p below
    rw [touch₄.at?_below_branches (by simp) below, placed,
      touch₂.at?_below_branches (by simp) below, touch₁.at?_below_branches (by simp) below]
  refine ⟨t₁, t₂, t₄, ?_, added₁, stores₁, touch₁, saved,
    (touch₃.mono (by simp)).trans (touch₄.mono (by simp)), moved, index₄, shows₄⟩
  have hsave : Commits.save root c ⟨t₁, printed⟩ = (.ok (), ⟨t₂, printed⟩) := hrun₂
  rw [storing, bind_run_ok hrun₁, bind_run_ok hsave, bind_run_ok hrun₃, discard_run, hrun₄]
  rfl

theorem StoringSteps.touches {staging : Staging} {branch : BranchName} {c : Commit}
    {t₁ t₂ : FileTree} (steps : StoringSteps root staging branch c t t₁ t₂ t') :
    Touches root [.store .blob, .store .commit, .branches, .index .addition, .index .removal]
      t t' :=
  ((steps.first.mono (by simp)).trans (steps.saved.touches.mono (by simp))).trans
    (steps.last.mono (by simp))

/-- **A commit is recorded** by these steps, where what is recorded fits. -/
theorem StoringSteps.recorded {r : Recording} {b : Branch} {t₁ t₂ : FileTree}
    (steps : StoringSteps root r.staged b.name r.made t t₁ t₂ t') (h : Intact root t)
    (fits : r.Fits root t) (hcurrent : Branches.current root t = .ok b) :
    Recorded root b r t t' := by
  have touch := steps.touches
  have sound := sound_made h fits steps.stores steps.blobs
  have parents : ∀ p ∈ r.made.parents, Rooted root t₁ p := fun p hp =>
    (fits.rooted h p hp).mono steps.blobs.grows
  have stores₂ := steps.stores.save_commit sound (Or.inr ⟨by simp [Recording.made], parents⟩)
    steps.saved
  have stores := stores₂.of_touches steps.last (by simp)
  have added₂ : Added root (· = .commit r.made) t₁ t₂ := Added.of_saved steps.stores steps.saved
  have objects : Added root r.Brings t t' := by
    have last := steps.last.sameObjects (by simp)
    refine ((steps.blobs.trans added₂).trans (.of_sameObjects last)).congr fun o => ?_
    rw [or_false, Recording.brings_iff]
  have refs : SoundRefs root t' := by
    obtain ⟨-, -, -, tell, -⟩ := h.of_current hcurrent
    obtain ⟨encoding, there⟩ := objects.there _ Recording.Brings.commit
    obtain ⟨c, stored, hid⟩ := stores.exists_commitStored there
    have moved : Moved root b.name c.id t t' := hid ▸ steps.moved
    exact moved.soundRefs h.refs objects.grows stored tell
  have head : t'.at? (headPath root) ≠ some .dir := by
    rw [touch.at?_eq Area.holds_head (by simp)]
    exact h.head
  exact ⟨⟨h.housed.of_touches touch, stores, steps.index, refs, head⟩, sound.readable, objects,
    touch, steps.moved, steps.empty⟩

/-- What fits is recorded. -/
theorem storing_written_run (h : Intact root t) {r : Recording} (fits : r.Fits root t) {b : Branch}
    (hcurrent : Branches.current root t = .ok b) (printed : String) :
    ∃ t', storing root r.staged b.name r.written ⟨t, printed⟩ = (.ok (), ⟨t', printed⟩) ∧
      Recorded root b r t t' := by
  rw [storing_written]
  obtain ⟨t₁, t₂, t', hrun, steps⟩ := storing_run h fits.current hcurrent r.made printed
  exact ⟨t', hrun, steps.recorded h fits hcurrent⟩

/-! ## 3. Recording -/

section

variable {date : Time.Moment} {staging : Staging} {message : String} {merged : Option ObjectId}

/-- Without a message, or with nothing to record, nothing is recorded. -/
theorem record_refused (root : Path) (date : Time.Moment)
    (refused : message = "" ∨ staging.isEmpty = true ∧ merged = none) :
    ∃ error, record root date staging message merged = fail error := by
  unfold record
  by_cases untitled : message = ""
  · rw [if_pos untitled]
    exact ⟨_, rfl⟩
  · rw [if_neg untitled, if_pos (refused.resolve_left untitled)]
    exact ⟨_, rfl⟩

/-- With a message, and with something to record, all that is read is the commit to record it
behind. -/
theorem record_accepted (titled : message ≠ "")
    (some_ : ¬(staging.isEmpty = true ∧ merged = none)) :
    record root date staging message merged = (Action.read (Branches.current root) >>= fun b =>
      loadCommit root b.tip >>= fun parent =>
        storing root staging b.name
          (Recording.written ⟨message, date, parent, staging, merged⟩)) := by
  unfold record
  rw [if_neg titled, if_neg some_]
  rfl

/-- **The rule for recording**: it is refused, or what it comes to is stored. -/
theorem leads_record {w : World} {Q : Except Fault Unit → World → Prop}
    (error : ∀ fault, Q (.error fault) w)
    (ok : ∀ b parent, message ≠ "" → ¬(staging.isEmpty = true ∧ merged = none) →
      Branches.current root w.tree = .ok b → Commits.load root w.tree b.tip = .ok parent →
      (storing root staging b.name
        (Recording.written ⟨message, date, parent, staging, merged⟩)).Leads w Q) :
    (record root date staging message merged).Leads w Q := by
  by_cases refused : message = "" ∨ staging.isEmpty = true ∧ merged = none
  · obtain ⟨reason, hrecord⟩ := record_refused root date refused
    rw [hrecord]
    exact leads_fail (error _)
  · obtain ⟨titled, some_⟩ := not_or.mp refused
    rw [record_accepted titled some_]
    refine leads_read_bind (fun b hb => ?_) fun fault _ => error fault
    exact leads_undamaged_bind (fun parent hparent => ok b parent titled some_ hb hparent) error

end

/-- **Recording succeeds** in an intact repository, once it has been begun. -/
theorem record_run (h : Intact root t) {r : Recording} (fits : r.Fits root t) {b : Branch}
    (hcurrent : Branches.current root t = .ok b)
    (hparent : Commits.load root t b.tip = .ok r.parent) (hmessage : r.message ≠ "")
    (some_ : ¬(r.staged.isEmpty = true ∧ r.merged = none)) (printed : String) :
    ∃ t', record root r.date r.staged r.message r.merged ⟨t, printed⟩ =
      (.ok (), ⟨t', printed⟩) ∧ Recorded root b r t t' := by
  obtain ⟨t', hrun, recorded⟩ := storing_written_run h fits hcurrent printed
  refine ⟨t', ?_, recorded⟩
  rw [record_accepted hmessage some_, bind_run_ok (read_run hcurrent),
    bind_run_ok (loadCommit_run hparent)]
  exact hrun

/-- **What recording leads to**: a commit is recorded as a whole, or nothing is changed. -/
theorem record_leads (h : Intact root t) {date : Time.Moment} {staging : Staging} {message : String}
    {merged : Option ObjectId} (hmerged : ∀ id ∈ merged, Rooted root t id)
    (names : ∀ name ∈ staging.additions, Trackable root name) (tellable : date.Tellable)
    (current : staging.changed = false → Shows root t staging) (printed : String) :
    (record root date staging message merged).Leads ⟨t, printed⟩ fun r w' =>
      (w' = ⟨t, printed⟩ ∧ ∃ fault, r = .error fault) ∨
      ∃ b parent, Branches.current root t = .ok b ∧ Commits.load root t b.tip = .ok parent ∧
        r = .ok () ∧ w'.printed = printed ∧
        Recorded root b ⟨message, date, parent, staging, merged⟩ t w'.tree := by
  refine leads_record (fun fault => Or.inl ⟨rfl, fault, rfl⟩) fun b parent _ _ hcurrent hparent =>
    ?_
  have fits : Recording.Fits root t ⟨message, date, parent, staging, merged⟩ :=
    ⟨(h.of_load hparent).2.1, hmerged, names, tellable, current⟩
  obtain ⟨t', hrun, recorded⟩ := storing_written_run h fits hcurrent printed
  exact Leads.of_run hrun (Or.inr ⟨b, parent, hcurrent, hparent, rfl, rfl, recorded⟩)

end Command

end LocalVcs
