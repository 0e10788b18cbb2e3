/-
# Restoring what has been committed

The bytes that a commit holds under a name are those that were staged for it, or else those that its
first parent holds.  An object that has been stored is never overwritten; so, unless two objects
share a digest, those bytes can be taken out of the commit in every later state.

* `Bears`: the bytes that a commit was made with.
* `Archive`: the stores hold what has been recorded, and nothing else.
* `Archive.of_recorded`: one recording; `Run.archive`: whole runs.
* `Run.restores`: every file of every commit of a run can be restored.
-/
import LocalVcs.Proofs.Progress
import LocalVcs.Proofs.UntoldZones

namespace LocalVcs

open FileTree Layout

variable {root : Path} {t t' : FileTree} {past : List Recording} {r : Recording}

/-! ## 1. What occurs in a run -/

/-- The objects that a run stores: the first commit, and what its recordings bring. -/
inductive Occurs (past : List Recording) : Object → Prop
  | first : Occurs past (.commit Commit.initial)
  | brought {r : Recording} {o : Object} : r ∈ past → r.Brings o → Occurs past o

/-- Objects that share a digest have the same encoding. -/
def CollisionFree (past : List Recording) : Prop :=
  ∀ o o', Occurs past o → Occurs past o' → o.id = o'.id → o.encoding = o'.encoding

/-- The bytes that a recording holds under a name: what was staged, or else what the commit before
was made with. -/
inductive Bears (past : List Recording) (name : String) : Recording → Bytes → Prop
  | staged {r : Recording} {bytes : Bytes} :
      r.staged.additions[name]? = some bytes → Bears past name r bytes
  | kept {r before : Recording} {bytes : Bytes} : r.staged.additions[name]? = none →
      before ∈ past → before.made = r.parent → Bears past name before bytes →
        Bears past name r bytes

theorem Occurs.mono {more : List Recording} (sub : past ⊆ more) {o : Object} (h : Occurs past o) :
    Occurs more o := by
  cases h with
  | first => exact .first
  | brought hr brings => exact .brought (sub hr) brings

theorem CollisionFree.mono {more : List Recording} (sub : past ⊆ more) (h : CollisionFree more) :
    CollisionFree past := fun o o' ho ho' => h o o' (ho.mono sub) (ho'.mono sub)

theorem Bears.mono {more : List Recording} (sub : past ⊆ more) {name : String} {bytes : Bytes}
    (h : Bears past name r bytes) : Bears more name r bytes := by
  induction h with
  | staged hadded => exact .staged hadded
  | kept hnot hbefore hmade _ ih => exact .kept hnot (sub hbefore) hmade ih

/-! ## 2. The archive -/

/-- The stores hold what has been recorded and the first commit, and nothing else; every name in
what has been recorded stands for bytes. -/
structure Archive (root : Path) (past : List Recording) (t : FileTree) : Prop where
  stored : ∀ o, Occurs past o → Stored root t o.kind o.id o.encoding
  of_stored : ∀ {kind id encoding}, Stored root t kind id encoding →
    ∃ o, Occurs past o ∧ o.kind = kind ∧ o.id = id ∧ o.encoding = encoding
  readable : ∀ r ∈ past, r.made.Readable
  bears : ∀ r ∈ past, ∀ (name : String) blob, r.made.manifest[name]? = some blob →
    ∃ bytes, Bears past name r bytes

namespace Archive

theorem congr (h : Archive root past t) (same : SameObjects root t t') : Archive root past t' where
  stored o ho := same.stored_iff.mpr (h.stored o ho)
  of_stored hstored := h.of_stored (same.stored_iff.mp hstored)
  readable := h.readable
  bears := h.bears

/-- A stored commit is the first one, or it has been recorded. -/
theorem of_commitStored (h : Archive root past t) {c : Commit} (stored : CommitStored root t c) :
    c = Commit.initial ∨ ∃ r ∈ past, r.made = c := by
  obtain ⟨o, ho, hkind, -, henc⟩ := h.of_stored stored.stored
  cases ho with
  | first =>
    have first : Commit.initial.Readable := (sound_initial root t).readable
    exact Or.inl (stored.readable.eq_of_encoding_eq first henc.symm)
  | brought hr brings =>
    cases brings with
    | blob _ => cases hkind
    | commit => exact Or.inr ⟨_, hr, (h.readable _ hr).eq_of_encoding_eq stored.readable henc⟩

theorem of_begun (begun : Begun root t t') : Archive root [] t' where
  stored o ho := by
    cases ho with
    | first => exact begun.stored.stored
    | brought hr _ => cases hr
  of_stored hstored := by
    obtain ⟨rfl, rfl, rfl⟩ := begun.objects _ _ _ hstored
    exact ⟨_, .first, rfl, rfl, rfl⟩
  readable r hr := by cases hr
  bears r hr := by cases hr

/-- Every name that a recording holds stands for bytes: they are staged, or the commit before has
been recorded with them. -/
theorem bears_of_recorded (h : Archive root past t) (parent : CommitStored root t r.parent)
    {name : String} {blob : ObjectId} (hblob : r.made.manifest[name]? = some blob) :
    ∃ bytes, Bears (r :: past) name r bytes := by
  rcases Recording.of_made hblob with ⟨bytes, hadded, -⟩ | ⟨hnot, hbefore⟩
  · exact ⟨bytes, .staged hadded⟩
  · rcases h.of_commitStored parent with first | ⟨before, hmem, hmade⟩
    · rw [first] at hbefore
      simp [Commit.initial] at hbefore
    · rw [← hmade] at hbefore
      obtain ⟨bytes, bears⟩ := h.bears before hmem name blob hbefore
      exact ⟨bytes, .kept hnot (List.mem_cons_of_mem _ hmem) hmade
        (bears.mono (List.subset_cons_self _ _))⟩

/-- **A recording keeps the archive.**  What is skipped because its file is there already is there
already. -/
theorem of_recorded (h : Archive root past t) {b : Branch} (recorded : Recorded root b r t t')
    (parent : CommitStored root t r.parent) (free : CollisionFree (r :: past)) :
    Archive root (r :: past) t' := by
  have sub : past ⊆ r :: past := List.subset_cons_self _ _
  have of_stored : ∀ {kind id encoding}, Stored root t' kind id encoding →
      ∃ o, Occurs (r :: past) o ∧ o.kind = kind ∧ o.id = id ∧ o.encoding = encoding := by
    intro kind id encoding stored
    rcases recorded.objects.of_stored stored with hold | ⟨o, brings, ho⟩
    · obtain ⟨o, occurs, ho⟩ := h.of_stored hold
      exact ⟨o, occurs.mono sub, ho⟩
    · exact ⟨o, .brought List.mem_cons_self brings, ho⟩
  refine ⟨?_, of_stored, ?_, ?_⟩
  · intro o occurs
    cases occurs with
    | first => exact recorded.objects.grows _ _ _ (h.stored _ .first)
    | brought hr brings =>
      rcases List.mem_cons.mp hr with rfl | hr
      · obtain ⟨encoding, stored⟩ := recorded.objects.there o brings
        obtain ⟨o', occurs', -, hid, rfl⟩ := of_stored stored
        rwa [free o' o occurs' (.brought List.mem_cons_self brings) hid] at stored
      · exact recorded.objects.grows _ _ _ (h.stored o (.brought hr brings))
  · intro r' hr'
    rcases List.mem_cons.mp hr' with rfl | hr'
    · exact recorded.readable
    · exact h.readable r' hr'
  · intro r' hr' name blob hblob
    rcases List.mem_cons.mp hr' with rfl | hr'
    · exact h.bears_of_recorded parent hblob
    · obtain ⟨bytes, bears⟩ := h.bears r' hr' name blob hblob
      exact ⟨bytes, bears.mono sub⟩

/-! ## 3. Taking bytes out again -/

theorem commitStored (h : Archive root past t) (hr : r ∈ past) : CommitStored root t r.made :=
  ⟨h.readable r hr, h.stored (.commit r.made) (.brought hr .commit)⟩

theorem load (h : Archive root past t) (intact : Intact root t) (hr : r ∈ past) :
    Commits.load root t r.made.id = .ok r.made := intact.load_iff.mpr ⟨rfl, h.commitStored hr⟩

theorem load_initial (h : Archive root past t) (intact : Intact root t) :
    Commits.load root t Commit.initial.id = .ok Commit.initial :=
  intact.load_iff.mpr
    ⟨rfl, (sound_initial root t).readable, h.stored (.commit Commit.initial) .first⟩

/-- The blob that a recording holds under a name is that of its bytes, and these are stored. -/
theorem blob_of_bears (h : Archive root past t) {name : String} {bytes : Bytes}
    (bears : Bears past name r bytes) (hr : r ∈ past) {blob : ObjectId}
    (hblob : r.made.manifest[name]? = some blob) :
    Stored root t .blob blob (Object.blobEncoding bytes) := by
  induction bears with
  | staged hadded =>
    rcases Recording.of_made hblob with ⟨content, hcontent, rfl⟩ | ⟨hnot, -⟩
    · obtain rfl := Option.some.inj (hcontent.symm.trans hadded)
      exact h.stored (.blob content) (.brought hr (.blob hadded))
    · simp [hadded] at hnot
  | kept hnot hbefore hmade _ ih =>
    rcases Recording.of_made hblob with ⟨content, hcontent, -⟩ | ⟨-, htracked⟩
    · simp [hnot] at hcontent
    · exact ih hbefore (hmade ▸ htracked)

/-- A file is restored with the bytes that the commit was made with. -/
theorem checkoutFileAt_run (h : Archive root past t) (intact : Intact root t) {name : String}
    {bytes : Bytes} (bears : Bears past name r bytes) (hr : r ∈ past)
    (hname : name ∈ r.made.manifest) (printed : String) :
    ∃ t', Command.checkoutFileAt root r.made.id.text name ⟨t, printed⟩ =
      (.ok (), ⟨t', printed⟩) ∧ t'.at? (name :: root) = some (.file (.plain bytes)) := by
  obtain ⟨blob, hblob⟩ := NameMap.mem_iff_exists_getElem?.mp hname
  obtain ⟨content, t', hload, hrun, -, hat⟩ :=
    Command.checkoutFileAt_run intact (h.commitStored hr) hblob printed
  have hbytes := intact.loadBlob_iff.mpr (h.blob_of_bears bears hr hblob)
  obtain rfl := Except.ok.inj (hload.symm.trans hbytes)
  exact ⟨t', hrun, hat⟩

end Archive

/-! ## 4. Whole runs -/

namespace Run

variable {allowed : Request → Prop}

/-- **The stores hold all that a run has recorded.** -/
theorem archive (h : Run root allowed Settings.Dates past t) (free : CollisionFree past) :
    Archive root past t := by
  induction h with
  | start linkFree hinit => exact Archive.of_begun (Command.begun_of_init linkFree hinit)
  | edit _ edit ih => exact (ih free).congr edit.sameObjects
  | other run here dates _ hrun none_ ih =>
    exact (ih free).congr
      (Request.kept_of_perform False run.intact here dates False.elim hrun none_).objects
  | recording run here dates _ hrun hdate hrec ih =>
    obtain ⟨b, t₁, -, kept, -, recorded⟩ :=
      Request.recorded_of_perform False run.intact here dates False.elim hrun hdate hrec
    have before := ih (free.mono (List.subset_cons_self _ _))
    exact (before.congr kept.objects).of_recorded recorded
      ((hrec.parent run.intact).mono kept.objects.grows) free

/-- **What has been committed can be restored for ever.**  In every later state a commit that was
recorded can be loaded, and every file that it tracks can be taken out of it with the bytes that
were staged for it, or else with those that its first parent was made with; there are such bytes,
and they are the only ones. -/
theorem restores (h : Run root allowed Settings.Dates past t) (free : CollisionFree past)
    (hr : r ∈ past)
    {name : String} (hname : name ∈ r.made.manifest) (printed : String) :
    Commits.load root t r.made.id = .ok r.made ∧
    ∃ bytes, Bears past name r bytes ∧ (∀ other, Bears past name r other → other = bytes) ∧
      ∃ t', Command.checkoutFileAt root r.made.id.text name ⟨t, printed⟩ = (.ok (), ⟨t', printed⟩) ∧
        t'.at? (name :: root) = some (.file (.plain bytes)) := by
  have archive := h.archive free
  obtain ⟨blob, hblob⟩ := NameMap.mem_iff_exists_getElem?.mp hname
  obtain ⟨bytes, bears⟩ := archive.bears r hr name blob hblob
  obtain ⟨t', hrun, hat⟩ := archive.checkoutFileAt_run h.intact bears hr hname printed
  refine ⟨h.intact.load_iff.mpr ⟨rfl, archive.commitStored hr⟩, bytes, bears, ?_, t', hrun, hat⟩
  intro other bearsOther
  obtain ⟨t'', hrun', hat'⟩ := archive.checkoutFileAt_run h.intact bearsOther hr hname printed
  obtain rfl : t' = t'' := congrArg World.tree (Prod.mk.inj (hrun.symm.trans hrun')).2
  rw [hat] at hat'
  simpa using hat'.symm

end Run

/-! ## 5. A file that is no longer there -/

namespace Apart

/-- What is stored for the two branches. -/
def objects : List Object :=
  [.commit Commit.initial, .blob [1], .commit left.made, .blob [2], .commit right.made]

/-- Their digests differ. -/
theorem nodup_ids : (objects.map Object.id).Nodup := by decide +kernel

/-- What comes with a commit of one file. -/
theorem of_brings {r : Recording} {name : String} {content : Bytes}
    (staged : r.staged = Staging.single name content) {o : Object} (brings : r.Brings o) :
    o = .blob content ∨ o = .commit r.made := by
  cases brings with
  | @blob n held hadded =>
    rw [staged] at hadded
    simp only [Staging.single, Std.ExtTreeMap.getElem?_insert] at hadded
    split at hadded
    · exact Or.inl (by rw [Option.some.inj hadded])
    · simp at hadded
  | commit => exact Or.inr rfl

theorem mem_of_occurs {o : Object} (h : Occurs [right, left] o) : o ∈ objects := by
  unfold objects
  cases h with
  | first => simp
  | brought hr brings =>
    rcases List.mem_pair.mp hr with rfl | rfl <;>
      rcases of_brings rfl brings with rfl | rfl <;> simp

theorem collisionFree : CollisionFree [right, left] := by
  intro o o' ho ho' hid
  rw [List.inj_on_of_nodup_map nodup_ids (mem_of_occurs ho) (mem_of_occurs ho') hid]

/-- The commits of the two branches and the one that they come from are stored. -/
theorem loads {t : FileTree} (run : Run [] Request.Plain Settings.Dates [right, left] t) :
    Commits.load [] t left.made.id = .ok left.made ∧
      Commits.load [] t right.made.id = .ok right.made ∧
      Commits.load [] t Commit.initial.id = .ok Commit.initial := by
  have archive := run.archive collisionFree
  exact ⟨archive.load run.intact (by simp), archive.load run.intact (by simp),
    archive.load_initial run.intact⟩

/-- So they are before the second one is made. -/
theorem loads_left {t : FileTree} (run : Run [] Request.Plain Settings.Dates [left] t) :
    Commits.load [] t left.made.id = .ok left.made ∧
      Commits.load [] t Commit.initial.id = .ok Commit.initial := by
  have archive := run.archive (collisionFree.mono (by simp))
  exact ⟨archive.load run.intact (by simp), archive.load_initial run.intact⟩

/-- The file of the branch that is left is restored over that of the current one. -/
theorem restores_left : ∃ t, Run [] Request.Plain Settings.Dates [right, left] t ∧
    CollisionFree [right, left] ∧
    left ∈ [right, left] ∧ "file" ∈ left.made.manifest ∧
    Commits.load [] t left.made.id = .ok left.made ∧
    ∃ t', Command.checkoutFileAt [] left.made.id.text "file" ⟨t, ""⟩ = (.ok (), ⟨t', ""⟩) ∧
      t'.at? ["file"] = some (.file (.plain [1])) := by
  obtain ⟨t, run, -⟩ := exists_run
  have hleft : left ∈ [right, left] := by simp
  have hname : "file" ∈ left.made.manifest := file_mem _ _
  obtain ⟨hload, bytes, -, only, t', hrun, hat⟩ := run.restores collisionFree hleft hname ""
  have staged : left.staged.additions["file"]? = some [1] := by
    simp [left, recording, Staging.single]
  obtain rfl := only [1] (.staged staged)
  exact ⟨t, run, collisionFree, hleft, hname, hload, t', hrun, hat⟩

/-! ## 6. A commit that cannot be loaded -/

/-- A second from a day to the east of UTC. -/
def farEast : Time.Moment :=
  { Time.Moment.epoch with offset := 86399, offset_gt := by decide, offset_lt := by decide }

/-- The top of the file tree, where the clock is set to that zone. -/
def eastern : Settings := ⟨[], none, farEast, fun _ => 86399⟩

/-- The one file is committed there. -/
def untold : Recording := ⟨"untold", farEast, Commit.initial, Staging.single "file" [1], none⟩

/-- What is stored then. -/
def objectsUntold : List Object := [.commit Commit.initial, .blob [1], .commit untold.made]

/-- The digests differ, also from that of the commit as it would have been made in UTC. -/
theorem nodup_idsUntold :
    (objectsUntold.map Object.id).Nodup ∧ untold.made.utc.id ≠ untold.made.id := by
  decide +kernel

theorem collisionFree_untold : CollisionFree [untold] := by
  have member : ∀ {o}, Occurs [untold] o → o ∈ objectsUntold := by
    intro o h
    unfold objectsUntold
    cases h with
    | first => simp
    | brought hr brings =>
      obtain rfl := List.mem_singleton.mp hr
      rcases of_brings rfl brings with rfl | rfl <;> simp
  intro o o' ho ho' hid
  rw [List.inj_on_of_nodup_map nodup_idsUntold.1 (member ho) (member ho') hid]

/-- The commit goes through, and its encoding is stored. -/
theorem exists_untold : ∃ t, Run [] Request.Plain (fun _ _ => True) [untold] t ∧ Clear [] t ∧
    Stored [] t .commit untold.made.id untold.made.encoding := by
  obtain ⟨t₁, hrun₁, begun⟩ := Command.init_run startable ""
  have run₁ : Run [] Request.Plain Settings.Dates [] t₁ := Run.start startable.free hrun₁
  have tracksNothing : Commit.initial.manifest["file"]? ≠ some (Object.blobId [1]) := by
    simp [Commit.initial]
  obtain ⟨t₂, run₂, -, hstaging, hcurrent, hload, -⟩ := run₁.stage_file here rfl begun.index
    begun.current (begun.intact.load_iff.mpr ⟨rfl, begun.stored⟩) trackable_file
    tracksNothing trivial
  have new : ∀ encoding, ¬Stored [] t₂ .commit untold.made.id encoding := by
    intro encoding stored
    obtain ⟨o, occurs, -, hid, -⟩ :=
      (run₂.archive (collisionFree_untold.mono (by simp))).of_stored stored
    cases occurs with
    | first =>
      exact (List.pairwise_cons.mp nodup_idsUntold.1).1 untold.made.id
        (by simp [Object.id]) hid
    | brought hr _ => cases hr
  obtain ⟨t₃, hcommit, clear, stored⟩ := Command.commit_untold run₂.intact hstaging
    (by simp [Staging.single, Staging.isEmpty]) hcurrent hload (show "untold" ≠ "" by decide)
    (r := untold) rfl new ""
  have hrun : (Request.commit "untold").perform eastern true ⟨t₂, ""⟩ = (.ok (), ⟨t₃, ""⟩) :=
    (Request.perform_run run₂.intact rfl rfl true "").trans hcommit
  have records : Records [] t₂ farEast (.commit "untold") untold :=
    .commit hcurrent hload hstaging
  have plain : Request.Plain (.commit "untold") := trivial
  exact ⟨t₃, (run₂.mono fun _ _ _ => trivial).recording rfl trivial plain hrun rfl records, clear,
    stored⟩

/-- It is taken for damaged. -/
theorem get?_untold {t : FileTree} (clear : Clear [] t)
    (stored : Stored [] t .commit untold.made.id untold.made.encoding) :
    ∃ damage, Commits.get? [] t untold.made.id = .error damage := by
  refine Commits.get?_of_untellable clear ?_ (by decide)
    (fun same => absurd same nodup_idsUntold.2) stored
  intro name hname
  obtain ⟨blob, hblob⟩ := NameMap.mem_iff_exists_getElem?.mp hname
  have held := (made_manifest "untold" [1] name).symm.trans hblob
  split at held
  · rename_i same
    subst same
    decide
  · cases held

/-- So its file cannot be taken out of it again. -/
theorem restores_not_untold : ∃ t, Run [] Request.Plain (fun _ _ => True) [untold] t ∧
    CollisionFree [untold] ∧ "file" ∈ untold.made.manifest ∧
    ∃ damage, Command.checkoutFileAt [] untold.made.id.text "file" ⟨t, ""⟩ =
      (.error (.damaged damage), ⟨t, ""⟩) := by
  obtain ⟨t, run, clear, stored⟩ := exists_untold
  obtain ⟨damage, damaged⟩ := get?_untold clear stored
  exact ⟨t, run, collisionFree_untold, file_mem "untold" [1], damage,
    Command.checkoutFileAt_of_damaged damaged "file" ""⟩

end Apart

end LocalVcs
