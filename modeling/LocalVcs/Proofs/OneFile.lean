/-
# Staging one file

Staging a file works on what stands under its name: the working file, and the entry that is staged
for addition or for removal.  What comes of it is told by these three and by the current commit, and
nothing stands differently anywhere else.

* `places`, `Standing`: where something stands under a name, and what.
* `Standing.add`, `Standing.rm`: what comes of staging a file in the one way and in the other.
* `Command.add_comes`, `Command.rm_comes`: so it comes, in every intact repository.
-/
import LocalVcs.Proofs.Effects

namespace LocalVcs

open FileTree Layout

variable {root : Path} {t t' t'' : FileTree} {file : String} {mine : Branch} {head : Commit}
  {staging staging' : Staging}

/-! ## 1. What stands under a name -/

/-- Where something can stand under a name: in the working directory, and staged in the one way and
in the other. -/
def Layout.places (root : Path) (file : String) : List Path :=
  [file :: root, file :: stagedPath root .addition, file :: stagedPath root .removal]

theorem head?_of_mem_places {p : Path} (h : p ∈ places root file) :
    p.head? = some (.text file) := by
  simp only [places, List.mem_cons, List.not_mem_nil, or_false] at h
  rcases h with rfl | rfl | rfl <;> rfl

/-- Different names have different places. -/
theorem eq_of_mem_places {other : String} {p : Path} (h : p ∈ places root file)
    (h' : p ∈ places root other) : file = other :=
  FileName.text.inj (Option.some.inj ((head?_of_mem_places h).symm.trans (head?_of_mem_places h')))

/-- What stands under one name. -/
@[ext]
structure Standing where
  work : Option Entry
  addition : Option Entry
  removal : Option Entry

/-- What stands under a name in a file tree. -/
def standing (root : Path) (file : String) (t : FileTree) : Standing :=
  ⟨t.at? (file :: root), t.at? (file :: stagedPath root .addition),
    t.at? (file :: stagedPath root .removal)⟩

theorem standing_eq_iff : standing root file t' = standing root file t ↔
    ∀ p ∈ places root file, t'.at? p = t.at? p := by
  simp [standing, places]

/-- From `t` to `t'` only what stands under one name changes. -/
def ChangesOnly (root : Path) (file : String) (t t' : FileTree) : Prop :=
  ∀ p, p ∉ places root file → t'.at? p = t.at? p

namespace ChangesOnly

theorem refl (root : Path) (file : String) (t : FileTree) : ChangesOnly root file t t :=
  fun _ _ => rfl

theorem trans (h : ChangesOnly root file t t') (h' : ChangesOnly root file t' t'') :
    ChangesOnly root file t t'' := fun p away => (h' p away).trans (h p away)

theorem standing_eq (h : ChangesOnly root file t t') {other : String} (apart : other ≠ file) :
    standing root other t' = standing root other t :=
  standing_eq_iff.mpr fun p hp => h p fun hp' => apart (eq_of_mem_places hp hp')

end ChangesOnly

/-! ## 2. What is staged, and where it stands -/

/-- The file of an entry. -/
def stagedFile (entry : Option Bytes) : Option Entry := entry.map fun bytes => .file (.plain bytes)

@[simp] theorem stagedFile_none : stagedFile none = none := rfl

theorem stagedFile_eq_none {entry : Option Bytes} : stagedFile entry = none ↔ entry = none :=
  Option.map_eq_none_iff

theorem at?_eq_stagedFile (sound : SoundIndex root t) {what : Staged} {entries : NameMap Bytes}
    (shown : ∀ (name : String) bytes, entries[name]? = some bytes ↔
      t.at? (name :: stagedPath root what) = some (.file (.plain bytes))) (name : String) :
    t.at? (name :: stagedPath root what) = stagedFile entries[name]? := by
  cases hentry : entries[name]? with
  | some bytes => exact (shown name bytes).mp hentry
  | none =>
    cases hat : t.at? (name :: stagedPath root what) with
    | none => rfl
    | some e =>
      obtain ⟨bytes, -, rfl, -⟩ := sound what name e hat
      simp [(shown name bytes).mpr hat] at hentry

theorem Shows.at?_addition (h : Shows root t staging) (sound : SoundIndex root t) (name : String) :
    t.at? (name :: stagedPath root .addition) = stagedFile staging.additions[name]? :=
  at?_eq_stagedFile sound h.additions name

theorem Shows.at?_removal (h : Shows root t staging) (sound : SoundIndex root t) (name : String) :
    t.at? (name :: stagedPath root .removal) = stagedFile staging.removals[name]? :=
  at?_eq_stagedFile sound h.removals name

/-- What stands under a name, told by what is staged. -/
theorem Shows.standing_eq (h : Shows root t staging) (sound : SoundIndex root t) :
    standing root file t = ⟨t.at? (file :: root), stagedFile staging.additions[file]?,
      stagedFile staging.removals[file]?⟩ := by
  rw [standing, h.at?_addition sound, h.at?_removal sound]

/-- Nothing lies below the file of an entry. -/
theorem SoundIndex.at?_below (sound : SoundIndex root t) {what : Staged} {name : FileName}
    {p : Path}
    (below : name :: stagedPath root what <:+ p) (other : p ≠ name :: stagedPath root what) :
    t.at? p = none := by
  cases hat : t.at? p with
  | none => rfl
  | some e =>
    obtain ⟨bytes, -, hfile, -⟩ := sound what name _ (at?_eq_dir_of_suffix hat below other.symm)
    cases hfile

/-- Where two staging areas differ in one name, what they show differs in its places. -/
theorem Shows.changesOnly (shows_ : Shows root t staging) (sound : SoundIndex root t)
    (shows' : Shows root t' staging') (sound' : SoundIndex root t')
    (touch : Touches root [.index .addition, .index .removal] t t')
    (additions : ∀ name : String, name ≠ file →
      staging'.additions[name]? = staging.additions[name]?)
    (removals : ∀ name : String, name ≠ file → staging'.removals[name]? = staging.removals[name]?) :
    ChangesOnly root file t t' := by
  intro p away
  by_cases inIndex : ∃ what, (Area.index what).Holds root p
  · obtain ⟨what, held⟩ := inIndex
    obtain ⟨front, rfl⟩ := held.below
    rcases List.eq_nil_or_concat front with rfl | ⟨deeper, name, rfl⟩
    · exact absurd (by cases what <;> simp [skeleton, stagedPath, Area.names, metaPath]) held.off
    · have hpath : deeper.concat name ++ ((Area.index what).names ++ root) =
          deeper ++ name :: stagedPath root what := by simp [Area.names, stagedPath, metaPath]
      rw [hpath] at away ⊢
      by_cases hdeeper : deeper = []
      · subst hdeeper
        rw [List.nil_append] at away ⊢
        cases name with
        | other => rw [(sound'.textsIn what).at?_other, (sound.textsIn what).at?_other]
        | text name =>
          have other : name ≠ file := by
            rintro rfl
            cases what <;> simp [places] at away
          cases what with
          | addition =>
            rw [shows'.at?_addition sound', shows_.at?_addition sound, additions name other]
          | removal => rw [shows'.at?_removal sound', shows_.at?_removal sound, removals name other]
      · have below : name :: stagedPath root what <:+ deeper ++ name :: stagedPath root what :=
          List.suffix_append _ _
        have other : deeper ++ name :: stagedPath root what ≠ name :: stagedPath root what := by
          simpa using hdeeper
        rw [sound'.at?_below below other, sound.at?_below below other]
  · refine touch.frame p fun area harea held => inIndex ?_
    simp only [List.mem_cons, List.not_mem_nil, or_false] at harea
    rcases harea with rfl | rfl
    · exact ⟨_, held⟩
    · exact ⟨_, held⟩

/-- Where an entry is gone, and no other name has changed, what is staged is the rest. -/
theorem Shows.erased (shows_ : Shows root t staging) (only : ChangesOnly root file t t')
    {work : Option Entry} (gone : standing root file t' = ⟨work, none, none⟩) :
    Shows root t' ⟨staging.additions.erase file, staging.removals.erase file, staging.changed⟩ := by
  obtain ⟨-, addition, removal⟩ := Standing.mk.inj gone
  have same {name : String} (other : name ≠ file) :=
    Standing.mk.inj (only.standing_eq other)
  constructor
  · intro name bytes
    by_cases heq : name = file
    · simp [heq, addition]
    · rw [(same heq).2.1, ← shows_.additions]
      simp [Std.ExtTreeMap.getElem?_erase, Ne.symm heq]
  · intro name bytes
    by_cases heq : name = file
    · simp [heq, removal]
    · rw [(same heq).2.2, ← shows_.removals]
      simp [Std.ExtTreeMap.getElem?_erase, Ne.symm heq]

/-! ## 3. What comes of staging a file -/

instance : Decidable (Trackable root file) :=
  decidable_of_iff (Worktree.fileName? file = some file ∧ ValidName file ∧
      Route.bytesOf (.text file :: stagedPath root .addition) ≤ Route.longest)
    ⟨fun h => ⟨h.1, h.2.1, h.2.2⟩, fun h => ⟨h.names, h.valid, h.room⟩⟩

namespace Standing

/-- What comes of staging a file as it is: the result, and what stands under its name then.  The
working file holds `found`, if it is there. -/
def add (s : Standing) (root : Path) (file : String) (head : Except Fault Commit)
    (found : Option Bytes) : Except Fault Unit × Standing :=
  match found, head with
  | none, _ => (.error (.user .fileNotFound), s)
  | some _, .error fault => (.error fault, s)
  | some content, .ok head =>
    if head.manifest[file]? = some (Object.blobId content) then (.ok (), ⟨s.work, none, none⟩)
    else if Trackable root file then (.ok (), ⟨s.work, stagedFile (some content), none⟩)
    else (.error (.refused (.stage file (stagedPlace .addition))), s)

/-- Contents that the current commit does not hold are staged where the file can be tracked. -/
theorem add_of_trackable (s : Standing) (trackable : Trackable root file) (head : Commit)
    (content : Bytes) : s.add root file (.ok head) (some content) = (.ok (), ⟨s.work, stagedFile
      (if head.manifest[file]? = some (Object.blobId content) then none else some content),
      none⟩) := by
  unfold add
  dsimp only
  split <;> rfl

/-- What is left of a working file that is deleted. -/
def deleted : Option Entry → Option Entry
  | some (.file _) => none
  | other => other

/-- What comes of dropping a file: the result, and what stands under its name then.  The current
commit holds `held` of it, if it is tracked. -/
def rm (s : Standing) (held : Except Fault (Option Bytes)) : Except Fault Unit × Standing :=
  match held with
  | .error fault => (.error fault, s)
  | .ok (some content) => (.ok (), ⟨deleted s.work, none, stagedFile (some content)⟩)
  | .ok none =>
    if s.addition = none then (.error (.user .noReasonToRemove), s)
    else (.ok (), ⟨s.work, none, s.removal⟩)

end Standing

/-- The current commit. -/
def headAt (root : Path) (t : FileTree) : Except Fault Commit := do
  let branch ← Branches.current root t
  (Commits.load root t branch.tip).mapError .damaged

/-- What the working file holds, if it is there. -/
def foundAt (root : Path) (file : String) (t : FileTree) : Option Bytes :=
  if Worktree.contains root t file then (Worktree.read root t file).toOption else none

/-- What the current commit holds of a file, if it is tracked. -/
def heldAt (root : Path) (file : String) (t : FileTree) : Except Fault (Option Bytes) := do
  let head ← headAt root t
  match head.manifest[file]? with
  | none => .ok none
  | some blob => (Blobs.load root t blob).mapError .damaged |>.map some

/-- From `t` to `t'` a file has been staged: under its name stands what comes of that. -/
structure ComesTo (root : Path) (file : String) (after : Standing) (t t' : FileTree) : Prop where
  intact : Intact root t'
  touch : Touches root [.work, .index .addition, .index .removal] t t'
  only : ChangesOnly root file t t'
  standing : standing root file t' = after

theorem ComesTo.unchanged (h : Intact root t) :
    ComesTo root file (LocalVcs.standing root file t) t t :=
  ⟨h, Touches.refl root t, ChangesOnly.refl root file t, rfl⟩

theorem ComesTo.trans {between after : Standing} (h : ComesTo root file between t t')
    (h' : ComesTo root file after t' t'') : ComesTo root file after t t'' :=
  ⟨h'.intact, h.touch.trans h'.touch, h.only.trans h'.only, h'.standing⟩

/-- A working file that can be tracked has been deleted, if it was there. -/
theorem ComesTo.of_filesGone (h : Intact root t) (trackable : Trackable root file)
    (gone : FilesGone root [file] t t')
    (noFile : ∀ content, t'.at? (file :: root) ≠ some (.file content)) :
    ComesTo root file ⟨Standing.deleted (t.at? (file :: root)),
      t.at? (file :: stagedPath root .addition),
      t.at? (file :: stagedPath root .removal)⟩ t t' := by
  have touch := gone.touches (List.forall_mem_singleton.mpr trackable.notMeta)
  have kept : Kept False root t t' := Kept.of_work h touch
  refine ⟨kept.intact, touch.mono (by simp), fun p away => (gone p).resolve_right ?_, ?_⟩
  · rintro ⟨-, name, hname, rfl, -⟩
    obtain rfl := List.mem_singleton.mp hname
    exact away (by simp [places])
  · have work : t'.at? (file :: root) = Standing.deleted (t.at? (file :: root)) := by
      rcases gone (file :: root) with same | ⟨hnone, -, -, -, content, hat⟩
      · rw [same] at noFile ⊢
        unfold Standing.deleted
        split
        · rename_i content hat
          exact absurd hat (noFile content)
        · rfl
      · rw [hnone, hat]
        rfl
    rw [LocalVcs.standing, work, touch.at?_eq (holds_staged .addition file) (by simp),
      touch.at?_eq (holds_staged .removal file) (by simp)]

/-- Where the staging area has come to differ in the entry of a file, no more has been done. -/
theorem ComesTo.of_shows (file : String) (h : Intact root t) (h' : Intact root t')
    (touch : Touches root [.index .addition, .index .removal] t t')
    (shows_ : Shows root t staging) (shows' : Shows root t' staging')
    (additions : ∀ name : String, name ≠ file →
      staging'.additions[name]? = staging.additions[name]?)
    (removals : ∀ name : String, name ≠ file → staging'.removals[name]? = staging.removals[name]?) :
    ComesTo root file ⟨t.at? (file :: root), stagedFile staging'.additions[file]?,
      stagedFile staging'.removals[file]?⟩ t t' where
  intact := h'
  touch := touch.mono (by simp)
  only := shows_.changesOnly h.index shows' h'.index touch additions removals
  standing := by
    have work : t'.at? (file :: root) = t.at? (file :: root) := by
      refine touch.frame _ fun area harea held => ?_
      have longer := held.below.length_le
      simp only [List.mem_cons, List.not_mem_nil, or_false] at harea
      rcases harea with rfl | rfl <;>
        simp only [Area.names, List.length_append, List.length_cons, List.length_nil] at longer <;>
        omega
    rw [shows'.standing_eq h'.index, work]

namespace Command

open LocalVcs.Action

theorem getElem?_stageContent (head : Commit) (s : Staging) (file : String) (content : Bytes)
    (name : String) :
    (stageContent head s file content).additions[name]? = (if name = file then
        if head.manifest[file]? = some (Object.blobId content) then none else some content
      else s.additions[name]?) ∧
    (stageContent head s file content).removals[name]? =
      if name = file then none else s.removals[name]? := by
  unfold stageContent Commit.tracked?
  by_cases heq : name = file
  · subst heq
    split <;> simp [Staging.unstageAddition, Staging.unstageRemoval, Staging.add]
  · have other : file ≠ name := Ne.symm heq
    split <;> simp [other, Staging.unstageAddition, Staging.unstageRemoval, Staging.add,
      Std.ExtTreeMap.getElem?_erase, Std.ExtTreeMap.getElem?_insert]

theorem headCommit_eq (printed : String) :
    headCommit root ⟨t, printed⟩ = (headAt root t, ⟨t, printed⟩) := by
  cases hcurrent : Branches.current root t with
  | error fault =>
    rw [headCommit, bind_run_error (read_run hcurrent), headAt, hcurrent]
    rfl
  | ok branch =>
    rw [headCommit, bind_run_ok (read_run hcurrent), loadCommit, undamaged, read_run rfl, headAt,
      hcurrent]
    simp only [bind, Except.bind]

/-- In an intact repository the current commit can be loaded where a branch is current. -/
theorem finds_of_headAt (h : Intact root t) (hhead : headAt root t = .ok head)
    (hstaging : Staging.load root t = .ok staging) : ∃ mine, Finds root t mine head staging := by
  cases hcurrent : Branches.current root t with
  | error fault =>
    rw [headAt, hcurrent] at hhead
    cases hhead
  | ok mine =>
    obtain ⟨c, -, -, hload⟩ := h.load_of_current hcurrent
    have : headAt root t = .ok c := by
      simp [headAt, hcurrent, hload, bind, Except.bind, Except.mapError]
    obtain rfl := Except.ok.inj (this.symm.trans hhead)
    exact ⟨mine, h, hcurrent, hload, hstaging⟩

theorem headAt_eq (finds : Finds root t mine head staging) : headAt root t = .ok head := by
  simp [headAt, finds.current, finds.load, bind, Except.bind, Except.mapError]

/-- A working file that is there has been staged, if it can be. -/
theorem add_comes_of_present (finds : Finds root t mine head staging)
    (present : Worktree.contains root t file = true) {content : Bytes}
    (hread : Worktree.read root t file = .ok content) (printed : String) :
    ∃ t', add root file ⟨t, printed⟩ =
        (((standing root file t).add root file (.ok head) (some content)).1, ⟨t', printed⟩) ∧
      ComesTo root file ((standing root file t).add root file (.ok head) (some content)).2
        t t' := by
  have h := finds.intact
  obtain ⟨-, shows_⟩ := Staging.load_spec h.housed h.index finds.staging
  by_cases trackable : Trackable root file
  · obtain ⟨t', hrun, touch, kept, shows'⟩ := add_run_of_read False h trackable present hread
      finds.staging finds.current finds.load printed
    have told := getElem?_stageContent head staging file content
    have comes := ComesTo.of_shows file h kept.intact touch shows_ shows'
      (fun name other => by rw [(told name).1, if_neg other])
      (fun name other => by rw [(told name).2, if_neg other])
    rw [(told file).1, (told file).2, if_pos rfl, if_pos rfl] at comes
    rw [Standing.add_of_trackable _ trackable]
    exact ⟨t', hrun, comes⟩
  · -- what is tracked can be tracked
    have new : head.manifest[file]? ≠ some (Object.blobId content) := fun held =>
      trackable ((h.of_load finds.load).2.2.1.names file
        (NameMap.mem_iff_exists_getElem?.mpr ⟨_, held⟩))
    have outcome : (standing root file t).add root file (.ok head) (some content) =
        (.error (.refused (.stage file (stagedPlace .addition))), standing root file t) := by
      simp [Standing.add, new, trackable]
    rw [outcome]
    exact ⟨t, add_stops finds trackable present hread printed, ComesTo.unchanged h⟩

/-- **Staging a file as it is**, in an intact repository. -/
theorem add_comes (h : Intact root t) (file printed : String) :
    ∃ t', add root file ⟨t, printed⟩ =
        (((standing root file t).add root file (headAt root t) (foundAt root file t)).1,
          ⟨t', printed⟩) ∧
      ComesTo root file
        ((standing root file t).add root file (headAt root t) (foundAt root file t)).2 t t' := by
  obtain ⟨staging, hstaging, -⟩ := Staging.load_eq h.housed h.index
  cases present : Worktree.contains root t file with
  | false =>
    have found : foundAt root file t = none := by simp [foundAt, present]
    have contained : Action.read (fun t => .ok (Worktree.contains root t file)) ⟨t, printed⟩ =
        (.ok false, ⟨t, printed⟩) := read_run (by rw [present])
    rw [found]
    refine ⟨t, ?_, ComesTo.unchanged h⟩
    unfold add
    dsimp only
    rw [bind_run_ok contained, if_neg Bool.false_ne_true]
    rfl
  | true =>
    obtain ⟨content, hread⟩ := Worktree.read_of_contains present
    have found : foundAt root file t = some content := by
      rw [foundAt, if_pos present, hread]
      rfl
    rw [found]
    cases hhead : headAt root t with
    | error fault =>
      refine ⟨t, ?_, ComesTo.unchanged h⟩
      rw [add_of_present present hread hstaging, bind_run_error (by rw [headCommit_eq, hhead])]
      rfl
    | ok head =>
      obtain ⟨mine, finds⟩ := finds_of_headAt h hhead hstaging
      exact add_comes_of_present finds present hread printed

/-- A tracked file has been deleted, if it was there, and staged for removal. -/
theorem rm_comes_of_tracked (finds : Finds root t mine head staging) {blob : ObjectId}
    (tracked : head.manifest[file]? = some blob) (printed : String) :
    ∃ content t', Blobs.load root t blob = .ok content ∧
      rm root file ⟨t, printed⟩ = (.ok (), ⟨t', printed⟩) ∧
      ComesTo root file ⟨Standing.deleted (t.at? (file :: root)), none, stagedFile (some content)⟩
        t t' := by
  have h := finds.intact
  obtain ⟨-, shows_⟩ := Staging.load_spec h.housed h.index finds.staging
  obtain ⟨content, t₁, t', hload, hrun, gone, noFile, touch, kept, shows'⟩ :=
    rm_deletes False h finds.staging finds.current finds.load tracked printed
  have trackable := (h.of_load finds.load).2.2.1.names file
    (NameMap.mem_iff_exists_getElem?.mpr ⟨blob, tracked⟩)
  -- the working file goes first, and then the entry is staged
  have first := ComesTo.of_filesGone h trackable gone noFile
  have shows₁ : Shows root t₁ staging := shows_.of_touches
    (gone.touches (List.forall_mem_singleton.mpr trackable.notMeta)) (by simp)
  have second := ComesTo.of_shows file first.intact kept.intact touch shows₁ shows'
    (fun name other => by
      simp [Staging.remove, Staging.unstageAddition, Std.ExtTreeMap.getElem?_erase, other.symm])
    (fun name other => by
      simp [Staging.remove, Staging.unstageAddition, Std.ExtTreeMap.getElem?_insert, other.symm])
  have work : t₁.at? (file :: root) = Standing.deleted (t.at? (file :: root)) :=
    (Standing.mk.inj first.standing).1
  rw [work] at second
  refine ⟨content, t', hload, hrun, ?_⟩
  simpa [Staging.remove, Staging.unstageAddition] using first.trans second

/-- An untracked file is no longer staged, if it was. -/
theorem rm_comes_of_new (finds : Finds root t mine head staging)
    (new : head.manifest[file]? = none) (printed : String) :
    ∃ t', rm root file ⟨t, printed⟩ =
        (((standing root file t).rm (.ok none)).1, ⟨t', printed⟩) ∧
      ComesTo root file ((standing root file t).rm (.ok none)).2 t t' := by
  have h := finds.intact
  obtain ⟨-, shows_⟩ := Staging.load_spec h.housed h.index finds.staging
  have there : (standing root file t).addition = none ↔ file ∉ staging.additions := by
    rw [shows_.standing_eq h.index, stagedFile_eq_none, NameMap.mem_iff_exists_getElem?,
      Option.eq_none_iff_forall_ne_some, not_exists]
  by_cases added : file ∈ staging.additions
  · obtain ⟨t', hrun, touch, index, shows'⟩ :=
      rm_unstages h finds.staging finds.current finds.load new added printed
    have kept : Kept False root t t' :=
      Kept.of_touches h touch index (by simp) (by simp) (by simp)
    have comes := ComesTo.of_shows file h kept.intact touch shows_ shows'
      (fun name other => by
        simp [Staging.unstageAddition, Std.ExtTreeMap.getElem?_erase, other.symm])
      (fun name _ => rfl)
    rw [Standing.rm, if_neg (there.not_left.mpr added)]
    refine ⟨t', hrun, ?_⟩
    simpa [Staging.unstageAddition, shows_.standing_eq h.index] using comes
  · rw [Standing.rm, if_pos (there.mpr added)]
    exact ⟨t, rm_refuses finds new added printed, ComesTo.unchanged h⟩

/-- **Dropping a file**, in an intact repository. -/
theorem rm_comes (h : Intact root t) (file printed : String) :
    ∃ t', rm root file ⟨t, printed⟩ =
        (((standing root file t).rm (heldAt root file t)).1, ⟨t', printed⟩) ∧
      ComesTo root file ((standing root file t).rm (heldAt root file t)).2 t t' := by
  obtain ⟨staging, hstaging, -⟩ := Staging.load_eq h.housed h.index
  cases hhead : headAt root t with
  | error fault =>
    have held : heldAt root file t = .error fault := by rw [heldAt, hhead]; rfl
    rw [held]
    refine ⟨t, ?_, ComesTo.unchanged h⟩
    unfold rm
    rw [bind_run_ok (read_run hstaging), bind_run_error (by rw [headCommit_eq, hhead])]
    rfl
  | ok head =>
    obtain ⟨mine, finds⟩ := finds_of_headAt h hhead hstaging
    cases htracked : head.manifest[file]? with
    | some blob =>
      obtain ⟨content, t', hload, hrun, comes⟩ := rm_comes_of_tracked finds htracked printed
      have held : heldAt root file t = .ok (some content) := by
        simp [heldAt, hhead, htracked, hload, bind, Except.bind, Except.mapError, Except.map]
      rw [held]
      exact ⟨t', hrun, comes⟩
    | none =>
      have held : heldAt root file t = .ok none := by
        simp [heldAt, hhead, htracked, bind, Except.bind]
      rw [held]
      exact rm_comes_of_new finds htracked printed

end Command

/-! ## 4. What it depends on -/

section Congr

variable (h : Intact root t) (h' : Intact root t')
  (touch : Touches root [.work, .index .addition, .index .removal] t t')

include h h' touch

theorem headAt_congr : headAt root t' = headAt root t := by
  have loads (id : ObjectId) : Commits.load root t' id = Commits.load root t id :=
    Commits.load_congr h.housed.free h'.housed.free (touch.at?_eq Area.holds_object (by simp))
  simp only [headAt, Branches.current_congr h.housed h'.housed touch (by simp) (by simp), loads]

theorem heldAt_congr (file : String) : heldAt root file t' = heldAt root file t := by
  have loads (id : ObjectId) : Blobs.load root t' id = Blobs.load root t id :=
    Blobs.load_congr h.housed.free h'.housed.free (touch.at?_eq Area.holds_object (by simp))
  simp only [heldAt, headAt_congr h h' touch, loads]

omit touch in
/-- A name without slashes stands for its own working file only. -/
theorem foundAt_congr (noSlash : '/' ∉ file.toList)
    (same : t'.at? (file :: root) = t.at? (file :: root)) :
    foundAt root file t' = foundAt root file t := by
  have same' : ∀ name, Worktree.fileName? file = some name →
      t'.at? (name :: root) = t.at? (name :: root) := by
    intro name named
    have steps := (Worktree.names_of_fileName? named).steps
    rw [segmentsOf_of_noSlash noSlash] at steps
    have step : .text name ∈ [FileName.text file].filter Route.goes := by simp [steps]
    obtain rfl := FileName.text.inj (List.mem_singleton.mp (List.mem_filter.mp step).1)
    exact same
  rw [foundAt, foundAt, Worktree.contains_congr h.housed.free h'.housed.free same',
    Worktree.read_congr h.housed.free h'.housed.free same']

end Congr

end LocalVcs
