/-
# Starting a repository

A repository is started in a working directory that has none.  What comes about is intact: its
directories stand and are empty, but for the first commit and the branch `master` that is current
and stands for it.

* `Startable`: the places where a repository can be started.
* `Command.StartingSteps`: the steps of a start; `Command.StartingSteps.begun`: what they lead to.
* `Command.init_run`: starting one there succeeds; `Command.startable_of_init`: nowhere else.
* `Begun`, `Command.begun_of_init`: what has come about.
-/
import LocalVcs.Command.Init
import LocalVcs.Proofs.Commands.Reading

namespace LocalVcs

open FileTree Layout

variable {root : Path} {t t' : FileTree}

/-! ## 1. The directories -/

/-- A working directory without links in which a repository can be started: nothing stands in its
place, and there is room for the paths of objects. -/
structure Startable (root : Path) (t : FileTree) : Prop where
  free : t.LinkFree root
  standing : t.at? root = some .dir
  fresh : t.at? (metaPath root) = none
  room : Route.bytesOf root + 58 ≤ Route.longest

/-- While a repository is being started nothing but a few directories are in its place. -/
structure Bare (root : Path) (t : FileTree) : Prop where
  free : t.LinkFree root
  standing : t.at? root = some .dir
  dirs : ∀ p e, metaPath root <:+ p → t.at? p = some e → e = .dir ∧ p ∈ skeleton root

theorem Startable.bare (h : Startable root t) : Bare root t where
  free := h.free
  standing := h.standing
  dirs p e below hat := by
    by_cases hp : p = metaPath root
    · simp [hp, h.fresh] at hat
    · have := at?_eq_dir_of_suffix hat below (Ne.symm hp)
      simp [h.fresh] at this

/-- On the way to a directory that every repository has there are such directories only. -/
theorem mem_skeleton_of_suffix {dir p : Path} (hdir : dir ∈ skeleton root) (onWay : p <:+ dir)
    (below : metaPath root <:+ p) : p ∈ skeleton root := by
  have notAbove : ¬p <:+ root := fun hp =>
    absurd (below.trans hp).length_le (by simp [metaPath])
  simp only [skeleton, List.mem_cons, List.not_mem_nil, or_false] at hdir ⊢
  rcases hdir with rfl | rfl | rfl | rfl | rfl | rfl | rfl | rfl <;>
    simp only [branchesPath, stagedPath, storePath, metaPath, List.suffix_cons_iff, notAbove,
      or_false] at onWay ⊢ <;> tauto

/-- The directories that every repository has can be made. -/
theorem Bare.makeDirs_run (h : Bare root t) {names : List FileName}
    (valid : ∀ n ∈ names, ValidName n) (starts : [FileName.text metaName] <+: names)
    (hdir : names.reverse ++ root ∈ skeleton root)
    (room : Route.bytesOf root + Route.bytesOf names ≤ Route.longest) :
    ∃ t', t.makeDirs ⟨root, names⟩ = (true, t') ∧ Bare root t' ∧
      t'.at? (names.reverse ++ root) = some .dir ∧
      (∀ p, t.at? p = some .dir → t'.at? p = some .dir) ∧
      ∀ p, ¬metaPath root <:+ p → t'.at? p = t.at? p := by
  have tell := tell_of_names valid room
  have level := level_of_names valid
  have hpath : (Route.mk root names).path = names.reverse ++ root := path_of_names names valid
  have hsteps : (Route.mk root names).steps = names :=
    List.filter_eq_self.mpr fun n hn => Route.goes_of_validName (valid n hn)
  obtain ⟨rest, rfl⟩ := starts
  have hreverse : ([FileName.text metaName] ++ rest).reverse ++ root =
      rest.reverse ++ metaPath root := by simp [metaPath]
  -- the way from the working directory on leads into the repository at once
  have into : ∀ p, root <:+ p → p <:+ rest.reverse ++ metaPath root → p ≠ root →
      metaPath root <:+ p := by
    intro p above onWay other
    rcases List.suffix_or_suffix_of_suffix onWay (List.suffix_append _ _) with hlt | hlt
    · rcases List.suffix_cons_iff.mp hlt with heq | hlt
      · exact heq ▸ List.suffix_refl _
      · exact absurd (hlt.eq_of_length_le above.length_le) other
    · exact hlt
  have made := makeDirs_succeeds (t := t) (r := ⟨root, [FileName.text metaName] ++ rest⟩) h.free
    level tell h.standing (by rw [hsteps]; exact valid) (fun p above onWay => by
      rw [hpath, hreverse] at onWay
      cases hat : t.at? p with
      | none => exact Or.inl rfl
      | some e =>
        right
        by_cases other : p = root
        · rw [← hat, other, h.standing]
        · rw [(h.dirs p e (into p above onWay other) hat).1])
  have spec := makeDirs_spec (t := t) (r := ⟨root, [FileName.text metaName] ++ rest⟩) h.free level
  generalize t.makeDirs ⟨root, [FileName.text metaName] ++ rest⟩ = result at made spec
  obtain ⟨done, t'⟩ := result
  obtain rfl : done = true := made.1
  rw [hpath] at made spec
  refine ⟨t', rfl, ⟨spec.linkFree h.free, ?_, fun p e below hat => ?_⟩, made.2,
    fun p => spec.at?_of_some, fun p away => ?_⟩
  · rw [spec.at?_eq (by simp), h.standing]
  · rcases spec p with same | ⟨-, hmade, -, -, onWay⟩
    · rw [same] at hat
      exact h.dirs p e below hat
    · exact ⟨by simpa [hmade] using hat.symm, mem_skeleton_of_suffix hdir onWay below⟩
  · rcases spec p with same | ⟨-, -, above, other, onWay⟩
    · exact same
    · exact absurd (into p above (hreverse ▸ onWay) other) away

/-! ## 2. What has come about -/

/-- From `t` to `t'` a repository has been started, in which nothing is staged, nothing but the
first commit is stored, and `master` is the only branch; outside its own directory nothing has
changed. -/
structure Begun (root : Path) (t t' : FileTree) : Prop where
  intact : Intact root t'
  head : HeadStands root t'
  stored : CommitStored root t' Commit.initial
  objects : ∀ kind id encoding, Stored root t' kind id encoding →
    kind = .commit ∧ id = Commit.initial.id ∧ encoding = Commit.initial.encoding
  branches : ∀ p e, branchesPath root <:+ p → t'.at? p = some e →
    p = branchesPath root ∨ p = branchPath root BranchName.master
  current : Branches.current root t' = .ok ⟨BranchName.master, Commit.initial.id⟩
  index : Shows root t' Staging.empty
  frame : ∀ p, ¬metaPath root <:+ p → t'.at? p = t.at? p

theorem sound_initial (root : Path) (t : FileTree) : Sound root t Commit.initial where
  names name h := by simp [Commit.initial] at h
  blobs name blob h := by simp [Commit.initial] at h
  whole := by decide

theorem plain_master : PlainName BranchName.master.text :=
  .of_checks (by decide) (by decide)

theorem branchPath_master (root : Path) :
    branchPath root BranchName.master = .text "master" :: branchesPath root := by
  rw [plain_master.branchPath_eq, segmentsOf_of_noSlash (by decide)]
  rfl

namespace Bare

variable (h : Bare root t)

include h

theorem at?_eq_none {area : Area} {p : Path} (held : area.Holds root p) (inside : area ≠ .work) :
    t.at? p = none := by
  cases hat : t.at? p with
  | none => rfl
  | some e =>
    exact absurd (h.dirs p e ((Area.meta_suffix_of_ne_work root inside).trans held.below) hat).2
      held.off

theorem soundStores : SoundStores root t where
  dirs kind d e hat := by simp [h.at?_eq_none (Area.holds_objectDir kind d)] at hat
  blobs d f e hat := by simp [h.at?_eq_none (Area.holds_objectFile .blob d f)] at hat
  commits d f e hat := by simp [h.at?_eq_none (Area.holds_objectFile .commit d f)] at hat

theorem not_stored (kind : Kind) (id : ObjectId) (encoding : Bytes) :
    ¬Stored root t kind id encoding := by
  simp [Stored, h.at?_eq_none Area.holds_object]

theorem soundRefs : SoundRefs root t := fun p content below hat => by
  have inside : metaPath root <:+ branchesPath root := List.suffix_cons _ _
  have := (h.dirs p _ (inside.trans below) hat).1
  cases this

/-- No branch is there yet. -/
theorem eq_branchesPath {p : Path} {e : Entry} (below : branchesPath root <:+ p)
    (hat : t.at? p = some e) : p = branchesPath root := by
  by_contra other
  have held : Area.branches.Holds root p := Area.holds_of_below below other (by simp)
  simp [h.at?_eq_none held] at hat

/-- The first object that is saved is the only one. -/
theorem eq_of_saved {kind kind' : Kind} {id id' : ObjectId} {encoding encoding' : Bytes}
    (saved : Saved root kind id encoding t t') (stored : Stored root t' kind' id' encoding') :
    kind' = kind ∧ id' = id ∧ encoding' = encoding := by
  rcases saved.of_file stored with hold | ⟨hpath, hentry⟩
  · exact absurd hold (h.not_stored kind' id' encoding')
  · obtain rfl : kind' = kind := by
      cases kind <;> cases kind' <;> simp [objectPath, storePath, storeName] at hpath ⊢
    exact ⟨rfl, objectPath_injective hpath, by simpa using hentry⟩

end Bare

/-! ## 3. Starting -/

/-- The directories of a repository are made. -/
theorem makeAreas_run (h : Startable root t) :
    ∃ t₁ t₂ t₃ t₄ t₅, t.makeDirs (Layout.store root .blob) = (true, t₁) ∧
      t₁.makeDirs (Layout.store root .commit) = (true, t₂) ∧
      t₂.makeDirs (Layout.branches root) = (true, t₃) ∧
      t₃.makeDirs (Layout.staged root .addition) = (true, t₄) ∧
      t₄.makeDirs (Layout.staged root .removal) = (true, t₅) ∧ Bare root t₅ ∧ Housed root t₅ ∧
      ∀ p, ¬metaPath root <:+ p → t₅.at? p = t.at? p := by
  have room : ∀ {names : List FileName}, Route.bytesOf names ≤ 58 →
      Route.bytesOf root + Route.bytesOf names ≤ Route.longest :=
    fun hle => Nat.le_trans (Nat.add_le_add_left hle _) h.room
  obtain ⟨t₁, hrun₁, bare₁, dir₁, -, frame₁⟩ := h.bare.makeDirs_run
    (show ∀ n ∈ [FileName.text metaName, storeName .blob], ValidName n by decide)
    ⟨[storeName .blob], rfl⟩
    (by simp [skeleton, storePath, branchesPath, stagedPath, metaPath]) (room (by decide))
  obtain ⟨t₂, hrun₂, bare₂, dir₂, keep₂, frame₂⟩ := bare₁.makeDirs_run
    (show ∀ n ∈ [FileName.text metaName, storeName .commit], ValidName n by decide)
    ⟨[storeName .commit], rfl⟩
    (by simp [skeleton, storePath, branchesPath, stagedPath, metaPath]) (room (by decide))
  obtain ⟨t₃, hrun₃, bare₃, dir₃, keep₃, frame₃⟩ := bare₂.makeDirs_run
    (show ∀ n ∈ [FileName.text metaName, "branches"], ValidName n by decide) ⟨["branches"], rfl⟩
    (by simp [skeleton, storePath, branchesPath, stagedPath, metaPath]) (room (by decide))
  obtain ⟨t₄, hrun₄, bare₄, dir₄, keep₄, frame₄⟩ := bare₃.makeDirs_run
    (show ∀ n ∈ [FileName.text metaName, "index", stagedName .addition], ValidName n by decide)
    ⟨["index", stagedName .addition], rfl⟩
    (by simp [skeleton, storePath, branchesPath, stagedPath, metaPath]) (room (by decide))
  obtain ⟨t₅, hrun₅, bare₅, dir₅, keep₅, frame₅⟩ := bare₄.makeDirs_run
    (show ∀ n ∈ [FileName.text metaName, "index", stagedName .removal], ValidName n by decide)
    ⟨["index", stagedName .removal], rfl⟩
    (by simp [skeleton, storePath, branchesPath, stagedPath, metaPath]) (room (by decide))
  refine ⟨t₁, t₂, t₃, t₄, t₅, hrun₁, hrun₂, hrun₃, hrun₄, hrun₅, bare₅,
    ⟨bare₅.free, h.room, ?_⟩, ?_⟩
  · intro p hp
    -- every directory of the skeleton has been made, or stands on the way to one
    have above : t₅.at? ("index" :: metaPath root) = some .dir :=
      at?_eq_dir_of_suffix dir₅ (List.suffix_cons _ _) (Area.ne_of_longer (Nat.lt_succ_self _)).symm
    have top : t₅.at? (metaPath root) = some .dir :=
      at?_eq_dir_of_suffix above (List.suffix_cons _ _)
        (Area.ne_of_longer (Nat.lt_succ_self _)).symm
    simp only [skeleton, List.mem_cons, List.not_mem_nil, or_false] at hp
    rcases hp with rfl | rfl | rfl | rfl | rfl | rfl | rfl | rfl
    · exact bare₅.standing
    · exact top
    · exact keep₅ _ (keep₄ _ dir₃)
    · exact above
    · exact keep₅ _ dir₄
    · exact dir₅
    · exact keep₅ _ (keep₄ _ (keep₃ _ (keep₂ _ dir₁)))
    · exact keep₅ _ (keep₄ _ (keep₃ _ dir₂))
  · intro p away
    rw [frame₅ p away, frame₄ p away, frame₃ p away, frame₂ p away, frame₁ p away]

namespace Command

open LocalVcs.Action

theorem isInitialized_eq (free : t.LinkFree root) (room : Route.bytesOf root + 58 ≤ Route.longest) :
    isInitialized root t = decide (t.at? (metaPath root) = some .dir) := by
  have straight : Straight t (metaDir root) :=
    straight_of_names [FileName.text metaName] free (by decide) (by simp)
      (Nat.le_trans (Nat.add_le_add_left (by decide) _) room)
  rw [isInitialized, straight.isDir_eq, path_metaDir]

theorem isInitialized_run {answer : Bool} {printed : String} (h : isInitialized root t = answer) :
    Action.read (fun t => .ok (isInitialized root t)) ⟨t, printed⟩ = (.ok answer, ⟨t, printed⟩) :=
  read_run (by rw [h])

/-- What starting a repository goes through from `t` to `t'`: its directories stand in `t₁`, the
first commit is saved by `t₂`, and then `master` and `HEAD` are written. -/
structure StartingSteps (root : Path) (t t₁ t₂ t' : FileTree) : Prop where
  bare : Bare root t₁
  housed : Housed root t₁
  away : ∀ p, ¬metaPath root <:+ p → t₁.at? p = t.at? p
  saved : Saved root .commit Commit.initial.id Commit.initial.encoding t₁ t₂
  last : Touches root [.branches, .head] t₂ t'
  tell : (Branches.route root BranchName.master).CanTell
  moved : Moved root BranchName.master Commit.initial.id t₁ t'
  head : t'.at? (headPath root) = some (.file (.plain (Bytes.ofText BranchName.master.text)))

/-- The steps of a start succeed, one after the other. -/
theorem starting_run (h : Startable root t) (printed : String) :
    ∃ t₁ t₂ t', init root ⟨t, printed⟩ = (.ok (), ⟨t', printed⟩) ∧
      StartingSteps root t t₁ t₂ t' := by
  have absent : isInitialized root t = false := by
    rw [isInitialized_eq h.free h.room, h.fresh]; rfl
  obtain ⟨t₁, t₂, t₃, t₄, t₅, hrun₁, hrun₂, hrun₃, hrun₄, hrun₅, bare, housed₅, frame₅⟩ :=
    makeAreas_run h
  -- the first commit
  obtain ⟨t₆, hrun₆, saved⟩ := Store.save_run housed₅ (bare.soundStores.dirs .commit)
    Commit.initial.id Commit.initial.encoding printed
  have housed₆ := housed₅.of_touches saved.touches
  -- its branch
  have tell : (Branches.route root BranchName.master).CanTell := by
    rw [Branches.route_eq]
    exact tell_of_names (by decide) (Nat.le_trans (Nat.add_le_add_left (by decide) _) h.room)
  have can : t₆.CanPlace (branchPath root BranchName.master) := by
    have held := Branches.holds_branchPath root BranchName.master
    have absent : t₆.at? (branchPath root BranchName.master) = none := by
      rw [saved.touches.at?_eq held (by simp), bare.at?_eq_none held (by simp)]
    rw [branchPath_master] at absent ⊢
    exact ⟨by decide, housed₆.at?_branches, by simp [absent]⟩
  obtain ⟨t₇, hrun₇, touch₇, placed₇⟩ :=
    Branches.save_run housed₆ tell can Commit.initial.id printed
  -- HEAD
  have noHead : t₇.at? (headPath root) ≠ some .dir := by
    rw [touch₇.at?_eq Area.holds_head (by simp), saved.touches.at?_eq Area.holds_head (by simp),
      bare.at?_eq_none Area.holds_head (by simp)]
    simp
  obtain ⟨t₈, hrun₈, touch₈, placed₈⟩ :=
    Branches.setHead_run (housed₆.of_touches touch₇) noHead BranchName.master printed
  have moved : Moved root BranchName.master Commit.initial.id t₅ t₈ := by
    intro p below
    rw [touch₈.at?_below_branches (by simp) below, placed₇,
      saved.touches.at?_below_branches (by simp) below]
  have hsave : Commits.save root Commit.initial ⟨t₅, printed⟩ = (.ok (), ⟨t₆, printed⟩) := hrun₆
  refine ⟨t₅, t₆, t₈, ?_, bare, housed₅, frame₅, saved,
    (touch₇.mono (by simp)).trans (touch₈.mono (by simp)), tell, moved, by rw [placed₈, if_pos rfl]⟩
  unfold init
  dsimp only
  rw [bind_run_ok (isInitialized_run absent), if_neg Bool.false_ne_true,
    bind_run_ok (makeDirs_run_ok hrun₁), bind_run_ok (makeDirs_run_ok hrun₂),
    bind_run_ok (makeDirs_run_ok hrun₃), bind_run_ok (makeDirs_run_ok hrun₄),
    bind_run_ok (makeDirs_run_ok hrun₅), bind_run_ok (orFault_run_ok hsave), bind_run_ok hrun₇]
  exact orFault_run_ok hrun₈

namespace StartingSteps

variable {t₁ t₂ : FileTree} (steps : StartingSteps root t t₁ t₂ t')

include steps

theorem stores : SoundStores root t' :=
  (steps.bare.soundStores.save_commit (sound_initial root t₁) (Or.inl rfl) steps.saved).of_touches
    steps.last (by simp)

theorem stored : CommitStored root t' Commit.initial := by
  have there : CommitStored root t₂ Commit.initial :=
    ⟨(sound_initial root t₁).readable, SoundStores.stored_of_saved steps.saved
      (steps.bare.at?_eq_none Area.holds_object (by simp))⟩
  exact there.mono (steps.last.sameObjects (by simp)).grows

theorem refs : SoundRefs root t' := by
  have objects : SameObjects root t₂ t' := steps.last.sameObjects (by simp)
  exact steps.moved.soundRefs steps.bare.soundRefs (steps.saved.grows.trans objects.grows)
    steps.stored steps.tell

theorem nothing_staged (what : Staged) (name : FileName) :
    t'.at? (name :: stagedPath root what) = none := by
  rw [steps.last.at?_eq (holds_staged what name) (by simp),
    steps.saved.touches.at?_eq (holds_staged what name) (by simp),
    steps.bare.at?_eq_none (holds_staged what name) (by simp)]

theorem intact : Intact root t' where
  housed := (steps.housed.of_touches steps.saved.touches).of_touches steps.last
  stores := steps.stores
  index what name e hat := by simp [steps.nothing_staged] at hat
  refs := steps.refs
  head := by simp [steps.head]

theorem frame {p : Path} (away : ¬metaPath root <:+ p) : t'.at? p = t.at? p := by
  have outside : ∀ {area : Area}, area ≠ .work → ¬area.Holds root p := fun inside held =>
    away ((Area.meta_suffix_of_ne_work root inside).trans held.below)
  rw [steps.last.frame p fun area hmem => outside (by rintro rfl; simp at hmem),
    steps.saved.touches.frame p fun area hmem => outside (by rintro rfl; simp at hmem),
    steps.away p away]

theorem begun : Begun root t t' where
  intact := steps.intact
  head := ⟨BranchName.master, plain_master, steps.head, _,
    by rw [steps.moved _ (Branches.below_branchPath root _), if_pos rfl]⟩
  stored := steps.stored
  objects _ _ _ stored :=
    steps.bare.eq_of_saved steps.saved ((steps.last.sameObjects (by simp)).stored_iff.mp stored)
  branches p e below hat := by
    rw [steps.moved p below] at hat
    split at hat
    · rename_i hp
      exact Or.inr hp
    · exact Or.inl (steps.bare.eq_branchesPath below hat)
  current := Branches.current_of_head
    (HeadStands.head_eq steps.intact.housed plain_master steps.head)
    (steps.moved.get?_self steps.intact.housed steps.refs steps.tell)
  index := by constructor <;> intro name bytes <;> simp [Staging.empty, steps.nothing_staged]
  frame _ := steps.frame

end StartingSteps

/-- **Starting a repository succeeds** where one can be started. -/
theorem init_run (h : Startable root t) (printed : String) :
    ∃ t', init root ⟨t, printed⟩ = (.ok (), ⟨t', printed⟩) ∧ Begun root t t' := by
  obtain ⟨t₁, t₂, t', hrun, steps⟩ := starting_run h printed
  exact ⟨t', hrun, steps.begun⟩

/-- In a repository none is started. -/
theorem init_of_intact (h : Intact root t) (printed : String) :
    init root ⟨t, printed⟩ = (.error (.user .alreadyInitialized), ⟨t, printed⟩) := by
  have present : isInitialized root t = true := by
    rw [isInitialized_eq h.housed.free h.housed.room, h.housed.at?_meta]; rfl
  unfold init
  dsimp only
  rw [bind_run_ok (isInitialized_run present), if_pos rfl]
  rfl

theorem tell_of_save {kind : Kind} {id : ObjectId} {encoding : Bytes} {w w' : World}
    (h : Store.save root kind id encoding w = (.ok (), w')) :
    (Layout.object root kind id).CanTell := by
  by_contra hno
  obtain ⟨t, printed⟩ := w
  have absent : t.exists? (Layout.object root kind id) = false := Branches.exists?_of_not_tell hno
  have hread : Action.read (fun t => .ok (t.exists? (Layout.object root kind id))) ⟨t, printed⟩ =
      (.ok false, ⟨t, printed⟩) := read_run (by rw [absent])
  unfold Store.save at h
  rw [bind_run_ok hread, if_neg Bool.false_ne_true] at h
  obtain ⟨_, ⟨t₁, printed₁⟩, -, hedit⟩ := of_bind_ok h
  have refused : t₁.replace? (Layout.object root kind id) (.packed encoding) = none := by
    cases hentry : t₁.locateEntry (Layout.object root kind id) with
    | none => rw [replace?, hentry]; rfl
    | some q => exact absurd (Branches.tell_of_locateEntry hentry) hno
  simp only [Action.edit, refused] at hedit
  cases hedit

/-- **A repository is started nowhere else.** -/
theorem startable_of_init (free : t.LinkFree root) {printed : String} {w' : World}
    (h : init root ⟨t, printed⟩ = (.ok (), w')) : Startable root t := by
  unfold init at h
  dsimp only at h
  obtain ⟨answer, w₀, hanswer, h⟩ := of_bind_ok h
  obtain ⟨hans, rfl⟩ := Prod.mk.inj hanswer
  cases answer with
  | true => cases h
  | false =>
    rw [if_neg Bool.false_ne_true] at h
    obtain ⟨_, w₁, hmake₁, h⟩ := of_bind_ok h
    obtain ⟨_, w₂, -, h⟩ := of_bind_ok h
    obtain ⟨_, w₃, -, h⟩ := of_bind_ok h
    obtain ⟨_, w₄, -, h⟩ := of_bind_ok h
    obtain ⟨_, w₅, -, h⟩ := of_bind_ok h
    obtain ⟨_, w₆, hsave, -⟩ := of_bind_ok h
    have room : Route.bytesOf root + 58 ≤ Route.longest := by
      have tell := (tell_of_save (of_orFault_ok hsave)).1
      have bytes : Route.bytesOf (Layout.object root .commit Commit.initial.id).segments = 58 := by
        have : (Layout.object root .commit Commit.initial.id).segments = [FileName.text metaName,
          storeName .commit, Commit.initial.id.directory, Commit.initial.id.fileName] := rfl
        rw [this]
        simp only [Route.bytesOf, FileName.size_text, ObjectId.utf8ByteSize_directory,
          ObjectId.utf8ByteSize_fileName]
        decide
      rwa [bytes] at tell
    have noRepository : t.at? (metaPath root) ≠ some .dir := by
      have absent := Except.ok.inj hans
      rw [isInitialized_eq free room] at absent
      simpa using absent
    have made := of_makeDirs_ok hmake₁
    have level : (".." : FileName) ∉ [FileName.text metaName, storeName .blob] := by decide
    have spec := makeDirs_spec (r := Layout.store root .blob) free level
    have dir := (dir_of_makeDirs (r := Layout.store root .blob) free level made).2
    rw [made, path_store] at spec
    rw [path_store] at dir
    have top : w₁.tree.at? (metaPath root) = some .dir :=
      at?_eq_dir_of_suffix dir (List.suffix_cons _ _) (Area.ne_of_longer (Nat.lt_succ_self _)).symm
    have standing : w₁.tree.at? root = some .dir :=
      at?_eq_dir_of_suffix top (List.suffix_cons _ _) (Area.ne_of_longer (Nat.lt_succ_self _)).symm
    refine ⟨free, ?_, ?_, room⟩
    · rw [← spec.at?_eq (p := root) (fun made => made.2 rfl)]
      exact standing
    · rcases spec (metaPath root) with same | ⟨hnone, -⟩
      · exact absurd (same ▸ top) noRepository
      · exact hnone

/-- What a start that succeeds has made. -/
theorem begun_of_init (free : t.LinkFree root) {printed : String} {w' : World}
    (h : init root ⟨t, printed⟩ = (.ok (), w')) : Begun root t w'.tree := by
  obtain ⟨t', hrun, begun⟩ := init_run (startable_of_init free h) printed
  obtain rfl := (Prod.mk.inj (h.symm.trans hrun)).2
  exact begun

end Command

end LocalVcs
