/-
# Intact repositories

A repository is intact when its directories stand, and its stores, its staging area and its branches
are sound.  Most of what a command does touches the working files, the staging area or the branches
only, and leaves all objects as they are (`Kept`).

* `Intact`, `Kept`: the invariant, and what the edits of most commands keep.
* `Kept.of_touches`, `Kept.of_branches`, `Kept.setHead`: edits that keep it.
* `Intact.load_iff`, `Intact.loadBlob_iff`: what can be loaded.
-/
import LocalVcs.Proofs.Refs

namespace LocalVcs

open FileTree Layout

variable {root : Path} {t t' t'' : FileTree} {plain : Prop}

/-! ## 1. The invariant -/

/-- The directories of a repository stand, what lies in them is sound, and `HEAD` can be written. -/
structure Intact (root : Path) (t : FileTree) : Prop where
  housed : Housed root t
  stores : SoundStores root t
  index : SoundIndex root t
  refs : SoundRefs root t
  head : t.at? (headPath root) ≠ some .dir

/-- What every command keeps that records nothing.  The name that `HEAD` holds is known to be that
of a branch only where names are plain. -/
structure Kept (plain : Prop) (root : Path) (t t' : FileTree) : Prop where
  intact : Intact root t'
  objects : SameObjects root t t'
  head : plain → HeadStands root t → HeadStands root t'

namespace Kept

theorem refl (h : Intact root t) : Kept plain root t t := ⟨h, SameObjects.refl root t, fun _ h => h⟩

theorem trans (h : Kept plain root t t') (h' : Kept plain root t' t'') : Kept plain root t t'' :=
  ⟨h'.intact, h.objects.trans h'.objects, fun hp hs => h'.head hp (h.head hp hs)⟩

/-- Working files and the staging area may be touched. -/
theorem of_touches (h : Intact root t) {areas : List Area} (touch : Touches root areas t t')
    (index : SoundIndex root t') (store : ∀ kind, Area.store kind ∉ areas)
    (branches : Area.branches ∉ areas) (head : Area.head ∉ areas) : Kept plain root t t' where
  intact := ⟨h.housed.of_touches touch, h.stores.of_touches touch store, index,
    h.refs.of_touches touch (touch.sameObjects store).grows branches,
    by rw [touch.at?_eq Area.holds_head head]; exact h.head⟩
  objects := touch.sameObjects store
  head _ stands := stands.of_stay (touch.at?_eq Area.holds_head head) (touch.filesStay branches)

theorem of_work (h : Intact root t) (touch : Touches root [.work] t t') : Kept plain root t t' :=
  of_touches h touch (h.index.of_touches touch (by simp)) (by simp) (by simp) (by simp)

/-- Branches may be touched, as long as their files stay and hold ids of stored commits. -/
theorem of_branches (h : Intact root t) (touch : Touches root [.branches] t t')
    (refs : SoundRefs root t') (stay : FilesStay root t t') : Kept plain root t t' where
  intact := ⟨h.housed.of_touches touch, h.stores.of_touches touch (by simp),
    h.index.of_touches touch (by simp), refs, by
      rw [touch.at?_eq Area.holds_head (by simp)]; exact h.head⟩
  objects := touch.sameObjects (by simp)
  head _ stands := stands.of_stay (touch.at?_eq Area.holds_head (by simp)) stay

/-- `HEAD` may come to name another branch that is there. -/
theorem setHead (h : Intact root t) {name : BranchName} (touch : Touches root [.head] t t')
    (hhead : t'.at? (headPath root) = some (.file (.plain (Bytes.ofText name.text))))
    (hplain : plain → PlainName name.text) {content : Content}
    (hfile : t.at? (branchPath root name) = some (.file content)) : Kept plain root t t' where
  intact := ⟨h.housed.of_touches touch, h.stores.of_touches touch (by simp),
    h.index.of_touches touch (by simp),
    h.refs.of_touches touch (touch.sameObjects (by simp)).grows (by simp), by simp [hhead]⟩
  objects := touch.sameObjects (by simp)
  head hp _ := by
    refine ⟨name, hplain hp, hhead, content, ?_⟩
    rw [touch.at?_below_branches (by simp) (Branches.below_branchPath root name), hfile]

end Kept

/-! ## 2. Loading in an intact repository -/

namespace Intact

variable {id : ObjectId} {c : Commit} {content : Bytes}

theorem load_iff (h : Intact root t) :
    Commits.load root t id = .ok c ↔ c.id = id ∧ CommitStored root t c :=
  Commits.load_eq_ok_iff h.housed h.stores

theorem of_load (h : Intact root t) (hload : Commits.load root t id = .ok c) :
    c.id = id ∧ CommitStored root t c ∧ Sound root t c ∧ Rooted root t c.id := by
  obtain ⟨hid, stored⟩ := h.load_iff.mp hload
  exact ⟨hid, stored, h.stores.sound stored⟩

/-- What can be loaded can be loaded as long as no object goes. -/
theorem load_of_grows (h : Intact root t) (h' : Intact root t') (grows : Grows root t t')
    (hload : Commits.load root t id = .ok c) : Commits.load root t' id = .ok c := by
  obtain ⟨hid, stored, -, -⟩ := h.of_load hload
  exact h'.load_iff.mpr ⟨hid, stored.mono grows⟩

theorem loadBlob_iff (h : Intact root t) :
    Blobs.load root t id = .ok content ↔ Stored root t .blob id (Object.blobEncoding content) :=
  Blobs.load_eq_ok_iff h.housed h.stores

theorem of_loadBlob (h : Intact root t) (hload : Blobs.load root t id = .ok content) :
    Object.blobId content = id := by
  obtain ⟨content', hid, henc⟩ := h.stores.of_blob (h.loadBlob_iff.mp hload)
  have : content = content' := by
    have := congrArg Kind.readHeader henc
    simpa [Object.blobEncoding, Kind.readHeader_frame] using this
  rw [this, hid]

/-- Every blob of a stored commit can be loaded. -/
theorem loadBlob_of_tracked (h : Intact root t) (sound : Sound root t c) {name : String}
    (htracked : c.manifest[name]? = some id) :
    ∃ content, Blobs.load root t id = .ok content ∧ Object.blobId content = id := by
  obtain ⟨content, hid, stored⟩ := sound.blobs name id htracked
  exact ⟨content, h.loadBlob_iff.mpr stored, hid⟩

end Intact

end LocalVcs
