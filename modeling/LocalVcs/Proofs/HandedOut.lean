/-
# What the stores hand out

An object's file may hold anything: someone may have cut it short, put it in the place of another or
written it by hand.  A commit that is read from such a file is told by its own digest, and one that
the id does not name is refused.  For blobs there is no such check: contents are handed out under
the id of the file they lie in, whatever their digest is.

* `Commits.get?_eq_some_iff`, `Blobs.get?_eq_some_iff`: what is handed out, in terms of the file.
* `Store.encoding?_of_planted`: what is written into an object's file from outside is what is read.
* `Store.hands_out`: commits are what their ids name; blobs are whatever has been put there.
* `Laid.handed_out_unnamed`: contents under the id of others.
-/
import LocalVcs.Proofs.SavedObjects
import LocalVcs.Proofs.Subdirectories

namespace LocalVcs

open FileTree Layout

variable {root : Path} {t : FileTree} {id : ObjectId}

/-! ## 1. Reading a file -/

/-- A commit is handed out when the file reads as that commit and its digest is the id. -/
theorem Commits.get?_eq_some_iff {c : Commit} : Commits.get? root t id = .ok (some c) ↔
    ∃ encoding, Store.encoding? root .commit t id = .ok (some encoding) ∧
      Object.ofEncoding? encoding = .ok (.commit c) ∧ ObjectId.ofEncoding c.encoding = id := by
  rw [Commits.get?]
  rcases Store.encoding? root .commit t id with e | _ | encoding
  · simp [bind, Except.bind]
  · simp [bind, Except.bind, pure, Except.pure]
  · simp only [bind, Except.bind, Except.ok.injEq, Option.some.injEq, exists_eq_left',
      Object.ofEncoding?, ← Commit.id_eq]
    rcases Kind.readHeader encoding with ⟨_ | _ | _, body⟩
    · simp
    · simp [throw, throwThe, MonadExceptOf.throw]
    · dsimp only
      cases Commit.ofBody? body with
      | error e => simp [Except.map]
      | ok c' =>
        by_cases named : c'.id = id
        · simp only [named, ↓reduceIte, pure, Except.pure, Except.ok.injEq, Option.some.injEq,
            Except.map, Object.commit.injEq, iff_self_and]
          exact fun same => same ▸ named
        · simp only [named, ↓reduceIte, throw, throwThe, MonadExceptOf.throw, reduceCtorEq,
            Except.map, Except.ok.injEq, Object.commit.injEq, false_iff, not_and]
          exact fun same => same ▸ named

/-- Contents are handed out when the file reads as a blob with them; the id plays no part. -/
theorem Blobs.get?_eq_some_iff {content : Bytes} : Blobs.get? root t id = .ok (some content) ↔
    ∃ encoding, Store.encoding? root .blob t id = .ok (some encoding) ∧
      Object.ofEncoding? encoding = .ok (.blob content) := by
  rw [Blobs.get?]
  rcases Store.encoding? root .blob t id with e | _ | encoding
  · simp [bind, Except.bind]
  · simp [bind, Except.bind, pure, Except.pure]
  · simp only [bind, Except.bind, Except.ok.injEq, Option.some.injEq, exists_eq_left',
      Object.ofEncoding?]
    rcases Kind.readHeader encoding with ⟨_ | _ | _, body⟩
    · simp
    · simp [pure, Except.pure]
    · dsimp only
      cases Commit.ofBody? body <;> simp [Except.map, throw, throwThe, MonadExceptOf.throw]

/-- To load an object is to be handed it out. -/
theorem Commits.get?_of_load {c : Commit} (h : Commits.load root t id = .ok c) :
    Commits.get? root t id = .ok (some c) := by
  rw [Commits.load] at h
  rcases hget : Commits.get? root t id with damage | _ | found
  · simp [hget, bind, Except.bind] at h
  · simp [hget, bind, Except.bind, throw, throwThe, MonadExceptOf.throw] at h
  · simpa [hget, bind, Except.bind, pure, Except.pure] using h

theorem Blobs.get?_of_load {content : Bytes} (h : Blobs.load root t id = .ok content) :
    Blobs.get? root t id = .ok (some content) := by
  rw [Blobs.load] at h
  rcases hget : Blobs.get? root t id with damage | _ | found
  · simp [hget, bind, Except.bind] at h
  · simp [hget, bind, Except.bind, throw, throwThe, MonadExceptOf.throw] at h
  · simpa [hget, bind, Except.bind, pure, Except.pure] using h

/-! ## 2. Writing into a file -/

/-- What is written into an object's file from outside is what is read from it. -/
theorem Store.encoding?_of_planted {kind : Kind} {old : Content} (clear : Clear root t)
    (hat : t.at? (objectPath root kind id) = some (.file old)) (encoding : Bytes) :
    ∃ t', t.place? (objectPath root kind id) (.file (.packed encoding)) = some t' ∧
      Store.encoding? root kind t' id = .ok (some encoding) := by
  obtain ⟨t', hplace⟩ :
      ∃ t', t.place? (objectPath root kind id) (.file (.packed encoding)) = some t' :=
    ⟨_, dif_pos (canPlace_of_file hat)⟩
  have clear' : Clear root t' := ⟨clear.free.of_place? hplace (by simp), clear.room⟩
  refine ⟨t', hplace, (encoding?_eq_some_iff clear').mpr ?_⟩
  rw [Stored, at?_place? hplace, if_pos rfl]

/-- **A store of commits hands out what its ids name, a store of blobs what lies in its files.**  A
commit is handed out for an id exactly when the id's file reads as a commit whose encoding has the
id as its digest; another commit that someone writes into that file is told from it and refused.
Contents are handed out for an id exactly when the id's file reads as a blob with them: they are
what the id names where the file is as the store would have written it and has the id as its digest,
but whatever someone writes into the file, framed as a blob, is handed out as well. -/
theorem Store.hands_out (root : Path) (t : FileTree) (id : ObjectId) :
    (∀ c, Commits.get? root t id = .ok (some c) ↔
      ∃ encoding, Store.encoding? root .commit t id = .ok (some encoding) ∧
        Object.ofEncoding? encoding = .ok (.commit c) ∧ ObjectId.ofEncoding c.encoding = id) ∧
    (∀ content, Blobs.get? root t id = .ok (some content) ↔
      ∃ encoding, Store.encoding? root .blob t id = .ok (some encoding) ∧
        Object.ofEncoding? encoding = .ok (.blob content)) ∧
    (∀ written, Store.encoding? root .blob t id = .ok (some (Object.blobEncoding written)) →
      ∀ content, Blobs.get? root t id = .ok (some content) →
        (ObjectId.ofEncoding (Object.blobEncoding content) = id ↔
          ObjectId.ofEncoding (Object.blobEncoding written) = id)) ∧
    (Clear root t → ∀ old,
      (t.at? (objectPath root .commit id) = some (.file old) →
        ∀ c : Commit, c.Readable → c.id ≠ id →
          ∃ t', t.place? (objectPath root .commit id) (.file (.packed c.encoding)) = some t' ∧
            Commits.get? root t' id = .error (.mismatch id c.id)) ∧
      (t.at? (objectPath root .blob id) = some (.file old) →
        ∀ content, ∃ t', t.place? (objectPath root .blob id)
            (.file (.packed (Object.blobEncoding content))) = some t' ∧
          Blobs.get? root t' id = .ok (some content))) := by
  refine ⟨fun c => Commits.get?_eq_some_iff, fun content => Blobs.get?_eq_some_iff, ?_, ?_⟩
  · intro written hwritten content hget
    obtain ⟨encoding, hencoding, hread⟩ := Blobs.get?_eq_some_iff.mp hget
    obtain rfl : Object.blobEncoding written = encoding := by simpa [hwritten] using hencoding
    have hwritten : Object.ofEncoding? (Object.blob written).encoding = .ok (.blob content) := hread
    rw [Object.ofEncoding?_encoding (by trivial)] at hwritten
    cases hwritten
    exact Iff.rfl
  · intro clear old
    constructor
    · intro hat c readable other
      obtain ⟨t', hplace, hencoding⟩ := Store.encoding?_of_planted clear hat c.encoding
      refine ⟨t', hplace, ?_⟩
      rw [Commits.get?, hencoding]
      simp [bind, Except.bind, Commit.encoding, Kind.readHeader_frame, readable.ofBody?_body, other,
        throw, throwThe, MonadExceptOf.throw]
    · intro hat content
      obtain ⟨t', hplace, hencoding⟩ :=
        Store.encoding?_of_planted clear hat (Object.blobEncoding content)
      exact ⟨t', hplace, Blobs.get?_eq_some_iff.mpr
        ⟨_, hencoding, Object.ofEncoding?_encoding (o := .blob content) (by trivial)⟩⟩

namespace Laid

/-- Where the store has the contents that the id names, others can be put in their place. -/
theorem handed_out_one : Clear [] housed ∧
    housed.at? (objectPath [] .blob blob) =
      some (.file (.packed (Object.blobEncoding (Bytes.ofText "one")))) ∧
    Blobs.get? [] housed blob = .ok (some (Bytes.ofText "one")) ∧
    ∃ t', housed.place? (objectPath [] .blob blob)
        (.file (.packed (Object.blobEncoding (Bytes.ofText "two")))) = some t' ∧
      Blobs.get? [] t' blob = .ok (some (Bytes.ofText "two")) := by
  have clear : Clear [] housed := ⟨linkFree_housed [], by decide⟩
  have stored : housed.at? (objectPath [] .blob blob) =
      some (.file (.packed (Object.blobEncoding (Bytes.ofText "one")))) := by
    decide +kernel
  have ⟨_, blobs, _, planted⟩ := Store.hands_out [] housed blob
  refine ⟨clear, stored, (blobs _).mpr ⟨_, (encoding?_eq_some_iff clear).mpr stored, ?_⟩,
    (planted clear _).2 stored _⟩
  exact Object.ofEncoding?_encoding (o := .blob _) (by trivial)

/-- Other contents lie in the file of the blob. -/
def swapped : FileTree :=
  tree [([FileName.text metaName], .dir), (storePath [] .blob, .dir),
    (blob.directory :: storePath [] .blob, .dir),
    (objectPath [] .blob blob, .file (.packed (Object.blobEncoding (Bytes.ofText "two"))))]

/-- **Not all that is handed out is what its id names**: the contents that lie in the file of others
are handed out under their id. -/
theorem handed_out_unnamed :
    Blobs.get? [] swapped blob = .ok (some (Bytes.ofText "two")) ∧
      ObjectId.ofEncoding (Object.blobEncoding (Bytes.ofText "two")) ≠ blob := by
  decide +kernel

end Laid

end LocalVcs
