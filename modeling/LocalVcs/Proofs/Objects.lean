/-
# What lies in the stores

A store holds objects only, each in the file that its own digest names.  The blobs and the parents
of a stored commit are stored before it, and the first commit before all others: so every stored
commit can be loaded with all that belongs to it, and has no cycle behind it.

* `SoundStores`: this as a property of a file tree.
* `Commits.load_eq_ok_iff`, `Blobs.load_eq_ok_iff`: what is loaded is what is stored.
* `Store.mem_ids`: what a store lists.
* `Store.deposit_run`, `Store.save_run`: storing an object, which leaves alone what is stored
  already.
* `SoundStores.save_blob`, `SoundStores.save_commit`: the stores stay sound by that.
-/
import LocalVcs.Proofs.CommitText
import LocalVcs.Proofs.WorkingFiles
import LocalVcs.Store

namespace LocalVcs

open FileTree Layout

variable {root : Path} {t t' t'' : FileTree}

/-! ## 1. Stored objects -/

/-- An encoding lies in the file of an object. -/
def Stored (root : Path) (t : FileTree) (kind : Kind) (id : ObjectId) (encoding : Bytes) : Prop :=
  t.at? (objectPath root kind id) = some (.file (.packed encoding))

/-- What is stored in `t` is stored in `t'` too. -/
def Grows (root : Path) (t t' : FileTree) : Prop :=
  ∀ kind id encoding, Stored root t kind id encoding → Stored root t' kind id encoding

theorem Grows.trans (h : Grows root t t') (h' : Grows root t' t'') : Grows root t t'' :=
  fun kind id encoding hs => h' kind id encoding (h kind id encoding hs)

/-- The files of all objects are the same in both trees. -/
def SameObjects (root : Path) (t t' : FileTree) : Prop :=
  ∀ kind id, t'.at? (objectPath root kind id) = t.at? (objectPath root kind id)

theorem SameObjects.refl (root : Path) (t : FileTree) : SameObjects root t t := fun _ _ => rfl

theorem SameObjects.trans (h : SameObjects root t t') (h' : SameObjects root t' t'') :
    SameObjects root t t'' := fun kind id => (h' kind id).trans (h kind id)

theorem SameObjects.stored_iff (h : SameObjects root t t') {kind : Kind} {id : ObjectId}
    {encoding : Bytes} : Stored root t' kind id encoding ↔ Stored root t kind id encoding := by
  rw [Stored, h kind id]; rfl

theorem SameObjects.grows (h : SameObjects root t t') : Grows root t t' :=
  fun _ _ _ => h.stored_iff.mpr

theorem Touches.sameObjects {areas : List Area} (h : Touches root areas t t')
    (away : ∀ kind, Area.store kind ∉ areas) : SameObjects root t t' :=
  fun kind _ => h.at?_eq Area.holds_object (away kind)

theorem Stored.unique {kind : Kind} {id : ObjectId} {encoding other : Bytes}
    (h : Stored root t kind id encoding) (h' : Stored root t kind id other) : encoding = other := by
  simpa using h.symm.trans h'

theorem encoding?_eq_some_iff (h : Clear root t) {kind : Kind} {id : ObjectId} {encoding : Bytes} :
    Store.encoding? root kind t id = .ok (some encoding) ↔ Stored root t kind id encoding := by
  have found : Stored root t kind id encoding ↔
      t.contents? (Layout.object root kind id) = some (.packed encoding) := by
    rw [(h.straight_object kind id).contents?_eq_some_iff, path_object]; rfl
  rw [found, Store.encoding?]
  rcases t.contents? (Layout.object root kind id) with _ | (bytes | bytes) <;> simp

theorem encoding?_of_absent (h : Clear root t) {kind : Kind} {id : ObjectId}
    (hat : t.at? (objectPath root kind id) = none) :
    Store.encoding? root kind t id = .ok none := by
  have absent : t.contents? (Layout.object root kind id) = none := by
    rw [(h.straight_object kind id).contents?_eq_none_iff, path_object]
    simp [hat]
  rw [Store.encoding?, absent]

/-! ## 2. Sound commits -/

/-- A commit that is readable and whose encoding lies in the file that its id names. -/
structure CommitStored (root : Path) (t : FileTree) (c : Commit) : Prop where
  readable : c.Readable
  stored : Stored root t .commit c.id c.encoding

theorem CommitStored.mono {c : Commit} (h : CommitStored root t c) (grows : Grows root t t') :
    CommitStored root t' c := ⟨h.readable, grows _ _ _ h.stored⟩

theorem CommitStored.unique {c c' : Commit} (h : CommitStored root t c)
    (h' : CommitStored root t c') (heq : c.id = c'.id) : c = c' := by
  have stored := h'.stored
  rw [← heq] at stored
  exact h.readable.eq_of_encoding_eq h'.readable (h.stored.unique stored)

/-- A commit that tracks only names that can be tracked, with blobs that are stored, and whose
moment is the beginning of a second, told in a zone of whole minutes. -/
structure Sound (root : Path) (t : FileTree) (c : Commit) : Prop where
  names : ∀ name ∈ c.manifest, Trackable root name
  blobs : ∀ (name : String) blob, c.manifest[name]? = some blob →
    ∃ content, Object.blobId content = blob ∧
      Stored root t .blob blob (Object.blobEncoding content)
  whole : c.moment.Whole

theorem Sound.readable {c : Commit} (h : Sound root t c) : c.Readable :=
  ⟨fun name hname => (h.names name hname).unbroken, h.whole⟩

theorem Sound.mono {c : Commit} (h : Sound root t c) (grows : Grows root t t') :
    Sound root t' c where
  names := h.names
  blobs name blob hblob := by
    obtain ⟨content, hid, hstored⟩ := h.blobs name blob hblob
    exact ⟨content, hid, grows _ _ _ hstored⟩
  whole := h.whole

/-- A commit with its whole history is stored: it is the first commit, or it has parents and all of
them are rooted. -/
inductive Rooted (root : Path) (t : FileTree) : ObjectId → Prop
  | first : CommitStored root t Commit.initial → Rooted root t Commit.initial.id
  | next {c : Commit} : CommitStored root t c → c.parents ≠ [] →
      (∀ p ∈ c.parents, Rooted root t p) → Rooted root t c.id

theorem Rooted.mono {id : ObjectId} (h : Rooted root t id) (grows : Grows root t t') :
    Rooted root t' id := by
  induction h with
  | first stored => exact Rooted.first (stored.mono grows)
  | next stored some_ _ ih => exact Rooted.next (stored.mono grows) some_ ih

theorem Rooted.exists_commit {id : ObjectId} (h : Rooted root t id) :
    ∃ c, CommitStored root t c ∧ c.id = id := by
  cases h with
  | first stored => exact ⟨_, stored, rfl⟩
  | next stored _ _ => exact ⟨_, stored, rfl⟩

theorem Rooted.parents {c : Commit} (h : Rooted root t c.id) (stored : CommitStored root t c) :
    c = Commit.initial ∨ (c.parents ≠ [] ∧ ∀ p ∈ c.parents, Rooted root t p) := by
  generalize hid : c.id = id at h
  cases h with
  | first initial => exact Or.inl (stored.unique initial hid)
  | next stored' some_ parents =>
    obtain rfl := stored.unique stored' hid
    exact Or.inr ⟨some_, parents⟩

/-! ## 3. Sound stores -/

/-- The stores hold nothing but objects, each in the file that its digest names; the commits are
sound and rooted. -/
structure SoundStores (root : Path) (t : FileTree) : Prop where
  dirs : ∀ kind d e, t.at? (d :: storePath root kind) = some e → e = .dir
  blobs : ∀ d f e, t.at? (f :: d :: storePath root .blob) = some e →
    ∃ content, f :: d :: storePath root .blob = objectPath root .blob (Object.blobId content) ∧
      e = .file (.packed (Object.blobEncoding content))
  commits : ∀ d f e, t.at? (f :: d :: storePath root .commit) = some e →
    ∃ c : Commit, f :: d :: storePath root .commit = objectPath root .commit c.id ∧
      e = .file (.packed c.encoding) ∧ Sound root t c ∧ Rooted root t c.id

namespace SoundStores

theorem of_blob (h : SoundStores root t) {id : ObjectId} {encoding : Bytes}
    (stored : Stored root t .blob id encoding) :
    ∃ content, Object.blobId content = id ∧ encoding = Object.blobEncoding content := by
  obtain ⟨content, hpath, hentry⟩ := h.blobs id.directory id.fileName _ stored
  exact ⟨content, (objectPath_injective hpath).symm, by simpa using hentry⟩

theorem of_commit (h : SoundStores root t) {id : ObjectId} {encoding : Bytes}
    (stored : Stored root t .commit id encoding) :
    ∃ c : Commit, c.id = id ∧ encoding = c.encoding ∧ Sound root t c ∧ Rooted root t id := by
  obtain ⟨c, hpath, hentry, sound, rooted⟩ := h.commits id.directory id.fileName _ stored
  obtain rfl := objectPath_injective hpath
  exact ⟨c, rfl, by simpa using hentry, sound, rooted⟩

/-- Whatever is stored under an id as a commit is a commit with that id. -/
theorem exists_commitStored (h : SoundStores root t) {id : ObjectId} {encoding : Bytes}
    (stored : Stored root t .commit id encoding) : ∃ c, CommitStored root t c ∧ c.id = id := by
  obtain ⟨c, hid, rfl, sound, -⟩ := h.of_commit stored
  exact ⟨c, ⟨sound.readable, hid ▸ stored⟩, hid⟩

theorem sound (h : SoundStores root t) {c : Commit} (stored : CommitStored root t c) :
    Sound root t c ∧ Rooted root t c.id := by
  obtain ⟨c', hid, henc, sound, rooted⟩ := h.of_commit stored.stored
  obtain rfl := stored.readable.eq_of_encoding_eq sound.readable henc
  exact ⟨sound, rooted⟩

/-- What the stores are like depends on what lies in them only. -/
theorem congr (h : SoundStores root t)
    (same : ∀ kind p, (Area.store kind).Holds root p → t'.at? p = t.at? p) :
    SoundStores root t' := by
  have grows : Grows root t t' := fun kind id encoding hstored => by
    rw [Stored, same kind _ Area.holds_object]; exact hstored
  refine ⟨?_, ?_, ?_⟩
  · intro kind d e hat
    rw [same kind _ (Area.holds_objectDir kind d)] at hat
    exact h.dirs kind d e hat
  · intro d f e hat
    rw [same .blob _ (Area.holds_objectFile .blob d f)] at hat
    exact h.blobs d f e hat
  · intro d f e hat
    rw [same .commit _ (Area.holds_objectFile .commit d f)] at hat
    obtain ⟨c, hpath, hentry, sound, rooted⟩ := h.commits d f e hat
    exact ⟨c, hpath, hentry, sound.mono grows, rooted.mono grows⟩

theorem of_touches (h : SoundStores root t) {areas : List Area} (touch : Touches root areas t t')
    (away : ∀ kind, Area.store kind ∉ areas) : SoundStores root t' :=
  h.congr fun kind _ hp => touch.at?_eq hp (away kind)

end SoundStores

/-! ## 4. Loading -/

theorem Blobs.get?_of_stored (h : Clear root t) {id : ObjectId} {content : Bytes}
    (stored : Stored root t .blob id (Object.blobEncoding content)) :
    Blobs.get? root t id = .ok (some content) := by
  have hencoding := (encoding?_eq_some_iff h).mpr stored
  simp [Blobs.get?, hencoding, bind, Except.bind, pure, Except.pure, Object.blobEncoding,
    Kind.readHeader_frame]

theorem Blobs.load_of_stored (h : Clear root t) {id : ObjectId} {content : Bytes}
    (stored : Stored root t .blob id (Object.blobEncoding content)) :
    Blobs.load root t id = .ok content := by
  rw [Blobs.load, Blobs.get?_of_stored h stored]
  rfl

theorem Blobs.load_eq_ok_iff (h : Housed root t) (sound : SoundStores root t) {id : ObjectId}
    {content : Bytes} :
    Blobs.load root t id = .ok content ↔
      Stored root t .blob id (Object.blobEncoding content) := by
  constructor
  · intro hload
    rcases hencoding : Store.encoding? root .blob t id with damage | _ | encoding
    · simp [Blobs.load, Blobs.get?, hencoding, bind, Except.bind] at hload
    · simp [Blobs.load, Blobs.get?, hencoding, bind, Except.bind, pure, Except.pure] at hload
    · have stored := (encoding?_eq_some_iff h.clear).mp hencoding
      obtain ⟨content', -, rfl⟩ := sound.of_blob stored
      rw [Blobs.load_of_stored h.clear stored] at hload
      rwa [← Except.ok.inj hload]
  · exact Blobs.load_of_stored h.clear

theorem Commits.load_congr_of_lookup? {id : ObjectId}
    (looked : t'.lookup? (Layout.object root .commit id) =
      t.lookup? (Layout.object root .commit id)) :
    Commits.load root t' id = Commits.load root t id := by
  simp only [Commits.load, Commits.get?, Store.encoding?, FileTree.contents?, looked]

theorem Commits.id_of_get? {id : ObjectId} {c : Commit}
    (h : Commits.get? root t id = .ok (some c)) :
    c.id = id := by
  simp only [Commits.get?, bind, Except.bind, pure, Except.pure] at h
  split at h
  · cases h
  · split at h
    · cases h
    · split at h
      · split at h
        · cases h
        · split at h
          · rename_i same
            exact Option.some.inj (Except.ok.inj h) ▸ same
          · cases h
      · cases h
      · cases h

/-- The commit that is loaded under an id is the one with that id. -/
theorem Commits.id_of_load {id : ObjectId} {c : Commit} (h : Commits.load root t id = .ok c) :
    c.id = id := by
  simp only [Commits.load, bind, Except.bind, pure, Except.pure] at h
  split at h
  · cases h
  · rename_i found hget
    cases found with
    | none => cases h
    | some other => exact Except.ok.inj h ▸ Commits.id_of_get? hget

/-- What is found of an object depends on what lies in its file only. -/
theorem lookup?_object_congr (free : t.LinkFree root) (free' : t'.LinkFree root) {kind : Kind}
    {id : ObjectId} (same : t'.at? (objectPath root kind id) = t.at? (objectPath root kind id)) :
    t'.lookup? (Layout.object root kind id) = t.lookup? (Layout.object root kind id) := by
  have valid : ∀ n ∈ [FileName.text metaName, FileName.text (storeName kind), .text id.directory,
      .text id.fileName], ValidName n := by
    simp [validName_metaName, validName_storeName, id.validName_directory, id.validName_fileName]
  have straight : ∀ {s : FileTree}, s.LinkFree root → (Layout.object root kind id).CanTell →
      Straight s (Layout.object root kind id) := fun free tell =>
    straight_of_names _ free valid (by simp) tell.1
  exact Straight.lookup?_congr (straight free) (straight free') (by rwa [path_object])

theorem Commits.load_congr (free : t.LinkFree root) (free' : t'.LinkFree root) {id : ObjectId}
    (same : t'.at? (objectPath root .commit id) = t.at? (objectPath root .commit id)) :
    Commits.load root t' id = Commits.load root t id :=
  Commits.load_congr_of_lookup? (lookup?_object_congr free free' same)

theorem Blobs.load_congr (free : t.LinkFree root) (free' : t'.LinkFree root) {id : ObjectId}
    (same : t'.at? (objectPath root .blob id) = t.at? (objectPath root .blob id)) :
    Blobs.load root t' id = Blobs.load root t id := by
  simp only [Blobs.load, Blobs.get?, Store.encoding?, FileTree.contents?,
    lookup?_object_congr free free' same]

theorem Commits.get?_of_stored (h : Clear root t) {c : Commit} (stored : CommitStored root t c) :
    Commits.get? root t c.id = .ok (some c) := by
  have hencoding := (encoding?_eq_some_iff h).mpr stored.stored
  simp [Commits.get?, hencoding, bind, Except.bind, pure, Except.pure, Commit.encoding,
    Kind.readHeader_frame, stored.readable.ofBody?_body]

theorem Commits.load_of_stored (h : Clear root t) {c : Commit} (stored : CommitStored root t c) :
    Commits.load root t c.id = .ok c := by
  rw [Commits.load, Commits.get?_of_stored h stored]
  rfl

theorem Commits.load_eq_ok_iff (h : Housed root t) (sound : SoundStores root t) {id : ObjectId}
    {c : Commit} :
    Commits.load root t id = .ok c ↔ c.id = id ∧ CommitStored root t c := by
  constructor
  · intro hload
    rcases hencoding : Store.encoding? root .commit t id with damage | _ | encoding
    · simp [Commits.load, Commits.get?, hencoding, bind, Except.bind] at hload
    · simp [Commits.load, Commits.get?, hencoding, bind, Except.bind, pure, Except.pure] at hload
    · have stored := (encoding?_eq_some_iff h.clear).mp hencoding
      obtain ⟨c', hid, rfl, csound, -⟩ := sound.of_commit stored
      subst hid
      have stored' : CommitStored root t c' := ⟨csound.readable, stored⟩
      rw [Commits.load_of_stored h.clear stored'] at hload
      obtain rfl := Except.ok.inj hload
      exact ⟨rfl, stored'⟩
  · rintro ⟨rfl, stored⟩
    exact Commits.load_of_stored h.clear stored

theorem toOption_eq_some_iff {ε α : Type} {r : Except ε α} {a : α} :
    r.toOption = some a ↔ r = .ok a := by
  cases r <;> simp [Except.toOption]

/-- The ids that one directory of a store adds to a listing are told by the files in it. -/
theorem Store.mem_directory {path : Path} {d : FileName} {e : Entry} {id : ObjectId} :
    (id ∈ if e = .dir then
        (FileTree.filesOf (t.children (d :: path))).filterMap fun (name, _) =>
          (ObjectId.ofText? (d.shown ++ name.shown)).toOption
      else []) ↔
      e = .dir ∧ ∃ f content, t.at? (f :: d :: path) = some (.file content) ∧
        ObjectId.ofText? (d.shown ++ f.shown) = .ok id := by
  split
  · rename_i hdir
    rw [List.mem_filterMap]
    constructor
    · rintro ⟨⟨f, content⟩, hfile, htext⟩
      exact ⟨hdir, f, content, mem_children.mp (Worktree.mem_filesOf.mp hfile),
        toOption_eq_some_iff.mp htext⟩
    · rintro ⟨-, f, content, hat, htext⟩
      exact ⟨(f, content), Worktree.mem_filesOf.mpr (mem_children.mpr hat),
        toOption_eq_some_iff.mpr htext⟩
  · rename_i hdir
    simp [hdir]

/-- A store is listed from its directory, if that is there. -/
theorem locate_store (h : Clear root t) (kind : Kind) :
    t.locate (Layout.store root kind) = some (storePath root kind) ∨
      (t.locate (Layout.store root kind) = none ∧ t.at? (storePath root kind) ≠ some .dir) := by
  have valid : ∀ n ∈ [FileName.text metaName, FileName.text (storeName kind)], ValidName n := by
    simp [validName_metaName, validName_storeName]
  have short : Route.bytesOf [.text metaName, .text (storeName kind)] ≤ 58 := by
    cases kind <;> decide
  have level : (".." : FileName) ∉ (Layout.store root kind).segments := level_of_names valid
  have tell : (Layout.store root kind).CanTell :=
    tell_of_names valid (Nat.le_trans (Nat.add_le_add_left short _) h.room)
  cases hlocate : t.locate (Layout.store root kind) with
  | some path =>
    have hpath := path_of_locate (r := Layout.store root kind) h.free level hlocate
    exact Or.inl (by rw [hpath, path_store])
  | none =>
    refine Or.inr ⟨rfl, fun hdir => ?_⟩
    rw [← path_store] at hdir
    simp [locate_of_dir tell level hdir] at hlocate

/-- The ids that a store lists are told by the paths of its files. -/
theorem Store.mem_ids (h : Clear root t) {kind : Kind} {id : ObjectId} :
    id ∈ Store.ids root kind t ↔ ∃ d f content,
      t.at? (f :: d :: storePath root kind) = some (.file content) ∧
        ObjectId.ofText? (d.shown ++ f.shown) = .ok id := by
  rcases locate_store h kind with hlocate | ⟨hlocate, noDir⟩
  · simp only [Store.ids, hlocate, Store.sorted, List.mem_mergeSort, List.mem_flatMap]
    constructor
    · rintro ⟨⟨d, e⟩, -, hid⟩
      obtain ⟨-, f, hf⟩ := Store.mem_directory.mp hid
      exact ⟨d, f, hf⟩
    · rintro ⟨d, f, content, hat, htext⟩
      exact ⟨(d, .dir), mem_children.mpr (at?_of_cons hat).2,
        Store.mem_directory.mpr ⟨rfl, f, content, hat, htext⟩⟩
  · simp only [Store.ids, hlocate]
    refine ⟨fun hid => absurd hid List.not_mem_nil, ?_⟩
    rintro ⟨d, f, content, hat, -⟩
    exact absurd (at?_of_cons (at?_of_cons hat).2).2 noDir

/-! ## 5. Storing -/

/-- From `t` to `t'` an object is stored, unless something lay in its file already; directories on
the way to the file may be new. -/
structure Deposited (root : Path) (kind : Kind) (id : ObjectId) (encoding : Bytes)
    (t t' : FileTree) : Prop where
  object : t'.at? (objectPath root kind id) =
    some ((t.at? (objectPath root kind id)).getD (.file (.packed encoding)))
  other : ∀ p, p ≠ objectPath root kind id → t'.at? p = t.at? p ∨
    (p <:+ id.directory :: storePath root kind ∧ t.at? p = none ∧ t'.at? p = some .dir)

namespace Deposited

variable {kind : Kind} {id : ObjectId} {encoding : Bytes}

theorem at?_of_some (h : Deposited root kind id encoding t t') {p : Path} {e : Entry}
    (hat : t.at? p = some e) : t'.at? p = some e := by
  by_cases hp : p = objectPath root kind id
  · subst hp
    simp [h.object, hat]
  · rcases h.other p hp with same | ⟨-, hnone, -⟩
    · rw [same, hat]
    · simp [hnone] at hat

/-- A new entry is the object or a directory on the way to it. -/
theorem of_at? (h : Deposited root kind id encoding t t') {p : Path} {e : Entry}
    (hat : t'.at? p = some e) : t.at? p = some e ∨
      (p = objectPath root kind id ∧ e = .file (.packed encoding)) ∨
      (p <:+ id.directory :: storePath root kind ∧ e = .dir) := by
  by_cases hp : p = objectPath root kind id
  · subst hp
    rw [h.object] at hat
    cases hold : t.at? (objectPath root kind id) with
    | none => exact Or.inr (Or.inl ⟨rfl, by simpa [hold] using hat.symm⟩)
    | some e' => exact Or.inl (by simpa [hold] using hat)
  · rcases h.other p hp with same | ⟨onWay, -, hnew⟩
    · exact Or.inl (same ▸ hat)
    · exact Or.inr (Or.inr ⟨onWay, by simpa [hnew] using hat.symm⟩)

/-- A new file in a store is the object. -/
theorem of_file (h : Deposited root kind id encoding t t') {kind' : Kind} {d f : FileName}
    {e : Entry}
    (hat : t'.at? (f :: d :: storePath root kind') = some e) :
    t.at? (f :: d :: storePath root kind') = some e ∨
      (f :: d :: storePath root kind' = objectPath root kind id ∧
        e = .file (.packed encoding)) := by
  rcases h.of_at? hat with hold | hnew | ⟨onWay, -⟩
  · exact Or.inl hold
  · exact Or.inr hnew
  · exact absurd onWay.length_le (by simp [storePath, metaPath])

theorem linkFree (h : Deposited root kind id encoding t t') (free : t.LinkFree root) :
    t'.LinkFree root := by
  intro p target below hat
  rcases h.of_at? hat with hold | ⟨-, hfile⟩ | ⟨-, hdir⟩
  · exact free p target below hold
  · cases hfile
  · cases hdir

end Deposited

/-- From `t` to `t'` an object is stored in a store that is there, unless something lay in its file
already; the directory that holds the file may be new. -/
structure Saved (root : Path) (kind : Kind) (id : ObjectId) (encoding : Bytes) (t t' : FileTree) :
    Prop where
  object : t'.at? (objectPath root kind id) =
    some ((t.at? (objectPath root kind id)).getD (.file (.packed encoding)))
  other : ∀ p, p ≠ objectPath root kind id → t'.at? p = t.at? p ∨
    (p = .text id.directory :: storePath root kind ∧ t.at? p = none ∧ t'.at? p = some .dir)

namespace Saved

variable {kind : Kind} {id : ObjectId} {encoding : Bytes}

theorem deposited (h : Saved root kind id encoding t t') : Deposited root kind id encoding t t' :=
  ⟨h.object, fun p hp => (h.other p hp).imp_right fun ⟨hdir, hrest⟩ =>
    ⟨hdir ▸ List.suffix_refl _, hrest⟩⟩

theorem at?_of_some (h : Saved root kind id encoding t t') {p : Path} {e : Entry}
    (hat : t.at? p = some e) : t'.at? p = some e := h.deposited.at?_of_some hat

theorem grows (h : Saved root kind id encoding t t') : Grows root t t' :=
  fun _ _ _ stored => h.at?_of_some stored

theorem touches (h : Saved root kind id encoding t t') : Touches root [.store kind] t t' := by
  constructor
  · intro p hp
    have object : p ≠ objectPath root kind id := by
      rintro rfl
      exact hp _ (by simp) Area.holds_object
    rcases h.other p object with same | ⟨rfl, -, -⟩
    · exact same
    · refine absurd ?_ (hp (.store kind) (by simp))
      exact Area.holds_objectDir kind _
  · intro p target hlink
    rcases h.deposited.of_at? hlink with hold | ⟨-, hfile⟩ | ⟨-, hdir⟩
    · exact hold
    · cases hfile
    · cases hdir

/-- A new file in a store is the object. -/
theorem of_file (h : Saved root kind id encoding t t') {kind' : Kind} {d f : FileName} {e : Entry}
    (hat : t'.at? (f :: d :: storePath root kind') = some e) :
    t.at? (f :: d :: storePath root kind') = some e ∨
      (f :: d :: storePath root kind' = objectPath root kind id ∧
        e = .file (.packed encoding)) := h.deposited.of_file hat

end Saved

/-- Where the store is there, only the last directory on the way can be new. -/
theorem Deposited.saved {kind : Kind} {id : ObjectId} {encoding : Bytes}
    (h : Deposited root kind id encoding t t') (store : t.at? (storePath root kind) = some .dir) :
    Saved root kind id encoding t t' := by
  refine ⟨h.object, fun p hp => (h.other p hp).imp_right ?_⟩
  rintro ⟨onWay, hnone, hnew⟩
  rcases List.suffix_cons_iff.mp onWay with rfl | onWay
  · exact ⟨rfl, hnone, hnew⟩
  · have := mem_listings.mp (mem_listings_of_suffix (mem_listings.mpr store) onWay)
    simp [this] at hnone

/-- **Storing succeeds**, where nothing but directories is on the way to the object's file.  What
lies in that file already is left there, and then nothing changes. -/
theorem Store.deposit_run (h : Clear root t) (top : t.at? root = some .dir) {kind : Kind}
    {id : ObjectId}
    (way : ∀ p, root <:+ p → p <:+ id.directory :: storePath root kind →
      t.at? p = none ∨ t.at? p = some .dir) (encoding : Bytes) (printed : String) :
    ∃ t', Store.save root kind id encoding ⟨t, printed⟩ = (.ok (), ⟨t', printed⟩) ∧
      Deposited root kind id encoding t t' ∧
      (t.at? (objectPath root kind id) ≠ none → t' = t) := by
  have straight := h.straight_object kind id
  have present := straight.exists?_eq
  rw [path_object] at present
  cases hold : t.at? (objectPath root kind id) with
  | some e =>
    refine ⟨t, ?_, ⟨by simp [hold], fun p _ => Or.inl rfl⟩, fun _ => rfl⟩
    simp [Store.save, Action.bind_run, Action.read, present, hold]
    rfl
  | none =>
    have straightDir := h.straight_objectDir kind id
    have made := makeDirs_succeeds (t := t) (r := (Layout.store root kind).child id.directory)
      h.free straightDir.level straightDir.tell top
      (by
        intro name hname
        have : name ∈
            [FileName.text metaName, FileName.text (storeName kind), .text id.directory] :=
          (List.mem_filter.mp hname).1
        simp only [List.mem_cons, List.not_mem_nil, or_false] at this
        rcases this with rfl | rfl | rfl
        · exact validName_metaName
        · exact validName_storeName kind
        · exact id.validName_directory)
      (by rw [path_objectDir]; exact way)
    have spec := makeDirs_spec (t := t) (r := (Layout.store root kind).child id.directory) h.free
      straightDir.level
    rw [path_objectDir] at made spec
    generalize hmade : t.makeDirs ((Layout.store root kind).child id.directory) = result
      at made spec
    obtain ⟨done, t₁⟩ := result
    obtain rfl : done = true := made.1
    -- the object's file is not among the directories that were made
    have absent : t₁.at? (objectPath root kind id) = none := by
      rcases spec (objectPath root kind id) with same | ⟨-, -, -, -, onWay⟩
      · rw [same, hold]
      · exact absurd onWay.length_le (by simp [objectPath])
    have can : t₁.CanPlace (objectPath root kind id) :=
      ⟨id.validName_fileName, made.2, fun hdir => by simp [objectPath, hdir] at absent⟩
    have free₁ : t₁.LinkFree root := spec.linkFree h.free
    have straight₁ : Straight t₁ (Layout.object root kind id) :=
      ⟨free₁, straight.level, straight.ends, straight.tell⟩
    have hwrite : t₁.replace? (Layout.object root kind id) (.packed encoding) =
        some (t₁.place _ (.file (.packed encoding)) can) := by
      rw [straight₁.replace?_eq, path_object, place?, dif_pos can]
    refine ⟨t₁.place _ (.file (.packed encoding)) can, ?_, ⟨?_, ?_⟩, by simp⟩
    · have absent_ : Action.read (fun t => .ok (t.exists? (Layout.object root kind id)))
          ⟨t, printed⟩ = (.ok false, ⟨t, printed⟩) := by
        rw [Action.read, present, hold]; rfl
      rw [Store.save, Action.bind_run_ok absent_, if_neg (by simp),
        Action.bind_run_ok (Action.makeDirs_run_ok hmade)]
      exact Action.edit_run_some hwrite
    · rw [at?_place, if_pos rfl, hold]; rfl
    · intro p hp
      rw [at?_place, if_neg hp]
      rcases spec p with same | ⟨hnone, hnew, -, -, onWay⟩
      · exact Or.inl same
      · exact Or.inr ⟨onWay, hnone, hnew⟩

/-- Storing succeeds in a repository. -/
theorem Store.save_run (h : Housed root t) {kind : Kind}
    (dirs : ∀ d e, t.at? (d :: storePath root kind) = some e → e = .dir) (id : ObjectId)
    (encoding : Bytes) (printed : String) :
    ∃ t', Store.save root kind id encoding ⟨t, printed⟩ = (.ok (), ⟨t', printed⟩) ∧
      Saved root kind id encoding t t' := by
  have way : ∀ p, root <:+ p → p <:+ id.directory :: storePath root kind →
      t.at? p = none ∨ t.at? p = some .dir := by
    intro p _ onWay
    rcases List.suffix_cons_iff.mp onWay with rfl | onWay
    · cases hat : t.at? (id.directory :: storePath root kind) with
      | none => exact Or.inl rfl
      | some e => exact Or.inr (by rw [dirs _ _ hat])
    · exact Or.inr
        (mem_listings.mp (mem_listings_of_suffix (mem_listings.mpr (h.at?_store kind)) onWay))
  obtain ⟨t', hrun, deposited, -⟩ := Store.deposit_run h.clear h.at?_root way encoding printed
  exact ⟨t', hrun, deposited.saved (h.at?_store kind)⟩

namespace SoundStores

theorem dirs_of_saved (h : SoundStores root t) {kind : Kind} {id : ObjectId} {encoding : Bytes}
    (saved : Saved root kind id encoding t t') (kind' : Kind) (d : FileName) (e : Entry)
    (hat : t'.at? (d :: storePath root kind') = some e) : e = .dir := by
  rcases saved.deposited.of_at? hat with hold | ⟨hpath, -⟩ | ⟨-, hdir⟩
  · exact h.dirs kind' d e hold
  · have := congrArg List.length hpath
    simp [objectPath, storePath, metaPath] at this
  · exact hdir

theorem save_blob (h : SoundStores root t) {content : Bytes}
    (saved : Saved root .blob (Object.blobId content) (Object.blobEncoding content) t t') :
    SoundStores root t' where
  dirs := h.dirs_of_saved saved
  blobs d f e hat := by
    rcases saved.of_file hat with hold | ⟨hpath, hentry⟩
    · exact h.blobs d f e hold
    · exact ⟨content, hpath, hentry⟩
  commits d f e hat := by
    rcases saved.of_file hat with hold | ⟨hpath, -⟩
    · obtain ⟨c, hpath, hentry, sound, rooted⟩ := h.commits d f e hold
      exact ⟨c, hpath, hentry, sound.mono saved.grows, rooted.mono saved.grows⟩
    · simp [objectPath, storePath, storeName] at hpath

/-- What lies in a commit's file once it has been stored. -/
theorem stored_of_saved {c : Commit} (saved : Saved root .commit c.id c.encoding t t')
    (fresh : t.at? (objectPath root .commit c.id) = none) :
    Stored root t' .commit c.id c.encoding := by
  rw [Stored, saved.object, fresh]; rfl

theorem save_commit (h : SoundStores root t) {c : Commit} (sound : Sound root t c)
    (history : c = Commit.initial ∨ (c.parents ≠ [] ∧ ∀ p ∈ c.parents, Rooted root t p))
    (saved : Saved root .commit c.id c.encoding t t') : SoundStores root t' where
  dirs := h.dirs_of_saved saved
  blobs d f e hat := by
    rcases saved.of_file hat with hold | ⟨hpath, -⟩
    · exact h.blobs d f e hold
    · simp [objectPath, storePath, storeName] at hpath
  commits d f e hat := by
    cases hold : t.at? (f :: d :: storePath root .commit) with
    | some e' =>
      obtain rfl : e' = e := Option.some.inj ((saved.at?_of_some hold).symm.trans hat)
      obtain ⟨c', hpath, hentry, sound', rooted⟩ := h.commits d f e' hold
      exact ⟨c', hpath, hentry, sound'.mono saved.grows, rooted.mono saved.grows⟩
    | none =>
      rcases saved.of_file hat with hold' | ⟨hpath, hentry⟩
      · simp [hold] at hold'
      · have stored : CommitStored root t' c :=
          ⟨sound.readable, stored_of_saved saved (hpath ▸ hold)⟩
        refine ⟨c, hpath, hentry, sound.mono saved.grows, ?_⟩
        rcases history with rfl | ⟨some_, parents⟩
        · exact Rooted.first stored
        · exact Rooted.next stored some_ fun p hp => (parents p hp).mono saved.grows

end SoundStores

/-! ## 6. Objects that are added -/

namespace Object

/-- The store that an object belongs to. -/
def kind : Object → Kind
  | blob _ => .blob
  | commit _ => .commit

/-- What is stored of an object. -/
def encoding : Object → Bytes
  | blob content => blobEncoding content
  | commit c => c.encoding

/-- The name of an object. -/
def id : Object → ObjectId
  | blob content => blobId content
  | commit c => c.id

end Object

/-- From `t` to `t'` these objects are added; one whose file was there before keeps what lay in
it. -/
structure Added (root : Path) (new : Object → Prop) (t t' : FileTree) : Prop where
  grows : Grows root t t'
  of_stored : ∀ {kind id encoding}, Stored root t' kind id encoding →
    Stored root t kind id encoding ∨
      ∃ o, new o ∧ o.kind = kind ∧ o.id = id ∧ o.encoding = encoding
  there : ∀ o, new o → ∃ encoding, Stored root t' o.kind o.id encoding

namespace Added

variable {new more : Object → Prop}

theorem of_sameObjects (h : SameObjects root t t') : Added root (fun _ => False) t t' :=
  ⟨h.grows, fun stored => Or.inl (h.stored_iff.mp stored), fun _ hno => hno.elim⟩

theorem of_saved (h : SoundStores root t) {o : Object}
    (saved : Saved root o.kind o.id o.encoding t t') : Added root (· = o) t t' := by
  refine ⟨saved.grows, ?_, ?_⟩
  · intro kind id encoding stored
    rcases saved.of_file stored with hold | ⟨hpath, hentry⟩
    · exact Or.inl hold
    · refine Or.inr ⟨o, rfl, ?_⟩
      have henc : encoding = o.encoding := by simpa using hentry
      obtain ⟨hkind, hid⟩ := objectPath_eq_iff.mp hpath
      exact ⟨hkind.symm, hid.symm, henc.symm⟩
  · intro o' heq
    rw [heq]
    cases hat : t.at? (objectPath root o.kind o.id) with
    | none => exact ⟨o.encoding, by rw [Stored, saved.object, hat]; rfl⟩
    | some e =>
      have : ∃ encoding, e = .file (.packed encoding) := by
        cases hk : o.kind with
        | blob =>
          rw [hk] at hat
          obtain ⟨content, -, he⟩ := h.blobs _ _ e hat
          exact ⟨_, he⟩
        | commit =>
          rw [hk] at hat
          obtain ⟨c, -, he, -⟩ := h.commits _ _ e hat
          exact ⟨_, he⟩
      obtain ⟨encoding, rfl⟩ := this
      exact ⟨encoding, by rw [Stored, saved.object, hat]; rfl⟩

theorem trans {t'' : FileTree} (h : Added root new t t') (h' : Added root more t' t'') :
    Added root (fun o => new o ∨ more o) t t'' := by
  refine ⟨h.grows.trans h'.grows, ?_, ?_⟩
  · intro _ _ _ stored
    rcases h'.of_stored stored with hold | ⟨o, hmore, ho⟩
    · rcases h.of_stored hold with hold | ⟨o, hnew, ho⟩
      · exact Or.inl hold
      · exact Or.inr ⟨o, Or.inl hnew, ho⟩
    · exact Or.inr ⟨o, Or.inr hmore, ho⟩
  · rintro o (hnew | hmore)
    · obtain ⟨encoding, stored⟩ := h.there o hnew
      exact ⟨encoding, h'.grows _ _ _ stored⟩
    · exact h'.there o hmore

theorem congr (h : Added root new t t') (same : ∀ o, new o ↔ more o) : Added root more t t' := by
  obtain rfl : new = more := funext fun o => propext (same o)
  exact h

end Added

end LocalVcs
