/-
# The stores as maps that only grow

However objects are saved, in whatever order and however often, what the stores answer is told by
the set of objects that have been saved: an id is answered with the object that has it, each object
lies in one file, and the commits are listed by their ids.

* `Keeps`: the files in the stores are those of the objects that have been saved.
* `Keeps.save`: saving one object more keeps it so, and changes nothing when it was saved before.
* `Keeps.answersFor`: what the stores answer then.
* `Object.Savable.saves`: so it is after every part of a sequence of savings.
* `Object.saves_answer`: and so it is of all commits, up to what is not kept of their moments.
-/
import LocalVcs.Proofs.FileTree.Entries
import LocalVcs.Proofs.Objects
import Mathlib.Data.List.Dedup

namespace LocalVcs

open FileTree Layout

variable {root : Path} {t t' : FileTree} {saved : List Object}

/-! ## 1. Objects that are told apart -/

namespace Object

/-- An object that can be read back: any contents, and a commit whose text can be read. -/
def Readable : Object → Prop
  | blob _ => True
  | commit c => c.Readable

theorem ofEncoding?_encoding {o : Object} (h : o.Readable) : ofEncoding? o.encoding = .ok o := by
  cases o with
  | blob content =>
    rw [ofEncoding?, encoding, blobEncoding, Kind.readHeader_frame]
  | commit c =>
    have hbody := Commit.Readable.ofBody?_body h
    rw [ofEncoding?, encoding, Commit.encoding, Kind.readHeader_frame]
    simp only [hbody, Except.map]

theorem eq_of_encoding_eq {o o' : Object} (h : o.Readable) (h' : o'.Readable)
    (heq : o.encoding = o'.encoding) : o = o' := by
  have := ofEncoding?_encoding h
  rw [heq, ofEncoding?_encoding h'] at this
  exact (Except.ok.inj this).symm

/-- Objects that can be saved together: they can be read back, and where their encodings differ,
the digests do. -/
structure Savable (objects : List Object) : Prop where
  readable : ∀ o ∈ objects, o.Readable
  distinct : ∀ o ∈ objects, ∀ o' ∈ objects, o.encoding ≠ o'.encoding → o.id ≠ o'.id

namespace Savable

variable {objects : List Object}

theorem mono {fewer : List Object} (h : Savable objects) (sub : fewer ⊆ objects) : Savable fewer :=
  ⟨fun o ho => h.readable o (sub ho), fun o ho o' ho' => h.distinct o (sub ho) o' (sub ho')⟩

theorem eq_of_id_eq (h : Savable objects) {o o' : Object} (ho : o ∈ objects) (ho' : o' ∈ objects)
    (heq : o.id = o'.id) : o = o' := by
  refine eq_of_encoding_eq (h.readable o ho) (h.readable o' ho') ?_
  by_contra other
  exact h.distinct o ho o' ho' other heq

end Savable

/-- Saves an object in the store of its kind. -/
def save (root : Path) : Object → Action ObjectId
  | blob content => Blobs.save root content
  | commit c => do
    Commits.save root c
    return c.id

theorem save_run {o : Object} {printed : String} {w : World}
    (h : Store.save root o.kind o.id o.encoding ⟨t, printed⟩ = (.ok (), w)) :
    o.save root ⟨t, printed⟩ = (.ok o.id, w) := by
  cases o with
  | blob content => exact Action.bind_run_ok h
  | commit c => exact Action.bind_run_ok h

/-- Saves objects one after the other. -/
def saveAll (root : Path) (objects : List Object) : Action (List ObjectId) :=
  objects.mapM (save root)

end Object

open Object

/-! ## 2. Stores that keep what is saved -/

/-- Objects can be stored: the working directory is there, and nothing but directories is on the
ways to their files. -/
structure Roomy (root : Path) (t : FileTree) : Prop extends Clear root t where
  top : t.at? root = some .dir
  way : ∀ kind d p, root <:+ p → p <:+ d :: storePath root kind →
    t.at? p = none ∨ t.at? p = some .dir

/-- Stores with nothing in them: objects can be stored, and none is. -/
structure Vacant (root : Path) (t : FileTree) : Prop extends Roomy root t where
  empty : ∀ kind d f, t.at? (f :: d :: storePath root kind) = none

/-- The files in the stores are those of the objects that have been saved. -/
structure Keeps (root : Path) (t : FileTree) (saved : List Object) : Prop extends Roomy root t where
  files : ∀ kind d f e, t.at? (f :: d :: storePath root kind) = some e ↔
    ∃ o ∈ saved, objectPath root o.kind o.id = f :: d :: storePath root kind ∧
      e = .file (.packed o.encoding)

theorem Vacant.keeps (h : Vacant root t) : Keeps root t [] :=
  ⟨h.toRoomy, fun kind d f e => by simp [h.empty]⟩

/-- Storing an object leaves room for others. -/
theorem Deposited.roomy {kind : Kind} {id : ObjectId} {encoding : Bytes}
    (h : Deposited root kind id encoding t t') (roomy : Roomy root t) : Roomy root t' where
  free := h.linkFree roomy.free
  room := roomy.room
  top := h.at?_of_some roomy.top
  way kind' d p below onWay := by
    have other : p ≠ objectPath root kind id := by
      rintro rfl
      exact absurd onWay.length_le (by simp [objectPath, storePath])
    rcases h.other p other with same | ⟨-, -, hdir⟩
    · rw [same]
      exact roomy.way kind' d p below onWay
    · exact Or.inr hdir

/-- **Saving one object more.**  Saving one again changes nothing. -/
theorem Keeps.save (h : Keeps root t saved) {o : Object} (savable : Savable (saved ++ [o]))
    (printed : String) :
    ∃ t', o.save root ⟨t, printed⟩ = (.ok o.id, ⟨t', printed⟩) ∧ Keeps root t' (saved ++ [o]) ∧
      (o ∈ saved → t' = t) := by
  obtain ⟨t', hrun, deposited, same⟩ := Store.deposit_run h.toClear h.top
    (h.way o.kind o.id.directory) o.encoding printed
  refine ⟨t', save_run hrun, ⟨deposited.roomy h.toRoomy, fun kind d f e => ⟨?_, ?_⟩⟩, ?_⟩
  · intro hat
    rcases deposited.of_file hat with hold | ⟨hpath, hentry⟩
    · obtain ⟨o', ho', ho⟩ := (h.files kind d f e).mp hold
      exact ⟨o', List.mem_append_left _ ho', ho⟩
    · exact ⟨o, by simp, hpath.symm, hentry⟩
  · rintro ⟨o', ho', hpath, rfl⟩
    rcases List.mem_append.mp ho' with hold | hnew
    · exact deposited.at?_of_some ((h.files kind d f _).mpr ⟨o', hold, hpath, rfl⟩)
    · obtain rfl := List.mem_singleton.mp hnew
      rw [← hpath, deposited.object]
      cases hat : t.at? (objectPath root o'.kind o'.id) with
      | none => rfl
      | some e =>
        -- what was there is the object that has this id
        obtain ⟨o, ho, hpath', rfl⟩ := (h.files o'.kind _ _ e).mp hat
        have hid : o.id = o'.id := (objectPath_eq_iff.mp hpath').2
        obtain rfl := savable.eq_of_id_eq (List.mem_append_left _ ho) ho' hid
        rfl
  · intro ho
    refine same ?_
    rw [objectPath, (h.files _ _ _ _).mpr ⟨o, ho, rfl, rfl⟩]
    simp

theorem Keeps.saveAll (h : Keeps root t saved) {objects : List Object}
    (savable : Savable (saved ++ objects)) (printed : String) :
    ∃ t', Object.saveAll root objects ⟨t, printed⟩ = (.ok (objects.map Object.id), ⟨t', printed⟩) ∧
      Keeps root t' (saved ++ objects) := by
  induction objects generalizing t saved with
  | nil => exact ⟨t, rfl, by simpa using h⟩
  | cons o objects ih =>
    have assoc : saved ++ o :: objects = saved ++ [o] ++ objects := by simp
    rw [assoc] at savable ⊢
    have first : Savable (saved ++ [o]) := savable.mono (List.subset_append_left _ _)
    obtain ⟨t₁, hrun, keeps, -⟩ := h.save first printed
    obtain ⟨t', hrest, keeps'⟩ := ih keeps savable
    refine ⟨t', ?_, keeps'⟩
    rw [Object.saveAll] at hrest
    rw [Object.saveAll, List.mapM_cons, Action.bind_run_ok hrun, Action.bind_run_ok hrest]
    rfl

/-! ## 3. Getting -/

/-- Where an answer is a thing with the id that is asked for, or tells that there is none, and
things are told apart by their ids, the answer is told by what things there are. -/
theorem answer_iff {α : Type} {There : α → Prop} {named : α → ObjectId} {id : ObjectId}
    {answer : Except Damage (Option α)}
    (h : (∃ x, There x ∧ named x = id ∧ answer = .ok (some x)) ∨
      ((∀ x, There x → named x ≠ id) ∧ answer = .ok none))
    (unique : ∀ x y, There x → There y → named x = named y → x = y) :
    (∀ x, answer = .ok (some x) ↔ There x ∧ named x = id) ∧
      (answer = .ok none ↔ ∀ x, There x → named x ≠ id) := by
  rcases h with ⟨x, there, rfl, rfl⟩ | ⟨absent, rfl⟩
  · refine ⟨fun y => ⟨fun heq => ?_, fun ⟨there', hid⟩ => ?_⟩, ?_⟩
    · obtain rfl : x = y := by simpa using heq
      exact ⟨there, rfl⟩
    · rw [unique y x there' there hid]
    · exact iff_of_false (by simp) fun absent => absent x there rfl
  · exact ⟨fun y => iff_of_false (by simp) fun ⟨there, hid⟩ => absent y there hid,
      iff_of_true rfl absent⟩

namespace Keeps

theorem stored_iff (h : Keeps root t saved) {kind : Kind} {id : ObjectId} {encoding : Bytes} :
    Stored root t kind id encoding ↔
      ∃ o ∈ saved, o.kind = kind ∧ o.id = id ∧ o.encoding = encoding := by
  rw [Stored, objectPath, h.files]
  constructor
  · rintro ⟨o, ho, hpath, hentry⟩
    obtain ⟨hkind, hid⟩ := objectPath_eq_iff.mp hpath
    exact ⟨o, ho, hkind, hid, by simpa using hentry.symm⟩
  · rintro ⟨o, ho, rfl, rfl, rfl⟩
    exact ⟨o, ho, rfl, rfl⟩

theorem commitStored (h : Keeps root t saved) (readable : ∀ o ∈ saved, o.Readable) {c : Commit}
    (hc : .commit c ∈ saved) : CommitStored root t c :=
  ⟨readable _ hc, h.stored_iff.mpr ⟨.commit c, hc, rfl, rfl, rfl⟩⟩

/-- What lies in the file of an id. -/
theorem encoding?_cases (h : Keeps root t saved) (kind : Kind) (id : ObjectId) :
    (∃ o ∈ saved, o.kind = kind ∧ o.id = id ∧
      Store.encoding? root kind t id = .ok (some o.encoding)) ∨
    ((∀ o ∈ saved, o.kind = kind → o.id ≠ id) ∧ Store.encoding? root kind t id = .ok none) := by
  cases hat : t.at? (objectPath root kind id) with
  | none =>
    refine Or.inr ⟨?_, encoding?_of_absent h.toClear hat⟩
    rintro o ho rfl rfl
    have := h.stored_iff.mpr ⟨o, ho, rfl, rfl, rfl⟩
    rw [Stored, hat] at this
    cases this
  | some e =>
    obtain ⟨o, -, -, rfl⟩ := (h.files kind _ _ e).mp hat
    obtain ⟨o', ho', hkind, hid, henc⟩ := h.stored_iff.mp hat
    exact Or.inl ⟨o', ho', hkind, hid, henc ▸ (encoding?_eq_some_iff h.toClear).mpr hat⟩

theorem getBlob_cases (h : Keeps root t saved) (id : ObjectId) :
    (∃ content, .blob content ∈ saved ∧ blobId content = id ∧
      Blobs.get? root t id = .ok (some content)) ∨
    ((∀ content, .blob content ∈ saved → blobId content ≠ id) ∧
      Blobs.get? root t id = .ok none) := by
  rcases h.encoding?_cases .blob id with ⟨o, ho, hkind, hid, -⟩ | ⟨absent, hnone⟩
  · cases o with
    | blob content =>
      have stored := h.stored_iff.mpr ⟨.blob content, ho, hkind, hid, rfl⟩
      exact Or.inl ⟨content, ho, hid, Blobs.get?_of_stored h.toClear stored⟩
    | commit c => cases hkind
  · refine Or.inr ⟨fun content hcontent => absent (.blob content) hcontent rfl, ?_⟩
    rw [Blobs.get?, hnone]
    rfl

theorem getCommit_cases (h : Keeps root t saved) (readable : ∀ o ∈ saved, o.Readable)
    (id : ObjectId) :
    (∃ c, .commit c ∈ saved ∧ c.id = id ∧ Commits.get? root t id = .ok (some c)) ∨
    ((∀ c, .commit c ∈ saved → c.id ≠ id) ∧ Commits.get? root t id = .ok none) := by
  rcases h.encoding?_cases .commit id with ⟨o, ho, hkind, rfl, -⟩ | ⟨absent, hnone⟩
  · cases o with
    | blob content => cases hkind
    | commit c =>
      exact Or.inl ⟨c, ho, rfl, Commits.get?_of_stored h.toClear (h.commitStored readable ho)⟩
  · refine Or.inr ⟨fun c hc => absent (.commit c) hc rfl, ?_⟩
    rw [Commits.get?, hnone]
    rfl

theorem getBlob_iff (h : Keeps root t saved) (savable : Savable saved) (id : ObjectId) :
    (∀ content, Blobs.get? root t id = .ok (some content) ↔
        .blob content ∈ saved ∧ blobId content = id) ∧
      (Blobs.get? root t id = .ok none ↔ ∀ content, .blob content ∈ saved → blobId content ≠ id) :=
  answer_iff (h.getBlob_cases id) fun _ _ hx hy heq =>
    Object.blob.inj (savable.eq_of_id_eq hx hy heq)

theorem getCommit_iff (h : Keeps root t saved) (savable : Savable saved) (id : ObjectId) :
    (∀ c, Commits.get? root t id = .ok (some c) ↔ .commit c ∈ saved ∧ c.id = id) ∧
      (Commits.get? root t id = .ok none ↔ ∀ c, .commit c ∈ saved → c.id ≠ id) :=
  answer_iff (h.getCommit_cases savable.readable id) fun _ _ hx hy heq =>
    Object.commit.inj (savable.eq_of_id_eq hx hy heq)

/-- Saving an object leaves alone what lies in the files of other ids. -/
theorem encoding?_eq (h : Keeps root t saved) {o : Object}
    (h' : Keeps root t' (saved ++ [o])) (kind : Kind) {id : ObjectId} (other : id ≠ o.id) :
    Store.encoding? root kind t' id = Store.encoding? root kind t id := by
  rcases h.encoding?_cases kind id with ⟨e, he, hkind, hid, henc⟩ | ⟨absent, hnone⟩
  · rw [henc, encoding?_eq_some_iff h'.toClear, h'.stored_iff]
    exact ⟨e, List.mem_append_left _ he, hkind, hid, rfl⟩
  · rcases h'.encoding?_cases kind id with ⟨e, he, hkind, hid, -⟩ | ⟨-, hnone'⟩
    · rcases List.mem_append.mp he with hold | hnew
      · exact absurd hid (absent e hold hkind)
      · obtain rfl := List.mem_singleton.mp hnew
        exact absurd hid.symm other
    · rw [hnone, hnone']

end Keeps

/-! ## 4. Counting the files -/

namespace Keeps

/-- A file at any depth of a store is that of an object. -/
theorem of_file_below (h : Keeps root t saved) {kind : Kind} {names : List FileName}
    {content : Content}
    (hat : t.at? (names.reverse ++ storePath root kind) = some (.file content)) :
    ∃ o ∈ saved, o.kind = kind ∧ names = [.text o.id.directory, .text o.id.fileName] := by
  have noFile : ∀ d p, root <:+ p → p <:+ d :: storePath root kind →
      t.at? p ≠ some (.file content) := by
    intro d p below onWay hfile
    rcases h.way kind d p below onWay with hnone | hdir
    · simp [hnone] at hfile
    · simp [hdir] at hfile
  rcases names with _ | ⟨d, _ | ⟨f, deeper⟩⟩
  · exact absurd hat (noFile "" _ (List.suffix_append [_, _] root) (List.suffix_cons _ _))
  · exact absurd hat (noFile d _ (List.suffix_append [_, _, _] root) (List.suffix_refl _))
  · have hpath : (d :: f :: deeper).reverse ++ storePath root kind =
        deeper.reverse ++ f :: d :: storePath root kind := by simp
    rw [hpath] at hat
    cases deeper with
    | nil =>
      obtain ⟨o, ho, hobject, -⟩ := (h.files kind d f _).mp hat
      simp only [objectPath, storePath, List.cons.injEq, and_true] at hobject
      obtain ⟨rfl, rfl, hstore⟩ := hobject
      exact ⟨o, ho, storeName_injective (FileName.text.inj hstore), rfl⟩
    | cons name deeper =>
      -- a file is in the way
      have hdir : t.at? (f :: d :: storePath root kind) = some .dir := at?_above hat (by simp)
      obtain ⟨o, -, -, hentry⟩ := (h.files kind d f _).mp hdir
      cases hentry

theorem mem_filesBelow_iff (h : Keeps root t saved) {kind : Kind} {names : List FileName} :
    names ∈ t.filesBelow (storePath root kind) ↔
      ∃ o ∈ saved, o.kind = kind ∧ names = [.text o.id.directory, .text o.id.fileName] := by
  rw [mem_filesBelow]
  refine ⟨fun ⟨_, hat⟩ => h.of_file_below hat, ?_⟩
  rintro ⟨o, ho, rfl, rfl⟩
  exact ⟨.packed o.encoding, h.stored_iff.mpr ⟨o, ho, rfl, rfl, rfl⟩⟩

/-- **As many files as different objects.** -/
theorem length_filesBelow (h : Keeps root t saved) (savable : Savable saved) (kind : Kind) :
    (t.filesBelow (storePath root kind)).length =
      (saved.filter fun o => o.kind = kind).dedup.length := by
  have of_mem : ∀ o, o ∈ (saved.filter fun o => o.kind = kind).dedup ↔
      o ∈ saved ∧ o.kind = kind := by simp
  have perm : (t.filesBelow (storePath root kind)).Perm
      ((saved.filter fun o => o.kind = kind).dedup.map
        fun o => [.text o.id.directory, .text o.id.fileName]) := by
    refine (List.perm_ext_iff_of_nodup (nodup_filesBelow _ _) ?_).mpr fun names => ?_
    · refine (List.nodup_dedup _).map_on ?_
      intro o ho o' ho' heq
      refine savable.eq_of_id_eq ((of_mem o).mp ho).1 ((of_mem o').mp ho').1 (ObjectId.ext ?_)
      simp only [List.cons.injEq, FileName.text.injEq, and_true] at heq
      rw [← o.id.directory_append_fileName, ← o'.id.directory_append_fileName, heq.1, heq.2]
    · rw [h.mem_filesBelow_iff, List.mem_map]
      refine exists_congr fun o => ?_
      rw [of_mem, and_assoc, eq_comm (a := names)]
  rw [perm.length_eq, List.length_map]

end Keeps

/-! ## 5. Listing the commits -/

instance : Std.TransOrd ObjectId := inferInstanceAs (Std.TransCmp (compareOn ObjectId.text))

instance : Std.LawfulEqOrd ObjectId where
  eq_of_compare h := ObjectId.ext (Std.LawfulEqOrd.eq_of_compare h)

namespace Keeps

/-- The path of a file tells the id of the object that it holds. -/
theorem ofText?_of_file (h : Keeps root t saved) {kind : Kind} {d f : FileName} {e : Entry}
    (hat : t.at? (f :: d :: storePath root kind) = some e) {id : ObjectId}
    (htext : ObjectId.ofText? (d.shown ++ f.shown) = .ok id) :
    d = id.directory ∧ f = id.fileName ∧ ∃ o ∈ saved, o.kind = kind ∧ o.id = id := by
  obtain ⟨o, ho, hpath, -⟩ := (h.files kind d f e).mp hat
  simp only [objectPath, storePath, List.cons.injEq, and_true] at hpath
  obtain ⟨rfl, rfl, hstore⟩ := hpath
  rw [FileName.shown_text, FileName.shown_text, o.id.directory_append_fileName,
    ObjectId.ofText?_text] at htext
  obtain rfl := Except.ok.inj htext
  exact ⟨rfl, rfl, o, ho, storeName_injective (FileName.text.inj hstore), rfl⟩

theorem mem_ids (h : Keeps root t saved) {kind : Kind} {id : ObjectId} :
    id ∈ Store.ids root kind t ↔ ∃ o ∈ saved, o.kind = kind ∧ o.id = id := by
  rw [Store.mem_ids h.toClear]
  constructor
  · rintro ⟨d, f, content, hat, htext⟩
    exact (h.ofText?_of_file hat htext).2.2
  · rintro ⟨o, ho, rfl, rfl⟩
    refine ⟨o.id.directory, o.id.fileName, _, h.stored_iff.mpr ⟨o, ho, rfl, rfl, rfl⟩, ?_⟩
    rw [FileName.shown_text, FileName.shown_text, o.id.directory_append_fileName,
      ObjectId.ofText?_text]

theorem nodup_ids (h : Keeps root t saved) (kind : Kind) : (Store.ids root kind t).Nodup := by
  rcases locate_store h.toClear kind with hlocate | ⟨hlocate, -⟩
  · simp only [Store.ids, hlocate, Store.sorted, (List.mergeSort_perm _ _).nodup_iff]
    -- an id tells the directory and the file that it is listed for
    refine List.pairwise_flatMap.mpr ⟨?_, ?_⟩
    · rintro ⟨d, e⟩ -
      dsimp only
      split
      · have distinct := distinct_filesOf (distinct_children t (d :: storePath root kind))
        refine List.pairwise_filterMap.mpr (distinct.imp_of_mem ?_)
        rintro ⟨f, content⟩ ⟨f', content'⟩ hf hf' other id hid id' hid' rfl
        have hat := mem_children.mp (Worktree.mem_filesOf.mp hf)
        have hat' := mem_children.mp (Worktree.mem_filesOf.mp hf')
        have hname := (h.ofText?_of_file hat (toOption_eq_some_iff.mp hid)).2.1
        have hname' := (h.ofText?_of_file hat' (toOption_eq_some_iff.mp hid')).2.1
        exact other (hname.trans hname'.symm)
      · exact List.Pairwise.nil
    · refine (distinct_children t _).imp ?_
      rintro ⟨d, e⟩ ⟨d', e'⟩ other id hid id' hid' rfl
      obtain ⟨-, f, content, hat, htext⟩ := Store.mem_directory.mp hid
      obtain ⟨-, f', content', hat', htext'⟩ := Store.mem_directory.mp hid'
      exact other ((h.ofText?_of_file hat htext).1.trans (h.ofText?_of_file hat' htext').1.symm)
  · simp only [Store.ids, hlocate]
    exact List.nodup_nil

theorem ascending_ids (h : Keeps root t saved) (kind : Kind) :
    (Store.ids root kind t).Pairwise fun a b => compare a b = .lt := by
  have distinct := h.nodup_ids kind
  rcases locate_store h.toClear kind with hlocate | ⟨hlocate, -⟩
  · simp only [Store.ids, hlocate, Store.sorted] at distinct ⊢
    exact pairwise_lt_mergeSort ((List.mergeSort_perm _ _).nodup_iff.mp distinct)
  · simp only [Store.ids, hlocate]
    exact List.Pairwise.nil

theorem of_load (h : Keeps root t saved) (readable : ∀ o ∈ saved, o.Readable) {id : ObjectId}
    {c : Commit} (hload : Commits.load root t id = .ok c) : .commit c ∈ saved ∧ c.id = id := by
  rcases h.getCommit_cases readable id with ⟨c', hc', rfl, -⟩ | ⟨-, hnone⟩
  · rw [Commits.load_of_stored h.toClear (h.commitStored readable hc')] at hload
    obtain rfl := Except.ok.inj hload
    exact ⟨hc', rfl⟩
  · simp [Commits.load, hnone, bind, Except.bind] at hload

/-- **The commits are listed by their ids, each once.** -/
theorem all_run (h : Keeps root t saved) (readable : ∀ o ∈ saved, o.Readable) :
    ∃ cs, Commits.all root t = .ok cs ∧ (cs.Pairwise fun a b => compare a.id b.id = .lt) ∧
      ∀ c, c ∈ cs ↔ .commit c ∈ saved := by
  have loads : ∀ id ∈ Store.ids root .commit t, ∃ c, Commits.load root t id = .ok c := by
    intro id hid
    obtain ⟨o, ho, hkind, rfl⟩ := h.mem_ids.mp hid
    cases o with
    | blob content => cases hkind
    | commit c => exact ⟨c, Commits.load_of_stored h.toClear (h.commitStored readable ho)⟩
  obtain ⟨cs, hall⟩ := mapM_succeeds loads
  have ids : Store.ids root .commit t = cs.map Commit.id := by
    have told := (forall₂_of_mapM hall).imp fun id c hload => (h.of_load readable hload).2.symm
    rwa [← List.forall₂_map_right_iff, List.forall₂_eq_eq_eq] at told
  refine ⟨cs, hall, ?_, fun c => ⟨fun hc => ?_, fun hc => ?_⟩⟩
  · have ascending := h.ascending_ids .commit
    rwa [ids, List.pairwise_map] at ascending
  · obtain ⟨id, -, hload⟩ := exists_of_mem_mapM hall hc
    exact (h.of_load readable hload).1
  · have hid := h.mem_ids.mpr ⟨_, hc, rfl, rfl⟩
    obtain ⟨c', hc', hload⟩ := exists_mem_of_mapM hall hid
    rw [Object.id, Commits.load_of_stored h.toClear (h.commitStored readable hc)] at hload
    exact Except.ok.inj hload ▸ hc'

end Keeps

/-! ## 6. Whole sequences -/

/-- What the stores answer when these objects have been saved. -/
structure AnswersFor (root : Path) (t : FileTree) (saved : List Object) : Prop where
  /-- An id is answered with the contents that were saved under it. -/
  blob : ∀ id content, Blobs.get? root t id = .ok (some content) ↔
    .blob content ∈ saved ∧ blobId content = id
  noBlob : ∀ id, Blobs.get? root t id = .ok none ↔
    ∀ content, .blob content ∈ saved → blobId content ≠ id
  /-- An id is answered with the commit that was saved under it. -/
  commit : ∀ id c, Commits.get? root t id = .ok (some c) ↔ .commit c ∈ saved ∧ c.id = id
  noCommit : ∀ id, Commits.get? root t id = .ok none ↔ ∀ c, .commit c ∈ saved → c.id ≠ id
  /-- Different objects, and they alone, have a file each. -/
  files : ∀ kind, (t.filesBelow (storePath root kind)).length =
    (saved.filter fun o => o.kind = kind).dedup.length
  /-- The commits are listed by their ids, and those with a message in the same order. -/
  all : ∃ cs, Commits.all root t = .ok cs ∧ (cs.Pairwise fun a b => compare a.id b.id = .lt) ∧
    (∀ c, c ∈ cs ↔ .commit c ∈ saved) ∧
    ∀ message, Commits.withMessage root t message = .ok (cs.filter fun c => c.message = message)

theorem Keeps.answersFor (h : Keeps root t saved) (savable : Savable saved) :
    AnswersFor root t saved where
  blob id := (h.getBlob_iff savable id).1
  noBlob id := (h.getBlob_iff savable id).2
  commit id := (h.getCommit_iff savable id).1
  noCommit id := (h.getCommit_iff savable id).2
  files := h.length_filesBelow savable
  all := by
    obtain ⟨cs, hall, ascending, hcs⟩ := h.all_run savable.readable
    exact ⟨cs, hall, ascending, hcs, fun message => by rw [Commits.withMessage, hall]; rfl⟩

/-- Objects that can be read back are saved one after the other, from stores with nothing in them
on.  After every part of the sequence the stores answer for what has been saved so far; what is
saved next leaves the answers for other ids as they are, and everything when it was saved before. -/
theorem Object.Savable.saves (vacant : Vacant root t) {objects : List Object}
    (savable : Savable objects)
    (printed : String) :
    ∀ before, before <+: objects →
      ∃ t₁, saveAll root before ⟨t, printed⟩ = (.ok (before.map Object.id), ⟨t₁, printed⟩) ∧
        AnswersFor root t₁ before ∧
        ∀ o, before ++ [o] <+: objects →
          ∃ t₂, o.save root ⟨t₁, printed⟩ = (.ok o.id, ⟨t₂, printed⟩) ∧
            AnswersFor root t₂ (before ++ [o]) ∧
            (∀ id, id ≠ o.id → Blobs.get? root t₂ id = Blobs.get? root t₁ id ∧
              Commits.get? root t₂ id = Commits.get? root t₁ id) ∧
            (o ∈ before → t₂ = t₁) := by
  intro before hbefore
  have savableBefore : Savable ([] ++ before) := savable.mono hbefore.subset
  obtain ⟨t₁, hrun, keeps⟩ := vacant.keeps.saveAll savableBefore printed
  rw [List.nil_append] at keeps savableBefore
  refine ⟨t₁, hrun, keeps.answersFor savableBefore, fun o hnext => ?_⟩
  have savable' := savable.mono hnext.subset
  obtain ⟨t₂, hrun', keeps', same⟩ := keeps.save savable' printed
  refine ⟨t₂, hrun', keeps'.answersFor savable', fun id other => ⟨?_, ?_⟩, same⟩
  · rw [Blobs.get?, Blobs.get?, keeps.encoding?_eq keeps' .blob other]
  · rw [Commits.get?, Commits.get?, keeps.encoding?_eq keeps' .commit other]

/-! ## 7. What is kept of an object -/

namespace Object

/-- What is kept of an object: of contents all of it, of a commit all but the part of its moment
that is not written down. -/
def told : Object → Object
  | blob content => .blob content
  | commit c => .commit c.told

/-- An object whose encoding can be read: any contents, and a commit whose text can be read. -/
def Legible : Object → Prop
  | blob _ => True
  | commit c => c.Legible

theorem encoding_told (o : Object) : o.told.encoding = o.encoding := by
  cases o with
  | blob _ => rfl
  | commit c => exact c.encoding_told

theorem kind_told (o : Object) : o.told.kind = o.kind := by
  cases o <;> rfl

theorem id_told (o : Object) : o.told.id = o.id := by
  cases o with
  | blob _ => rfl
  | commit c => exact c.id_told

/-- An object is saved as what is kept of it. -/
theorem save_told (o : Object) : o.told.save root = o.save root := by
  cases o with
  | blob _ => rfl
  | commit c => simp only [told, save, Commits.save, c.encoding_told, c.id_told]

theorem map_id_told (objects : List Object) :
    (objects.map told).map Object.id = objects.map Object.id := by
  rw [List.map_map]
  exact List.map_congr_left fun o _ => o.id_told

theorem saveAll_told (objects : List Object) :
    saveAll root (objects.map told) = saveAll root objects := by
  rw [saveAll, saveAll, List.mapM_map]
  exact congrArg (fun f => objects.mapM f) (funext save_told)

/-- Objects that can be written down together: they can be read again, and where their encodings
differ, the digests do. -/
structure Writable (objects : List Object) : Prop where
  legible : ∀ o ∈ objects, o.Legible
  distinct : ∀ o ∈ objects, ∀ o' ∈ objects, o.encoding ≠ o'.encoding → o.id ≠ o'.id

theorem Writable.savable {objects : List Object} (h : Writable objects) :
    Savable (objects.map told) where
  readable := by
    refine List.forall_mem_map.mpr fun o ho => ?_
    have legible := h.legible o ho
    cases o with
    | blob _ => exact trivial
    | commit c => exact Commit.Legible.readable_told legible
  distinct := by
    refine List.forall_mem_map.mpr fun o ho => List.forall_mem_map.mpr fun o' ho' => ?_
    rw [encoding_told, encoding_told, id_told, id_told]
    exact h.distinct o ho o' ho'

end Object

/-- **The stores are maps that only grow**, up to what is not kept of a commit: the part of its
moment below a second.  Objects are saved one after the other, from stores with nothing in them on.
After every part of the sequence the stores answer for what is kept of the objects saved so far;
what is saved next leaves the answers for other ids as they are, and everything when the same was
kept before. -/
theorem Object.saves_answer (vacant : Vacant root t) {objects : List Object}
    (writable : Writable objects) (printed : String) :
    ∀ before, before <+: objects →
      ∃ t₁, saveAll root before ⟨t, printed⟩ = (.ok (before.map Object.id), ⟨t₁, printed⟩) ∧
        AnswersFor root t₁ (before.map told) ∧
        ∀ o, before ++ [o] <+: objects →
          ∃ t₂, o.save root ⟨t₁, printed⟩ = (.ok o.id, ⟨t₂, printed⟩) ∧
            AnswersFor root t₂ ((before ++ [o]).map told) ∧
            (∀ id, id ≠ o.id → Blobs.get? root t₂ id = Blobs.get? root t₁ id ∧
              Commits.get? root t₂ id = Commits.get? root t₁ id) ∧
            (o.told ∈ before.map told → t₂ = t₁) := by
  intro before hbefore
  obtain ⟨t₁, hrun, answers, next⟩ :=
    writable.savable.saves vacant printed _ (hbefore.map told)
  rw [saveAll_told, map_id_told] at hrun
  refine ⟨t₁, hrun, answers, fun o hnext => ?_⟩
  have hnext' := hnext.map told
  rw [List.map_append, List.map_singleton] at hnext'
  obtain ⟨t₂, hsave, answers', others, same⟩ := next o.told hnext'
  rw [save_told, id_told] at hsave
  rw [id_told] at others
  refine ⟨t₂, hsave, ?_, others, same⟩
  rwa [List.map_append, List.map_singleton]

namespace Mixed

/-- Contents with the bytes that end the parts of a header. -/
def content : Bytes := [0x20, 0x00, 0x20]

/-- A commit with nothing but a moment. -/
def silent : Commit := { Commit.initial with message := "" }

/-- Two commits, and contents that are saved twice. -/
def objects : List Object :=
  [.blob content, .commit Commit.initial, .blob content, .commit silent]

theorem nodup_ids :
    ([.blob content, .commit Commit.initial, .commit silent].map Object.id).Nodup := by
  decide +kernel

theorem writable : Writable objects where
  legible o ho := by
    simp only [objects, List.mem_cons, List.not_mem_nil, or_false] at ho
    rcases ho with rfl | rfl | rfl | rfl
    · trivial
    · exact ⟨by simp [Commit.initial], by decide⟩
    · trivial
    · exact ⟨by simp [silent, Commit.initial], by decide⟩
  distinct o ho o' ho' other heq := by
    have sub : ∀ o ∈ objects, o ∈ [.blob content, .commit Commit.initial, .commit silent] := by
      decide
    exact other (by rw [List.inj_on_of_nodup_map nodup_ids (sub o ho) (sub o' ho') heq])

theorem told_objects : objects.map Object.told = objects := by decide +kernel

theorem at?_empty (name : FileName) (parent : Path) :
    FileTree.empty.at? (name :: parent) = none := by
  simp only [at?, FileTree.empty, Listings.standing?, Std.ExtTreeMap.getElem?_insert]
  split <;> simp

theorem vacant : Vacant [] FileTree.empty where
  free p target _ hlink := by
    cases p with
    | nil => simp at hlink
    | cons name parent => simp [at?_empty] at hlink
  room := by decide
  top := rfl
  way _ _ p _ _ := by
    cases p with
    | nil => exact Or.inr rfl
    | cons name parent => exact Or.inl (at?_empty name parent)
  empty _ _ _ := at?_empty _ _

/-- The contents are answered for after two savings, the other commit is not, and a third saving
changes nothing. -/
theorem saves_answer_objects : Vacant [] FileTree.empty ∧ Writable objects ∧
    objects.take 2 <+: objects ∧ objects.take 2 ++ [.blob content] <+: objects ∧
    ∃ t, saveAll [] (objects.take 2) ⟨FileTree.empty, ""⟩ =
        (.ok [blobId content, Commit.initial.id], ⟨t, ""⟩) ∧
      Blobs.get? [] t (blobId content) = .ok (some content) ∧
      Commits.get? [] t silent.id = .ok none ∧
      (t.filesBelow (storePath [] .blob)).length = 1 ∧
      (Object.blob content).save [] ⟨t, ""⟩ = (.ok (blobId content), ⟨t, ""⟩) := by
  have two : objects.take 2 <+: objects := List.take_prefix 2 objects
  have three : objects.take 2 ++ [.blob content] <+: objects := List.take_prefix 3 objects
  obtain ⟨t, hrun, answers, next⟩ := Object.saves_answer vacant writable "" _ two
  obtain ⟨t', hrun', -, -, same⟩ := next _ three
  rw [List.map_take, told_objects] at answers
  obtain rfl : t' = t := same (by rw [List.map_take, told_objects]; simp [objects, Object.told])
  refine ⟨vacant, writable, two, three, t', hrun, ?_, ?_, answers.files .blob, hrun'⟩
  · exact (answers.blob _ _).mpr ⟨by simp [objects], rfl⟩
  · refine (answers.noCommit _).mpr ?_
    intro c hc hid
    obtain rfl : c = Commit.initial := by simpa [objects] using hc
    have := nodup_ids
    simp [Object.id, hid] at this

/-- The first commit, made some tenths of a second later. -/
def tenths (n : Fin 10) : Commit :=
  let fraction := n.val * 100000000
  { Commit.initial with
    moment := { Time.Moment.epoch with
      fraction := fraction
      fraction_lt := Or.inl (by simp only [fraction, Time.nanoseconds]; omega) } }

theorem legible_tenths (n : Fin 10) : (tenths n).Legible where
  names name held := absurd held Std.ExtTreeMap.not_mem_empty
  tellable := Time.Moment.tellable_of_minutes (by rfl)

theorem told_tenths (n : Fin 10) : (tenths n).told = Commit.initial := by
  have moment : (tenths n).moment.told = Time.Moment.epoch :=
    Time.Moment.ext rfl rfl
      ((legible_tenths n).tellable.offset_told.trans (Time.roundedOffset_of_whole rfl))
  rw [Commit.told, moment]
  rfl

/-- Commits that differ in tenths of a second share an id and a file, and what is answered is none
of them. -/
theorem tenths_not_told_apart : Vacant [] FileTree.empty ∧
    Writable [.commit (tenths 1), .commit (tenths 2)] ∧ tenths 1 ≠ tenths 2 ∧
    ∃ t, saveAll [] [.commit (tenths 1), .commit (tenths 2)] ⟨FileTree.empty, ""⟩ =
        (.ok [(tenths 1).id, (tenths 2).id], ⟨t, ""⟩) ∧
      (tenths 1).id = (tenths 2).id ∧
      Commits.get? [] t (tenths 1).id = .ok (some Commit.initial) ∧ tenths 1 ≠ Commit.initial ∧
      (t.filesBelow (storePath [] .commit)).length = 1 := by
  have id : ∀ n, (tenths n).id = Commit.initial.id := fun n => by
    rw [← (tenths n).id_told, told_tenths]
  have writable : Writable [.commit (tenths 1), .commit (tenths 2)] := by
    refine ⟨?_, ?_⟩
    · simp only [List.mem_cons, List.not_mem_nil, or_false, forall_eq_or_imp, forall_eq]
      exact ⟨legible_tenths 1, legible_tenths 2⟩
    · intro o ho o' ho' differ
      have encoding : ∀ n, (tenths n).encoding = Commit.initial.encoding := fun n => by
        rw [← (tenths n).encoding_told, told_tenths]
      have same : ∀ o ∈ [Object.commit (tenths 1), .commit (tenths 2)],
          o.encoding = Commit.initial.encoding := by
        simp only [List.mem_cons, List.not_mem_nil, or_false, forall_eq_or_imp, forall_eq]
        exact ⟨encoding 1, encoding 2⟩
      exact absurd ((same o ho).trans (same o' ho').symm) differ
  obtain ⟨t, hrun, answers, -⟩ := writable.savable.saves vacant "" _ (List.prefix_refl _)
  rw [saveAll_told] at hrun
  refine ⟨vacant, writable, by decide, t, hrun, (id 1).trans (id 2).symm, ?_, by decide,
    answers.files .commit⟩
  exact (answers.commit _ _).mpr ⟨by simp [Object.told, told_tenths], (id 1).symm⟩

end Mixed

end LocalVcs
