/-
# The snapshot of the working files

The report compares the ids that the working files would have as blobs.  A file is told by the name
that is listed, and the id is that of what this name leads to.  Where no links are about, these are
the plain files right in the working directory.

* `Command.getElem?_workingIds`: the id of a working file, wherever links lead.
* `Command.getElem?_workingIds_of_housed`: its id where no links are about.
-/
import LocalVcs.Proofs.NextCommit

namespace LocalVcs

open FileTree Layout

variable {root : Path} {t : FileTree} {name : String}

/-- What is read of a file right in the working directory are its bytes. -/
theorem Worktree.of_read {bytes : Bytes} {content : Content} (h : read root t name = .ok bytes)
    (hat : t.at? (name :: root) = some (.file content)) : bytes = content.bytes := by
  have noSlash : '/' ∉ name.toList := (at?_of_cons hat).1.2.2.2.1
  obtain ⟨text, named⟩ : ∃ text, fileName? name = some text := by
    cases hroute : requireRoute root name with
    | error fault =>
      rw [read, hroute] at h
      cases h
    | ok route =>
      obtain ⟨text, htext, -⟩ := exists_of_requireRoute hroute
      exact ⟨text, htext⟩
  obtain ⟨found, hfound, rfl⟩ := at?_of_read (fileName?_of_noSlash named noSlash) (by simp [hat]) h
  obtain rfl : found = content := by simpa [hat] using hfound.symm
  rfl

namespace Command

/-- **The ids of the working files**, wherever links lead. -/
theorem getElem?_workingIds {working : NameMap ObjectId} (h : workingIds root t = .ok working)
    {id : ObjectId} : working[name]? = some id ↔ Worktree.Listed root t name ∧
      ∃ bytes, Worktree.read root t name = .ok bytes ∧ Object.blobId bytes = id := by
  obtain ⟨names, ids, hlist, rfl, sameNames, each⟩ := of_workingIds h
  have mem_names (name : String) : name ∈ names ↔ _ := Worktree.mem_of_list hlist
  -- a name may be listed twice, but then with the same id
  have ofEntry {n : String} {id : ObjectId} (hentry : (n, id) ∈ ids) :
      Worktree.Listed root t n ∧ ∃ bytes, Worktree.read root t n = .ok bytes ∧
        Object.blobId bytes = id := by
    obtain ⟨m, hm, rfl, bytes, hread, hid⟩ := exists_of_mem_forall₂ each hentry
    exact ⟨(mem_names _).mp hm, bytes, hread, hid⟩
  refine ⟨fun hsome => ofEntry (NameMap.mem_of_getElem?_ofList hsome), ?_⟩
  rintro ⟨listed, bytes, hread, rfl⟩
  obtain ⟨id, hid⟩ : ∃ id, (Std.ExtTreeMap.ofList ids compare : NameMap ObjectId)[name]? =
      some id := by
    rw [← NameMap.mem_iff_exists_getElem?, Std.ExtTreeMap.mem_ofList, List.contains_iff_mem,
      sameNames, mem_names]
    exact listed
  obtain ⟨-, bytes', hread', rfl⟩ := ofEntry (NameMap.mem_of_getElem?_ofList hid)
  rw [hid, Except.ok.inj (hread.symm.trans hread')]

/-- Where no links are about, they are the ids of plain files. -/
theorem getElem?_workingIds_of_housed (h : Housed root t) {working : NameMap ObjectId}
    (hworking : workingIds root t = .ok working) {id : ObjectId} :
    working[name]? = some id ↔ (Worktree.fileName? name).isSome = true ∧ ∃ content,
      t.at? (name :: root) = some (.file content) ∧ Object.blobId content.bytes = id := by
  rw [getElem?_workingIds hworking]
  constructor
  · rintro ⟨listed, bytes, hread, rfl⟩
    have noLink := fun target => h.free (.text name :: root) target (List.suffix_cons _ _)
    obtain ⟨content, hat, rfl⟩ := Worktree.at?_of_read listed.names noLink hread
    exact ⟨listed.1, content, hat, rfl⟩
  · rintro ⟨named, content, hat, rfl⟩
    have held : name ∈ working := (mem_workingIds_iff h hworking).mpr ⟨named, content, hat⟩
    obtain ⟨id, hid⟩ := NameMap.mem_iff_exists_getElem?.mp held
    obtain ⟨-, bytes, hread, -⟩ := (getElem?_workingIds hworking).mp hid
    exact ⟨.of_file named hat, bytes, hread, by rw [Worktree.of_read hread hat]⟩

end Command

end LocalVcs
