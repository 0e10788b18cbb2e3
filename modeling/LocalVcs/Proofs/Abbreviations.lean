/-
# Abbreviated ids

A text names the commit whose id it begins, in digits of either case, when there is but one.  An id
is looked for in three ways: a whole one in its file, a beginning of one digit among all ids, and a
longer one in the one directory where it can be.  Here they come to the same, for every text, when
the stores hold what has been saved.

* `ObjectId.beginsWith_iff_directory`: a beginning is told by the directory and by the file's name.
* `Keeps.idsBeginning_eq`: the ids that are found are those of the listing that begin so.
* `Keeps.find?_run`: the commit that a text names.
* `Object.saved_abbreviated`: so it is after every sequence of savings.
-/
import LocalVcs.Proofs.SavedObjects
import Mathlib.Data.List.Sort

namespace LocalVcs

open FileTree Layout
open Object (Savable Writable saveAll told saveAll_told map_id_told id_told kind_told)

variable {root : Path} {t : FileTree} {saved : List Object} {kind : Kind} {id : ObjectId}
  {text : String}

/-! ## 1. Beginnings of an id -/

namespace ObjectId

theorem beginsWith_iff :
    id.beginsWith text = true ↔ (lowered text).toList <+: id.text.toList :=
  List.isPrefixOf_iff_prefix

theorem isHexDigit_of_beginsWith (h : id.beginsWith text = true) {c : Char}
    (hc : c ∈ (lowered text).toList) : Sha1.IsHexDigit c :=
  id.digits c ((beginsWith_iff.mp h).subset hc)

/-- From two digits on, the first two name the directory, and the others begin the file's name. -/
theorem beginsWith_iff_directory (two : 2 ≤ (lowered text).toList.length) :
    id.beginsWith text = true ↔ id.directory = String.ofList ((lowered text).toList.take 2) ∧
      (lowered text).toList.drop 2 <+: id.fileName.toList := by
  rw [beginsWith_iff, directory, fileName, String.toList_ofList]
  constructor
  · rintro ⟨others, happend⟩
    rw [← happend, List.take_append_of_le_length two, List.drop_append_of_le_length two]
    exact ⟨rfl, List.prefix_append _ _⟩
  · rintro ⟨hdirectory, others, hothers⟩
    have first : id.text.toList.take 2 = (lowered text).toList.take 2 := by
      simpa using congrArg String.toList hdirectory
    refine ⟨others, ?_⟩
    rw [← List.take_append_drop 2 id.text.toList, ← hothers, first, ← List.append_assoc,
      List.take_append_drop]

/-- A whole id begins itself alone. -/
theorem eq_of_beginsWith {whole : ObjectId} (h : ofText? text = .ok whole) (id : ObjectId) :
    id.beginsWith text = true ↔ id = whole := by
  have htext : lowered text = whole.text := by
    simp only [ofText?] at h
    split at h
    · cases h
    · split at h
      · cases h
        rfl
      · cases h
  rw [beginsWith_iff, htext]
  refine ⟨fun start => ObjectId.ext (String.toList_injective ?_), ?_⟩
  · exact (start.eq_of_length (by rw [whole.length_eq, id.length_eq])).symm
  · rintro rfl
    exact List.prefix_refl _

end ObjectId

/-! ## 2. One directory of a store -/

/-- A directory named by two digits is listed, if it is there. -/
theorem list?_directory (h : Clear root t) (kind : Kind) {digits : List Char}
    (hex : ∀ c ∈ digits, Sha1.IsHexDigit c) (two : digits.length = 2) :
    t.list? ((Layout.store root kind).child (String.ofList digits)) =
      if t.at? (.text (String.ofList digits) :: storePath root kind) = some .dir then
        some (t.children (.text (String.ofList digits) :: storePath root kind))
      else none := by
  have validDirectory : ValidName (.text (String.ofList digits)) :=
    validName_of_hexDigits hex (List.ne_nil_of_length_pos (by omega)) (by rw [two]; decide)
  have valid :
      ∀ n ∈ [FileName.text metaName, storeName kind, String.ofList digits], ValidName n := by
    simp [validName_metaName, validName_storeName, validDirectory]
  have short :
      Route.bytesOf [FileName.text metaName, storeName kind, String.ofList digits] ≤ 58 := by
    have : (String.ofList digits).utf8ByteSize = 2 := by
      rw [ObjectId.utf8ByteSize_ofList fun c hc => ObjectId.utf8Size_of_isHexDigit (hex c hc), two]
    cases kind <;> simp only [Route.bytesOf, FileName.size_text, this] <;> decide
  have straight : Straight t ((Layout.store root kind).child (String.ofList digits)) :=
    straight_of_names _ h.free valid (by simp) (Nat.le_trans (Nat.add_le_add_left short _) h.room)
  have hpath : ((Layout.store root kind).child (String.ofList digits)).path =
      .text (String.ofList digits) :: storePath root kind :=
    path_of_names [FileName.text metaName, storeName kind, String.ofList digits] valid
  split
  · rename_i hdir
    rw [list?_eq straight.tell straight.level (by rwa [hpath]), hpath]
  · rename_i noDir
    rw [FileTree.list?]
    cases hlocate : t.locate ((Layout.store root kind).child (String.ofList digits)) with
    | none => rfl
    | some q =>
      obtain rfl := path_of_locate straight.free straight.level hlocate
      rw [hpath, Option.bind_some, if_neg noDir]

namespace Keeps

/-- What is found in one directory. -/
def foundIn (root : Path) (kind : Kind) (t : FileTree) (directory : String) (start : List Char) :
    List ObjectId :=
  (t.children (.text directory :: storePath root kind)).filterMap fun (name, _) =>
    if start.isPrefixOf name.shown.toList then
      (ObjectId.ofText? (directory ++ name.shown)).toOption
    else none

variable {directory : String} {start : List Char}

theorem mem_foundIn (h : Keeps root t saved) :
    id ∈ foundIn root kind t directory start ↔ id ∈ Store.ids root kind t ∧
      id.directory = directory ∧ start <+: id.fileName.toList := by
  rw [foundIn, List.mem_filterMap, h.mem_ids]
  constructor
  · rintro ⟨⟨name, e⟩, hentry, hid⟩
    dsimp only at hid
    split at hid
    · rename_i begins
      obtain ⟨hdirectory, rfl, there⟩ :=
        h.ofText?_of_file (mem_children.mp hentry) (toOption_eq_some_iff.mp hid)
      exact ⟨there, (FileName.text.inj hdirectory).symm, List.isPrefixOf_iff_prefix.mp begins⟩
    · cases hid
  · rintro ⟨⟨o, ho, rfl, rfl⟩, rfl, begins⟩
    have stored := h.stored_iff.mpr ⟨o, ho, rfl, rfl, rfl⟩
    refine ⟨(o.id.fileName, _), mem_children.mpr stored, ?_⟩
    dsimp only
    rw [FileName.shown_text, if_pos (List.isPrefixOf_iff_prefix.mpr begins),
      o.id.directory_append_fileName, ObjectId.ofText?_text]
    rfl

theorem nodup_foundIn (h : Keeps root t saved) : (foundIn root kind t directory start).Nodup := by
  refine List.pairwise_filterMap.mpr ((distinct_children t _).imp_of_mem ?_)
  rintro ⟨f, e⟩ ⟨f', e'⟩ hf hf' other id hid id' hid' rfl
  have of_found {f : FileName} {e : Entry}
      (hf : (f, e) ∈ t.children (.text directory :: storePath root kind))
      (hid : (if start.isPrefixOf f.shown.toList then
        (ObjectId.ofText? (directory ++ f.shown)).toOption else none) = some id) :
      f = id.fileName := by
    split at hid
    · exact (h.ofText?_of_file (mem_children.mp hf) (toOption_eq_some_iff.mp hid)).2.1
    · cases hid
  exact other ((of_found hf hid).trans (of_found hf' hid').symm)

/-! ## 3. The ids that begin so -/

/-- The ids that begin so are all among those of the listing, each once. -/
theorem idsBeginning_spec (h : Keeps root t saved) (kind : Kind) (text : String) :
    ((Store.idsBeginning root kind t text).Pairwise fun a b => compare a b = .lt) ∧
      ∀ id, id ∈ Store.idsBeginning root kind t text ↔
        id ∈ Store.ids root kind t ∧ id.beginsWith text = true := by
  simp only [Store.idsBeginning]
  split
  · rename_i notHex
    refine ⟨List.Pairwise.nil, fun id => iff_of_false List.not_mem_nil ?_⟩
    rintro ⟨-, begins⟩
    exact notHex (List.all_eq_true.mpr fun c hc =>
      decide_eq_true (ObjectId.isHexDigit_of_beginsWith begins hc))
  · rename_i hex
    rw [Classical.not_not] at hex
    have hex' : ∀ c ∈ (ObjectId.lowered text).toList, Sha1.IsHexDigit c := fun c hc =>
      of_decide_eq_true (List.all_eq_true.mp hex c hc)
    split
    · exact ⟨(h.ascending_ids kind).filter _, fun id => List.mem_filter⟩
    · rename_i long
      rw [Nat.not_lt] at long
      rw [list?_directory h.toClear kind (fun c hc => hex' c (List.mem_of_mem_take hc))
        (by rw [List.length_take, Nat.min_eq_left long])]
      split
      · rename_i hlist
        split at hlist
        · cases hlist
        · rename_i noDir
          refine ⟨List.Pairwise.nil, fun id => iff_of_false List.not_mem_nil ?_⟩
          rintro ⟨hid, begins⟩
          obtain ⟨o, ho, rfl, rfl⟩ := h.mem_ids.mp hid
          rw [← ((ObjectId.beginsWith_iff_directory long).mp begins).1] at noDir
          exact noDir (at?_of_cons (h.stored_iff.mpr ⟨o, ho, rfl, rfl, rfl⟩)).2
      · rename_i hlist
        split at hlist
        · cases hlist
          exact ⟨pairwise_lt_mergeSort h.nodup_foundIn, fun id => by
            rw [Store.sorted, List.mem_mergeSort, ObjectId.beginsWith_iff_directory long]
            exact h.mem_foundIn⟩
        · cases hlist

/-- **The ids that are found** are those of the listing that begin so, in the same order. -/
theorem idsBeginning_eq (h : Keeps root t saved) (kind : Kind) (text : String) :
    Store.idsBeginning root kind t text =
      (Store.ids root kind t).filter fun id => id.beginsWith text := by
  obtain ⟨ascending, told⟩ := h.idsBeginning_spec kind text
  have irrefl : Std.Irrefl fun a b : ObjectId => compare a b = .lt :=
    ⟨fun a hlt => by simp at hlt⟩
  have antisymm : Std.Antisymm fun a b : ObjectId => compare a b = .lt :=
    ⟨fun a b hlt hgt => absurd hgt (Std.OrientedCmp.not_lt_of_lt hlt)⟩
  exact ascending.eq_of_mem_iff ((h.ascending_ids kind).filter _) fun id => by
    rw [told, List.mem_filter]

end Keeps

/-! ## 4. The commit that a text names -/

/-- The commit is the only one that has been saved whose id the text begins. -/
structure OnlyBeginning (saved : List Object) (text : String) (c : Commit) : Prop where
  there : .commit c ∈ saved
  begins : (ObjectId.lowered text).toList <+: c.id.text.toList
  only : ∀ c', .commit c' ∈ saved →
    (ObjectId.lowered text).toList <+: c'.id.text.toList → c' = c

namespace Keeps

theorem mem_idsBeginning_commit (h : Keeps root t saved) (text : String) (id : ObjectId) :
    id ∈ Store.idsBeginning root .commit t text ↔
      ∃ c, .commit c ∈ saved ∧ c.id = id ∧ (ObjectId.lowered text).toList <+: c.id.text.toList := by
  rw [(h.idsBeginning_spec .commit text).2, h.mem_ids, ObjectId.beginsWith_iff]
  constructor
  · rintro ⟨⟨o, ho, hkind, rfl⟩, begins⟩
    cases o with
    | blob content => cases hkind
    | commit c => exact ⟨c, ho, rfl, begins⟩
  · rintro ⟨c, hc, rfl, begins⟩
    exact ⟨⟨.commit c, hc, rfl, rfl⟩, begins⟩

theorem get?_of_mem (h : Keeps root t saved) (savable : Savable saved) {c : Commit}
    (hc : .commit c ∈ saved) : Commits.get? root t c.id = .ok (some c) :=
  ((h.getCommit_iff savable c.id).1 c).mpr ⟨hc, rfl⟩

/-- Among the ids that begin so, a commit is named when there is one alone. -/
theorem candidates_run (h : Keeps root t saved) (savable : Savable saved) (text : String) :
    ∃ found, (match Store.idsBeginning root .commit t text with
        | [id] => Commits.get? root t id
        | _ => .ok none) = .ok found ∧
      ∀ c, found = some c ↔ OnlyBeginning saved text c := by
  have told := h.mem_idsBeginning_commit text
  have ascending := (h.idsBeginning_spec .commit text).1
  generalize Store.idsBeginning root .commit t text = candidates at told ascending
  match candidates with
  | [] =>
    refine ⟨none, rfl, fun c => iff_of_false (by simp) fun only => ?_⟩
    exact List.not_mem_nil ((told c.id).mpr ⟨c, only.there, rfl, only.begins⟩)
  | [id] =>
    obtain ⟨c, hc, rfl, begins⟩ := (told id).mp (List.mem_singleton_self _)
    have only : OnlyBeginning saved text c := by
      refine ⟨hc, begins, fun c' hc' begins' => ?_⟩
      have hid := List.mem_singleton.mp ((told c'.id).mpr ⟨c', hc', rfl, begins'⟩)
      exact Object.commit.inj (savable.eq_of_id_eq hc' hc hid)
    refine ⟨some c, h.get?_of_mem savable hc, fun c' => ⟨?_, fun only' => ?_⟩⟩
    · rintro ⟨⟩
      exact only
    · rw [only'.only c hc begins]
  | id :: id' :: rest =>
    refine ⟨none, rfl, fun c => iff_of_false (by simp) fun only => ?_⟩
    obtain ⟨c₁, hc₁, rfl, begins₁⟩ := (told id).mp (by simp)
    obtain ⟨c₂, hc₂, rfl, begins₂⟩ := (told id').mp (by simp)
    have apart : compare c₁.id c₂.id = .lt := List.rel_of_pairwise_cons ascending (by simp)
    rw [only.only c₁ hc₁ begins₁, only.only c₂ hc₂ begins₂] at apart
    simp at apart

/-- Where a text is not a stored id, the ids are asked that begin so. -/
theorem find?_of_no_exact (root : Path) (t : FileTree) (text : String)
    (noExact : ∀ id, ObjectId.ofText? text = .ok id → Commits.get? root t id = .ok none) :
    Commits.find? root t text = if text = "" then .ok none else
      match Store.idsBeginning root .commit t text with
      | [id] => Commits.get? root t id
      | _ => .ok none := by
  cases htext : ObjectId.ofText? text with
  | ok id => simp only [Commits.find?, htext, noExact id htext]; rfl
  | error malformed => simp only [Commits.find?, htext]; rfl

/-- A whole id names the commit that has it, which no other commit can be taken for. -/
theorem onlyBeginning_of_whole (savable : Savable saved) {c : Commit} (hc : .commit c ∈ saved)
    (htext : ObjectId.ofText? text = .ok c.id) : OnlyBeginning saved text c := by
  have told := ObjectId.eq_of_beginsWith htext
  simp only [ObjectId.beginsWith_iff] at told
  refine ⟨hc, (told c.id).mpr rfl, fun c' hc' begins => ?_⟩
  exact Object.commit.inj (savable.eq_of_id_eq hc' hc ((told c'.id).mp begins))

/-- **The commit that a text names**: the only one whose id it begins, if the text is not empty. -/
theorem find?_run (h : Keeps root t saved) (savable : Savable saved) (text : String) :
    ∃ found, Commits.find? root t text = .ok found ∧
      ∀ c, found = some c ↔ text ≠ "" ∧ OnlyBeginning saved text c := by
  by_cases exact_ : ∃ c, .commit c ∈ saved ∧ ObjectId.ofText? text = .ok c.id
  · obtain ⟨c, hc, htext⟩ := exact_
    have only := onlyBeginning_of_whole savable hc htext
    have some_ : text ≠ "" := by
      rintro rfl
      cases htext
    refine ⟨some c, ?_, fun c' => ⟨?_, fun ⟨_, only'⟩ => ?_⟩⟩
    · rw [Commits.find?, htext]
      simp only [h.get?_of_mem savable hc]
      rfl
    · rintro ⟨⟩
      exact ⟨some_, only⟩
    · rw [only.only c' only'.there only'.begins]
  · have hfind := find?_of_no_exact root t text (by
      rintro id htext
      refine (h.getCommit_iff savable id).2.mpr ?_
      rintro c hc rfl
      exact exact_ ⟨c, hc, htext⟩)
    by_cases some_ : text = ""
    · exact ⟨none, by rw [hfind, if_pos some_], fun c => by simp [some_]⟩
    · obtain ⟨found, hrun, hfound⟩ := h.candidates_run savable text
      exact ⟨found, by rw [hfind, if_neg some_, hrun], fun c => by rw [hfound]; simp [some_]⟩

end Keeps

/-! ## 5. After every sequence of savings -/

/-- **Abbreviated ids are told apart exactly.**  Objects are saved, from stores with nothing in them
on.  Then every text is answered: with the only commit kept of those saved whose id it begins, in
digits of either case, and with none where the text is empty, or where there is no such commit, or
more than one.  And the ids of either store that are found for a text are those of the listing that
begin so, in ascending order. -/
theorem Object.saved_abbreviated (vacant : Vacant root t) {objects : List Object}
    (writable : Writable objects) (printed : String) :
    ∃ t', saveAll root objects ⟨t, printed⟩ = (.ok (objects.map Object.id), ⟨t', printed⟩) ∧
      ∀ text,
        (∃ found, Commits.find? root t' text = .ok found ∧
          ∀ c, found = some c ↔ text ≠ "" ∧ OnlyBeginning (objects.map told) text c) ∧
        ∀ kind,
          (∀ id, id ∈ Store.ids root kind t' ↔ ∃ o ∈ objects, o.kind = kind ∧ o.id = id) ∧
          Store.idsBeginning root kind t' text =
            (Store.ids root kind t').filter (fun id => id.beginsWith text) ∧
          (Store.idsBeginning root kind t' text).Pairwise fun a b => compare a b = .lt := by
  have savable : Savable ([] ++ objects.map told) := writable.savable
  obtain ⟨t', hrun, keeps⟩ := vacant.keeps.saveAll savable printed
  rw [List.nil_append] at keeps
  rw [saveAll_told, map_id_told] at hrun
  refine ⟨t', hrun, fun text => ⟨keeps.find?_run writable.savable text, fun kind =>
    ⟨fun id => ?_, keeps.idsBeginning_eq kind text, (keeps.idsBeginning_spec kind text).1⟩⟩⟩
  rw [keeps.mem_ids]
  simp only [List.mem_map, exists_exists_and_eq_and, id_told, kind_told]

namespace Mixed

/-- Three digits tell one commit from the other. -/
theorem onlyBeginning_initial : OnlyBeginning objects "0BE" Commit.initial where
  there := by simp [objects]
  begins := by decide +kernel
  only c hc begins := by
    have : c = Commit.initial ∨ c = silent := by simpa [objects] using hc
    rcases this with rfl | rfl
    · rfl
    · exact absurd begins (by decide +kernel)

/-- Three digits name a commit, in capitals as well, and the empty text none. -/
theorem initial_abbreviated : Vacant [] FileTree.empty ∧ Writable objects ∧
    ∃ t, saveAll [] objects ⟨FileTree.empty, ""⟩ = (.ok (objects.map Object.id), ⟨t, ""⟩) ∧
      Commits.find? [] t "0BE" = .ok (some Commit.initial) ∧ Commits.find? [] t "" = .ok none := by
  obtain ⟨t, hrun, answers⟩ := Object.saved_abbreviated vacant writable ""
  obtain ⟨⟨found, hfind, told⟩, -⟩ := answers "0BE"
  obtain rfl := (told Commit.initial).mpr ⟨by decide, told_objects ▸ onlyBeginning_initial⟩
  obtain ⟨⟨found', hfind', told'⟩, -⟩ := answers ""
  have none_ : found' = none := Option.eq_none_iff_forall_ne_some.mpr fun c hc =>
    ((told' c).mp hc).1 rfl
  exact ⟨vacant, writable, t, hrun, hfind, none_ ▸ hfind'⟩

end Mixed

end LocalVcs
