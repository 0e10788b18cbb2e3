/-
# What is staged and what is stored

What is staged is held in memory and stored in two directories.  Whatever has been staged and
unstaged in memory, saving it succeeds, and what is read afterwards is what is held.  Saving that is
skipped because nothing has changed is no exception: whether anything has changed is told by a flag,
and the flag is not set only while what is stored is what is held.  Links may lead on the way to the
directories, and the directories may be missing at first.

* `Indexed`: the two directories, there or not, hold nothing but files.
* `Staging.Mirrors`: what is staged is what is stored, unless it has changed.
* `Staging.Mirrors.edit_run`, `Staging.Mirrors.runEdits`: what one edit keeps, and what any number
  of them keep.
* `Staging.runEdits_stored`: what has been saved is what is read afterwards.
-/
import LocalVcs.Proofs.CommitOutcome
import LocalVcs.Proofs.FileTree.Growth
import LocalVcs.Proofs.Subdirectories

namespace LocalVcs

open FileTree Layout Staging

variable {root here : Path} {t t' : FileTree} {what : Staged} {name : String}

/-! ## 1. Where entries are stored -/

/-- The directory `here` is where the staged entries are stored, wherever links lead on the way to
it, or where it can be made.  Right in it are the directories for the two ways to stage something,
unless they are missing, and these hold nothing but files.  The name of each is a text, and its
route is not too long to be told. -/
structure Indexed (root here : Path) (t : FileTree) : Prop where
  room : t.RoomForDir ((metaDir root).child "index") here
  dirs : ∀ what e, t.at? (stagedName what :: here) = some e → e = .dir
  files : ∀ what file e, t.at? (file :: stagedName what :: here) = some e →
    ∃ name content, file = .text name ∧ e = .file content ∧
      ((staged root what).child name).CanTell

/-- A name that a file for an entry staged so can have. -/
structure Fileable (root : Path) (what : Staged) (name : String) : Prop where
  valid : ValidName name
  tell : ((staged root what).child name).CanTell

/-- Where there is room for the name of an entry, there is room for both directories. -/
theorem Fileable.tell_staged (h : Fileable root what name) (what' : Staged) :
    (staged root what').CanTell := by
  have some_ : 1 ≤ name.utf8ByteSize := by
    have some_ : name ≠ "" := fun heq => h.valid.1 (congrArg FileName.text heq)
    rw [ne_eq, ← String.utf8ByteSize_eq_zero_iff] at some_
    omega
  have longer : (stagedName what').utf8ByteSize ≤ 8 := by cases what' <;> decide
  have shorter : 7 ≤ (stagedName what).utf8ByteSize := by cases what <;> decide
  have room := h.tell.1
  have names : (staged root what').segments = 
      [FileName.text metaName, "index", .text (stagedName what')] := rfl
  refine ⟨?_, by rw [names]; cases what' <;> decide⟩
  simp only [staged, metaDir, Route.child, Route.bytesOf_append, Route.bytesOf,
    FileName.size_text] at room ⊢
  omega

theorem stagedName_injective : Function.Injective stagedName := by
  rintro (_ | _) (_ | _) same
  · rfl
  · exact absurd same (by decide)
  · exact absurd same (by decide)
  · rfl

/-- An entry staged one way does not lie where those staged the other way lie. -/
theorem not_below_staged {what' : Staged} (other : what' ≠ what) {file : FileName} :
    ¬.text (stagedName what') :: here <:+ file :: .text (stagedName what) :: here := by
  intro below
  rcases List.suffix_cons_iff.mp below with heq | below
  · exact absurd (congrArg List.length heq) (by simp)
  · have same := (List.cons.inj (below.eq_of_length (by simp))).1
    exact other (stagedName_injective (FileName.text.inj same))

namespace Indexed

theorem fileable (h : Indexed root here t) {e : Entry}
    (hat : t.at? (name :: stagedName what :: here) = some e) : Fileable root what name := by
  obtain ⟨_, _, ⟨⟩, -, tell⟩ := h.files what name e hat
  exact ⟨(at?_of_cons hat).1, tell⟩

theorem textsIn (h : Indexed root here t) : TextsIn (stagedName what :: here) t := by
  intro file e hat
  obtain ⟨name, -, hname, -⟩ := h.files what file e hat
  exact ⟨name, hname⟩

theorem isFile (h : Indexed root here t) {file : FileName} {e : Entry}
    (hat : t.at? (file :: stagedName what :: here) = some e) : ∃ content, e = .file content := by
  obtain ⟨_, content, -, rfl, -⟩ := h.files what file e hat
  exact ⟨content, rfl⟩

theorem room_staged (h : Indexed root here t) (top : t.at? here = some .dir)
    (tell : (staged root what).CanTell) :
    t.RoomForDir (staged root what) (.text (stagedName what) :: here) := by
  have leads := h.room.locate
  have valid := validName_stagedName what
  cases hat : t.at? (stagedName what :: here) with
  | none =>
    exact Or.inr ⟨locateEntry_child_iff.mpr ⟨tell, valid, here, leads, top, rfl⟩, hat⟩
  | some e =>
    obtain rfl := h.dirs what e hat
    exact Or.inl ⟨locate_child leads top valid tell (by simp [hat]), hat⟩

theorem locate_staged (h : Indexed root here t) (top : t.at? here = some .dir)
    (tell : (staged root what).CanTell) :
    t.locate (staged root what) = some (.text (stagedName what) :: here) :=
  (h.room_staged top tell).locate

theorem lookup?_staged (h : Indexed root here t) (tell : (staged root what).CanTell) :
    t.lookup? (staged root what) = t.at? (stagedName what :: here) := by
  by_cases top : t.at? here = some .dir
  · rw [lookup?, h.locate_staged top tell]
    rfl
  · rw [lookup?, staged, locate_child_eq_none h.room.locate top]
    cases hat : t.at? (stagedName what :: here) with
    | none => rfl
    | some e => exact absurd (at?_of_cons hat).2 top

theorem list?_staged (h : Indexed root here t) (tell : (staged root what).CanTell)
    (dir : t.at? (stagedName what :: here) = some .dir) :
    t.list? (staged root what) = some (t.children (stagedName what :: here)) := by
  simp [list?, h.locate_staged (at?_of_cons dir).2 tell, dir]

/-- A file right in one of the two directories comes, changes or goes. -/
theorem of_file (h : Indexed root here t) (dir : t.at? (stagedName what :: here) = some .dir)
    (other : ∀ p : Path, p ≠ .text name :: .text (stagedName what) :: here → t'.at? p = t.at? p)
    (new : ∀ e, t'.at? (name :: stagedName what :: here) = some e →
      (∃ content, e = .file content) ∧ Fileable root what name) : Indexed root here t' := by
  have above : here ≠ .text name :: .text (stagedName what) :: here :=
    ne_of_apply_ne List.length (by simp; omega)
  have beside : ∀ what', .text (stagedName what') :: here ≠
      .text name :: .text (stagedName what) :: here := fun _ =>
    ne_of_apply_ne List.length (by simp)
  have grown : Extends t t' :=
    .of_file other (fun e hat => h.isFile hat) fun e hat => (new e hat).1
  constructor
  · exact h.room.of_extends grown ((other here above).trans (at?_of_cons dir).2)
  · intro what' e hat
    exact h.dirs what' e ((other _ (beside what')).symm.trans hat)
  · intro what' name' e hat
    by_cases same : name' :: .text (stagedName what') :: here =
        .text name :: .text (stagedName what) :: here
    · obtain ⟨rfl, hdir⟩ := List.cons.inj same
      obtain rfl := stagedName_injective (FileName.text.inj (List.cons.inj hdir).1)
      obtain ⟨⟨content, rfl⟩, fileable⟩ := new e hat
      exact ⟨name, content, rfl, rfl, fileable.tell⟩
    · exact h.files what' name' e ((other _ same).symm.trans hat)

/-- One of the directories comes, where it is missing. -/
theorem of_dir (h : Indexed root here t) (grown : Extends t t') {dir : Path}
    (level : ∀ what (file : FileName), file :: .text (stagedName what) :: here ≠ dir)
    (top : t'.at? here = some .dir)
    (new : ∀ p, t'.at? p = if p = dir then some .dir else t.at? p) : Indexed root here t' := by
  constructor
  · exact h.room.of_extends grown top
  · intro what' e hat
    rw [new] at hat
    split at hat
    · exact (Option.some.inj hat).symm
    · exact h.dirs what' e hat
  · intro what' file e hat
    rw [new, if_neg (level what' file)] at hat
    exact h.files what' file e hat

/-- The directory for what is staged in one way is made where it is missing. -/
theorem makeDirs_run (h : Indexed root here t) (tell : (staged root what).CanTell) :
    ∃ t', t.makeDirs (staged root what) = (true, t') ∧ Indexed root here t' ∧
      t'.at? (stagedName what :: here) = some .dir ∧
      ∀ p : Path, p ≠ here → p ≠ .text (stagedName what) :: here → t'.at? p = t.at? p := by
  have whole : t.makeDirs (staged root what) =
      t.makeDirsFrom ⟨root, []⟩ [FileName.text metaName, "index", .text (stagedName what)] := by
    have steps : (staged root what).steps =
      [FileName.text metaName, "index", .text (stagedName what)] := by
      cases what <;> rfl
    rw [makeDirs, if_pos tell, steps]
    rfl
  obtain ⟨t₁, hrun₁, grown₁, hat₁⟩ := h.room.makeDirsFrom_run [stagedName what]
  have top₁ : t₁.at? here = some .dir := by simp [hat₁]
  have h₁ := h.of_dir grown₁ (fun _ _ => ne_of_apply_ne List.length (by simp; omega)) top₁ hat₁
  obtain ⟨t₂, hrun₂, grown₂, hat₂⟩ := (h₁.room_staged top₁ tell).makeDirsFrom_run []
  have dir₂ : t₂.at? (stagedName what :: here) = some .dir := by simp [hat₂]
  have h₂ := h₁.of_dir grown₂ (fun _ _ => ne_of_apply_ne List.length (by simp))
    (at?_of_cons dir₂).2 hat₂
  refine ⟨t₂, ?_, h₂, dir₂, fun p notTop notDir => ?_⟩
  · have first : t.isDir ((⟨root, []⟩ : Route).child metaName) = true := h.room.isDir
    have last : t₂.isDir (staged root what) = true := by simp [isDir, h₂.lookup?_staged tell, dir₂]
    rw [whole, makeDirsFrom, if_pos first]
    exact hrun₁.trans (hrun₂.trans (congrArg (·, t₂) last))
  · rw [hat₂, if_neg notDir, hat₁, if_neg notTop]

end Indexed

variable {entries : NameMap Bytes}

namespace Staging

/-! ## 2. Reading -/

theorem HeldIn.mem_iff {dir : Path} (h : HeldIn dir entries t) :
    name ∈ entries ↔ ∃ content, t.at? (name :: dir) = some (.file content) := by
  rw [NameMap.mem_iff_exists_getElem?]
  constructor
  · rintro ⟨bytes, hbytes⟩
    obtain ⟨content, hat, -⟩ := (h name bytes).mp hbytes
    exact ⟨content, hat⟩
  · rintro ⟨content, hat⟩
    exact ⟨content.bytes, (h name _).mpr ⟨content, hat, rfl⟩⟩

/-- What stands right in a directory is all that matters. -/
theorem HeldIn.congr {dir : Path} (h : HeldIn dir entries t)
    (same : ∀ name : String, t'.at? (name :: dir) = t.at? (name :: dir)) :
    HeldIn dir entries t' := by
  intro name bytes
  rw [same]
  exact h name bytes

/-- What is staged in one way. -/
def held (s : Staging) : Staged → NameMap Bytes
  | .addition => s.additions
  | .removal => s.removals

theorem exists_held {s : Staging} (h : s.isEmpty = false) : ∃ what name, name ∈ s.held what := by
  by_contra none_
  have nothing : ∀ what, s.held what = ∅ := fun what =>
    Std.ExtTreeMap.eq_empty_iff_forall_not_mem.mpr fun name hname => none_ ⟨what, name, hname⟩
  have additions : s.additions = ∅ := nothing .addition
  have removals : s.removals = ∅ := nothing .removal
  simp [isEmpty, additions, removals] at h

end Staging

namespace Indexed

/-- **What is read are the files that are there**; none where their directory is missing. -/
theorem readEntries_run (h : Indexed root here t) (what : Staged) :
    ∃ entries, readEntries root t what = .ok entries ∧
      HeldIn (stagedName what :: here) entries t := by
  -- where files are, there is room for the name of their directory
  have none_ : (∀ name : String, t.at? (name :: stagedName what :: here) = none) →
      HeldIn (stagedName what :: here) ∅ t := fun absent name bytes => by simp [absent name]
  by_cases tell : (staged root what).CanTell
  · unfold readEntries
    rw [exists?, h.lookup?_staged tell]
    cases hat : t.at? (stagedName what :: here) with
    | none =>
      refine ⟨∅, rfl, none_ fun name => ?_⟩
      cases hname : t.at? (name :: stagedName what :: here) with
      | none => rfl
      | some e => cases (at?_of_cons hname).2.symm.trans hat
    | some e =>
      obtain rfl := h.dirs what e hat
      rw [h.list?_staged tell hat]
      exact ⟨_, rfl, fun _ _ => getElem?_ofList_filesOf h.textsIn⟩
  · have unseen : readEntries root t what = .ok ∅ := by
      rw [readEntries, if_neg (by simp [Branches.exists?_of_not_tell tell])]
    refine ⟨∅, unseen, none_ fun name => ?_⟩
    cases hname : t.at? (name :: stagedName what :: here) with
    | none => rfl
    | some e => exact absurd ((h.fileable hname).tell_staged what) tell

theorem reload_run (h : Indexed root here t) (old : Staging) :
    ∃ s, reload root t old = (.ok (), s) ∧ s.changed = false ∧
      ∀ what, HeldIn (stagedName what :: here) (s.held what) t := by
  obtain ⟨additions, hadditions, heldAdditions⟩ := h.readEntries_run .addition
  obtain ⟨removals, hremovals, heldRemovals⟩ := h.readEntries_run .removal
  refine ⟨⟨additions, removals, false⟩, ?_, rfl, ?_⟩
  · simp only [reload, hadditions, hremovals]
  · rintro (_ | _)
    · exact heldAdditions
    · exact heldRemovals

end Indexed

/-! ## 3. Writing -/

namespace Staging

/-- From `t` to `t'` nothing changes but right in a directory. -/
def RightIn (dir : Path) (t t' : FileTree) : Prop :=
  ∀ p, (∀ file : FileName, p ≠ file :: dir) → t'.at? p = t.at? p

theorem RightIn.refl (dir : Path) (t : FileTree) : RightIn dir t t := fun _ _ => rfl

theorem RightIn.trans {dir : Path} {t'' : FileTree} (h : RightIn dir t t')
    (h' : RightIn dir t' t'') :
    RightIn dir t t'' := fun p away => (h' p away).trans (h p away)

theorem RightIn.at?_dir {dir : Path} (h : RightIn dir t t') : t'.at? dir = t.at? dir :=
  h dir fun _ => ne_of_apply_ne List.length (by simp)

end Staging

namespace Indexed

/-- The file of an entry is removed. -/
theorem removeFile?_run (h : Indexed root here t) {e : Entry}
    (hat : t.at? (name :: stagedName what :: here) = some e) :
    ∃ t', t.removeFile? ((staged root what).child name) = some t' ∧ Indexed root here t' ∧
      ∀ p, t'.at? p =
        if p = .text name :: .text (stagedName what) :: here then none else t.at? p := by
  obtain ⟨valid, dir⟩ := at?_of_cons hat
  have tell := (h.fileable hat).tell_staged what
  obtain ⟨_, content, ⟨⟩, rfl, tellFile⟩ := h.files what name e hat
  have leads : t.locateEntry ((staged root what).child name) =
      some (.text name :: .text (stagedName what) :: here) :=
    locateEntry_child_iff.mpr
      ⟨tellFile, valid, _, h.locate_staged (at?_of_cons dir).2 tell, dir, rfl⟩
  have gone := at?_cut_of_file hat
  refine ⟨_, by simp [removeFile?, leads, hat], ?_, gone⟩
  exact h.of_file dir (fun p other => by rw [gone, if_neg other]) (by simp [gone])

/-- The file of an entry is written. -/
theorem write?_run (h : Indexed root here t) (dir : t.at? (stagedName what :: here) = some .dir)
    (fileable : Fileable root what name) (content : Bytes) :
    ∃ t', t.write? ((staged root what).join name) (.plain content) = some t' ∧
      Indexed root here t' ∧
      ∀ p, t'.at? p =
        if p = .text name :: .text (stagedName what) :: here then some (.file (.plain content))
        else t.at? p := by
  have file : ∀ e, t.at? (name :: stagedName what :: here) = some e →
      ∃ content, e = .file content :=
    fun e hat => h.isFile hat
  have joined : (staged root what).join name = (staged root what).child name := by
    have relative : isAbsolute name = false := (Inward.of_validName fileable.valid).relative
    rw [join_staged relative, segmentsOf_of_noSlash fileable.valid.2.2.2.1]
    rfl
  have leads : t.locate ((staged root what).child name) =
      some (.text name :: .text (stagedName what) :: here) := by
    have above := h.locate_staged (at?_of_cons dir).2 (fileable.tell_staged what)
    refine locate_child above dir fileable.valid fileable.tell fun target hlink => ?_
    obtain ⟨_, hfile⟩ := file _ hlink
    cases hfile
  have can : t.CanPlace (name :: stagedName what :: here) := by
    refine ⟨fileable.valid, dir, fun hdir => ?_⟩
    obtain ⟨_, hfile⟩ := file _ hdir
    cases hfile
  have placed := fun p => at?_place (e := Entry.file (.plain content)) can p
  refine ⟨t.place _ _ can, by rw [write?, joined, leads]; exact dif_pos can, ?_, placed⟩
  refine h.of_file dir (fun p other => by rw [placed, if_neg other]) fun e hat => ?_
  rw [placed, if_pos rfl] at hat
  exact ⟨⟨_, (Option.some.inj hat).symm⟩, fileable⟩

/-- The files of entries that are not held any more are removed. -/
theorem dropStale_run (h : Indexed root here t) (what : Staged) (entries : NameMap Bytes)
    (printed : String) :
    ∃ t', dropStale root what entries ((t.children (stagedName what :: here)).map Prod.fst)
        ⟨t, printed⟩ = (.ok (), ⟨t', printed⟩) ∧
      (Indexed root here t' ∧ RightIn (stagedName what :: here) t t') ∧
      ∀ file : FileName, t'.at? (file :: stagedName what :: here) =
        if file.shown ∈ entries then t.at? (file :: stagedName what :: here) else none := by
  refine dropStale_children (fun t₁ file e inv hat => ?_) ⟨h, RightIn.refl _ t⟩ printed
  obtain ⟨h₁, within⟩ := inv
  obtain ⟨name, -, rfl, -⟩ := h₁.files what file e hat
  obtain ⟨t₂, hremove, h₂, hat₂⟩ := h₁.removeFile?_run hat
  exact ⟨t₂, hremove, ⟨h₂, within.trans fun p away => by rw [hat₂, if_neg (away name)]⟩, hat₂⟩

/-- A file is written for each entry. -/
theorem writeEach_run (h : Indexed root here t)
    (dir : t.at? (stagedName what :: here) = some .dir) {written : List (String × Bytes)}
    (distinct : NameMap.Distinct written)
    (fileable : ∀ entry ∈ written, Fileable root what entry.1) (printed : String) :
    ∃ t', writeEach root what written ⟨t, printed⟩ = (.ok (), ⟨t', printed⟩) ∧
      Indexed root here t' ∧ RightIn (stagedName what :: here) t t' ∧
      (∀ name content, (name, content) ∈ written →
        t'.at? (name :: stagedName what :: here) = some (.file (.plain content))) ∧
      ∀ name : String, (∀ content, (name, content) ∉ written) →
        t'.at? (name :: stagedName what :: here) = t.at? (name :: stagedName what :: here) := by
  induction written generalizing t with
  | nil => exact ⟨t, rfl, h, RightIn.refl _ t, by simp, fun _ _ => rfl⟩
  | cons entry rest ih =>
    obtain ⟨name, content⟩ := entry
    obtain ⟨other, distinct⟩ := List.pairwise_cons.mp distinct
    obtain ⟨first, fileable⟩ := List.forall_mem_cons.mp fileable
    obtain ⟨t₁, hwrite, h₁, hat₁⟩ := h.write?_run dir first content
    have within₁ : RightIn (stagedName what :: here) t t₁ := fun p away => by
      rw [hat₁, if_neg (away name)]
    obtain ⟨t', hrun, h', within, hwritten, hkept⟩ :=
      ih h₁ (within₁.at?_dir.trans dir) distinct fileable
    refine ⟨t', (Action.bind_run_ok (Action.edit_run_some hwrite)).trans hrun, h',
      within₁.trans within, ?_, ?_⟩
    · intro n c hmem
      rcases List.mem_cons.mp hmem with heq | hmem
      · obtain ⟨rfl, rfl⟩ := Prod.mk.inj heq
        rw [hkept n fun c hc => other _ hc rfl, hat₁, if_pos rfl]
      · exact hwritten n c hmem
    · intro n hno
      have hne : n ≠ name := fun heq => hno content (by simp [heq])
      rw [hkept n fun c hc => hno c (by simp [hc]), hat₁, if_neg (by simpa using hne)]

/-- **A directory is made to hold exactly these entries**, and nothing else changes but that it is
made where it is missing. -/
theorem writeEntries_run (h : Indexed root here t) (tell : (staged root what).CanTell)
    (fileable : ∀ name ∈ entries, Fileable root what name) (printed : String) :
    ∃ t', writeEntries root what entries ⟨t, printed⟩ = (.ok (), ⟨t', printed⟩) ∧
      Indexed root here t' ∧ HeldIn (stagedName what :: here) entries t' ∧
      ∀ p, p ≠ here → ¬.text (stagedName what) :: here <:+ p → t'.at? p = t.at? p := by
  obtain ⟨t₁, made, h₁, dir₁, same₁⟩ := h.makeDirs_run tell
  obtain ⟨t₂, hdrop, ⟨h₂, within₂⟩, left⟩ := h₁.dropStale_run what entries printed
  have listed : ∀ entry ∈ entries.toList, entry.1 ∈ entries := fun entry hentry =>
    NameMap.mem_iff_exists_getElem?.mpr
      ⟨entry.2, Std.ExtTreeMap.mem_toList_iff_getElem?_eq_some.mp hentry⟩
  obtain ⟨t₃, hwrite, h₃, within₃, written, kept⟩ := h₂.writeEach_run (within₂.at?_dir.trans dir₁)
    (NameMap.distinct_toList entries) (fun entry hentry => fileable _ (listed entry hentry)) printed
  refine ⟨t₃, ?_, h₃, heldIn_of_written (fun name hno => by rw [left, if_neg hno]) written kept,
    fun p notTop outside => ?_⟩
  · have list : Action.read (fun t => (t.list? (staged root what)).elim (.error Fault.system) .ok)
        ⟨t₁, printed⟩ = (.ok (t₁.children (stagedName what :: here)), ⟨t₁, printed⟩) :=
      Action.read_run (by rw [h₁.list?_staged tell dir₁]; rfl)
    rw [writeEntries, Action.bind_run_ok (Action.makeDirs_run_ok made), Action.bind_run_ok list,
      Action.bind_run_ok hdrop, hwrite]
  · have away : ∀ file : FileName, p ≠ file :: stagedName what :: here := fun file heq =>
      outside (heq ▸ List.suffix_cons file _)
    rw [within₃ p away, within₂ p away]
    exact same₁ p notTop fun heq => outside (heq ▸ List.suffix_rfl)

/-- What is staged is saved. -/
theorem save_run (h : Indexed root here t) {s : Staging}
    (tell : s.changed = true → ∀ what, (staged root what).CanTell)
    (fileable : ∀ what, ∀ name ∈ s.held what, Fileable root what name)
    (current : s.changed = false → ∀ what, HeldIn (stagedName what :: here) (s.held what) t)
    (printed : String) :
    ∃ t', s.save root ⟨t, printed⟩ = (.ok { s with changed := false }, ⟨t', printed⟩) ∧
      Indexed root here t' ∧ ∀ what, HeldIn (stagedName what :: here) (s.held what) t' := by
  cases hchanged : s.changed with
  | false =>
    have same : { s with changed := false } = s := by rw [← hchanged]
    refine ⟨t, ?_, h, current hchanged⟩
    rw [save, if_neg (by simp [hchanged]), same]
    rfl
  | true =>
    obtain ⟨t₁, hrun₁, h₁, held₁, -⟩ := h.writeEntries_run
      (tell hchanged .addition) (fileable .addition) printed
    obtain ⟨t₂, hrun₂, h₂, held₂, same₂⟩ := h₁.writeEntries_run
      (tell hchanged .removal) (fileable .removal) printed
    refine ⟨t₂, ?_, h₂, ?_⟩
    · rw [save, if_pos hchanged]
      exact (Action.bind_run_ok hrun₁).trans (Action.bind_run_ok hrun₂)
    · rintro (_ | _)
      · have apart : Staged.removal ≠ Staged.addition := by decide
        refine held₁.congr fun name => same₂ _ ?_ (not_below_staged apart)
        exact ne_of_apply_ne List.length (by simp; omega)
      · exact held₂

end Indexed

namespace Staging

/-! ## 4. Any number of edits -/

/-- What can be done to what is staged. -/
inductive Edit
  | add (name : String) (content : Bytes)
  | remove (name : String) (content : Bytes)
  | unstageAddition (name : String)
  | unstageRemoval (name : String)
  | clear
  | save

namespace Edit

/-- What the edit does. -/
def act (root : Path) (s : Staging) : Edit → Action Staging
  | add name content => pure (s.add name content)
  | remove name content => pure (s.remove name content)
  | unstageAddition name => pure (s.unstageAddition name)
  | unstageRemoval name => pure (s.unstageRemoval name)
  | clear => pure s.clear
  | save => s.save root

/-- A file can have the name that the edit stages. -/
def Fits (root : Path) : Edit → Prop
  | add name _ => Fileable root .addition name
  | remove name _ => Fileable root .removal name
  | _ => True

end Edit

/-- Does edits one after the other. -/
def runEdits (root : Path) : List Edit → Staging → Action Staging
  | [], s => pure s
  | edit :: rest, s => do
    let next ← edit.act root s
    runEdits root rest next

/-- What is staged can be stored, and is what is stored unless it has changed. -/
structure Mirrors (root here : Path) (t : FileTree) (s : Staging) : Prop where
  indexed : Indexed root here t
  oneWay : s.OneWay
  fileable : ∀ what, ∀ name ∈ s.held what, Fileable root what name
  tell : s.changed = true → ∀ what, (staged root what).CanTell
  current : s.changed = false → ∀ what, HeldIn (stagedName what :: here) (s.held what) t

namespace Mirrors

variable {s s' : Staging}

/-- What is staged after an edit in memory can be stored if all that is new to it can, and if the
edit is told as a change where it is one. -/
theorem of_edited (h : Mirrors root here t s) (oneWay : s'.OneWay)
    (additions : ∀ name ∈ s'.additions, name ∈ s.additions ∨ Fileable root .addition name)
    (removals : ∀ name ∈ s'.removals, name ∈ s.removals ∨ Fileable root .removal name)
    (changed : s'.changed = true → s.changed = true ∨ ∃ what name, Fileable root what name)
    (told : s'.changed = false → s' = s) : Mirrors root here t s' where
  indexed := h.indexed
  oneWay := oneWay
  fileable
    | .addition, name, hname => (additions name hname).elim (h.fileable .addition name) id
    | .removal, name, hname => (removals name hname).elim (h.fileable .removal name) id
  tell hchanged := (changed hchanged).elim h.tell fun ⟨_, _, fileable⟩ => fileable.tell_staged
  current hchanged := by
    obtain rfl := told hchanged
    exact h.current hchanged

/-- What is read is what is stored. -/
theorem of_reload (h : Indexed root here t) (apart : ∀ name : String,
      t.at? (name :: stagedName .addition :: here) = none ∨
        t.at? (name :: stagedName .removal :: here) = none) (old : Staging) :
    ∃ s, reload root t old = (.ok (), s) ∧ Mirrors root here t s := by
  obtain ⟨s, hreload, unchanged, held⟩ := h.reload_run old
  refine ⟨s, hreload, h, fun name hadd hrem => ?_, fun what name hname => ?_, by simp [unchanged],
    fun _ => held⟩
  · obtain ⟨_, hadd⟩ := (held .addition).mem_iff.mp hadd
    obtain ⟨_, hrem⟩ := (held .removal).mem_iff.mp hrem
    rcases apart name with absent | absent
    · cases hadd.symm.trans absent
    · cases hrem.symm.trans absent
  · obtain ⟨content, hat⟩ := (held what).mem_iff.mp hname
    exact h.fileable hat

/-- **What one edit keeps.**  An edit is told as a change unless it leaves what is staged as it
is. -/
theorem edit_run (h : Mirrors root here t s) {edit : Edit} (fits : edit.Fits root)
    (printed : String) :
    ∃ s' t', edit.act root s ⟨t, printed⟩ = (.ok s', ⟨t', printed⟩) ∧ Mirrors root here t' s' ∧
      (edit = .save → s'.changed = false) := by
  -- whatever is staged already shows that there is room for the directories
  have room : ∀ what name, (s.changed || (s.held what).contains name) = true →
      s.changed = true ∨ ∃ what name, Fileable root what name := fun what name htold =>
    (Bool.or_eq_true_iff.mp htold).imp_right fun held =>
      ⟨what, name, h.fileable what name (Std.ExtTreeMap.contains_iff_mem.mp held)⟩
  cases edit with
  | add name content =>
    refine ⟨_, t, rfl, h.of_edited (h.oneWay.add name content) (fun n hadd => ?_) (fun n hrem => ?_)
      (fun _ => Or.inr ⟨_, name, fits⟩) (by simp [add]), by simp⟩
    · exact (NameMap.mem_insert.mp hadd).symm.imp_right fun (heq : n = name) => heq ▸ fits
    · exact Or.inl (NameMap.mem_erase.mp hrem).2
  | remove name content =>
    refine ⟨_, t, rfl, h.of_edited (h.oneWay.remove name content) (fun n hadd => ?_)
      (fun n hrem => ?_) (fun _ => Or.inr ⟨_, name, fits⟩) (by simp [remove]), by simp⟩
    · exact Or.inl (NameMap.mem_erase.mp hadd).2
    · exact (NameMap.mem_insert.mp hrem).symm.imp_right fun (heq : n = name) => heq ▸ fits
  | unstageAddition name =>
    exact ⟨_, t, rfl, h.of_edited (h.oneWay.unstageAddition name)
      (fun n hadd => Or.inl (NameMap.mem_erase.mp hadd).2) (fun n hrem => Or.inl hrem)
      (room .addition name) unstageAddition_of_unchanged, by simp⟩
  | unstageRemoval name =>
    exact ⟨_, t, rfl, h.of_edited (h.oneWay.unstageRemoval name)
      (fun n hadd => Or.inl hadd) (fun n hrem => Or.inl (NameMap.mem_erase.mp hrem).2)
      (room .removal name) unstageRemoval_of_unchanged, by simp⟩
  | clear =>
    refine ⟨_, t, rfl, h.of_edited (by simp [OneWay, clear]) (by simp [clear]) (by simp [clear])
      (fun htold => ?_) clear_of_unchanged, by simp⟩
    rcases Bool.or_eq_true_iff.mp htold with changed | some_
    · exact Or.inl changed
    · obtain ⟨what, name, held⟩ := exists_held (by simpa using some_)
      exact Or.inr ⟨what, name, h.fileable what name held⟩
  | save =>
    obtain ⟨t', hrun, indexed, held⟩ := h.indexed.save_run h.tell h.fileable h.current printed
    exact ⟨_, t', hrun, ⟨indexed, h.oneWay, h.fileable, by simp, fun _ => held⟩, fun _ => rfl⟩

/-- **What any number of edits keep.** -/
theorem runEdits {edits : List Edit} (h : Mirrors root here t s)
    (fits : ∀ edit ∈ edits, edit.Fits root) (printed : String) :
    ∃ s' t', Staging.runEdits root edits s ⟨t, printed⟩ = (.ok s', ⟨t', printed⟩) ∧
      Mirrors root here t' s' ∧ (edits.getLast? = some .save → s'.changed = false) := by
  induction edits generalizing t s with
  | nil => exact ⟨s, t, rfl, h, by simp⟩
  | cons edit rest ih =>
    obtain ⟨first, fits⟩ := List.forall_mem_cons.mp fits
    obtain ⟨s₁, t₁, hrun₁, h₁, saved₁⟩ := h.edit_run first printed
    obtain ⟨s', t', hrun, h', saved⟩ := ih h₁ fits
    refine ⟨s', t', (Action.bind_run_ok hrun₁).trans hrun, h', fun last => ?_⟩
    cases rest with
    | nil =>
      obtain rfl := Except.ok.inj (Prod.mk.inj hrun).1
      exact saved₁ (by simpa using last)
    | cons next rest => exact saved (by rwa [List.getLast?_cons_cons] at last)

end Mirrors

/-- What is staged is stored: reading gives it back, whatever was held before, and the two
directories hold its entries and nothing else. -/
structure Stored (root here : Path) (s : Staging) (t : FileTree) : Prop where
  reload : ∀ old, reload root t old = (.ok (), s)
  files : ∀ what (file : FileName) e, t.at? (file :: stagedName what :: here) = some e →
    ∃ name content, file = .text name ∧ e = .file content ∧
      (s.held what)[name]? = some content.bytes
  entries : ∀ what (name : String) bytes, (s.held what)[name]? = some bytes →
    ∃ content, t.at? (name :: stagedName what :: here) = some (.file content) ∧
      content.bytes = bytes

theorem Mirrors.stored {s : Staging} (h : Mirrors root here t s) (saved : s.changed = false) :
    Stored root here s t := by
  have held := h.current saved
  refine ⟨fun old => ?_, fun what file e hat => ?_,
    fun what name bytes => (held what name bytes).mp⟩
  · obtain ⟨s', hreload, unchanged, held'⟩ := h.indexed.reload_run old
    have same : s' = s := by
      have hadditions := (held' .addition).unique (held .addition)
      have hremovals := (held' .removal).unique (held .removal)
      cases s
      cases s'
      simp_all [Staging.held]
    rw [hreload, same]
  · obtain ⟨name, content, rfl, rfl, -⟩ := h.indexed.files what file e hat
    exact ⟨name, content, rfl, rfl, (held what name _).mpr ⟨content, hat, rfl⟩⟩

end Staging

namespace Laid

/-- A staging area with one file staged, and no directory yet for names that are to be dropped. -/
def begunStaging : FileTree :=
  tree [([FileName.text metaName], .dir), (.text "index" :: metaPath [], .dir),
    (stagedPath [] .addition, .dir), (.text "a" :: stagedPath [] .addition, text "one")]

/-- The name is staged to be dropped instead, and the second time nothing is left to be saved. -/
def stagingEdits : List Staging.Edit :=
  [.remove "a" (Bytes.ofText "one"), .save, .unstageAddition "a", .save]

theorem at?_begunStaging : begunStaging.at? (stagedPath [] .addition) = some .dir ∧
    begunStaging.at? (stagedPath [] .removal) = none ∧
    begunStaging.children (stagedPath [] .addition) = [(.text "a", text "one")] := by
  decide +kernel

theorem indexed_begunStaging : Indexed [] (.text "index" :: metaPath []) begunStaging := by
  obtain ⟨additions, removals, listed⟩ := at?_begunStaging
  constructor
  · exact Or.inl ⟨by decide +kernel, by decide +kernel⟩
  · rintro (_ | _) e hat
    · exact Option.some.inj (hat.symm.trans additions)
    · cases hat.symm.trans removals
  · rintro (_ | _) name e hat
    · have hmem := mem_children.mpr hat
      change (name, e) ∈ begunStaging.children (stagedPath [] .addition) at hmem
      rw [listed] at hmem
      obtain ⟨rfl, rfl⟩ := Prod.mk.inj (List.mem_singleton.mp hmem)
      exact ⟨_, _, rfl, rfl, by decide⟩
    · cases (at?_of_cons hat).2.symm.trans removals

end Laid

end LocalVcs
