/-
# Working files

A name that is tracked is the name of a file right in the working directory, and there is room for
it in the staging area.  Such a file can be written and deleted whatever stands in its place, and
nothing else is changed by that.

* `Trackable`: the names that can be tracked.
* `Worktree.write_run`, `Worktree.remove_run`: writing and deleting a working file.
* `Worktree.Listed`, `Worktree.list_eq`: the names that are listed, and which files they are of.
-/
import LocalVcs.Proofs.Areas
import LocalVcs.Proofs.FileTree.ShownNames
import LocalVcs.Proofs.Outcome
import LocalVcs.Worktree

namespace LocalVcs

open FileTree Layout

/-! ## 1. Names -/

theorem segmentsOf_of_noSlash {text : String} (h : '/' ∉ text.toList) : segmentsOf text =
    [.text text] := by
  have : text.toList.splitOn '/' = [text.toList] := by
    have noSlash : ∀ l ∈ [text.toList], '/' ∉ l := by simpa using h
    simpa using List.splitOn_intercalate '/' noSlash (by simp)
  rw [segmentsOf, this, List.map_singleton, String.ofList_toList]

theorem exists_text_of_mem_segmentsOf {text : String} {s : FileName} (h : s ∈ segmentsOf text) :
    ∃ word, s = .text word := by
  obtain ⟨cs, -, rfl⟩ := List.mem_map.mp h
  exact ⟨_, rfl⟩

theorem toList_eq_intercalate_segmentsOf (text : String) :
    text.toList = ['/'].intercalate ((segmentsOf text).map FileName.chars) := by
  have back : (segmentsOf text).map FileName.chars = text.toList.splitOn '/' := by
    rw [segmentsOf, List.map_map]
    exact (List.map_congr_left fun cs _ => String.toList_ofList).trans (List.map_id _)
  rw [back, List.intercalate_splitOn]

namespace Worktree

/-- What a text is like that stands for a working file. -/
structure Names (text name : String) : Prop where
  unbroken : '\n' ∉ text.toList ∧ '\r' ∉ text.toList
  relative : isAbsolute text = false
  steps : (segmentsOf text).filter Route.goes = [.text name]
  noUp : name ≠ ".."
  notMeta : name ≠ metaName
  noDot : (segmentsOf text).head? ≠ some (.text ".")

theorem names_of_fileName? {text name : String} (h : fileName? text = some name) :
    Names text name := by
  simp only [fileName?] at h
  split at h
  · cases h
  · rename_i hbreak
    split at h
    · cases h
    · rename_i habsolute
      split at h
      · rename_i found hfound
        split at h
        · cases h
        · rename_i hspecial
          obtain rfl := Option.some.inj h
          simp only [not_or] at hspecial habsolute
          have hsteps : (segmentsOf text).filter Route.goes = [.text found] := hfound
          refine ⟨?_, by simpa using habsolute.1, hsteps, hspecial.1, hspecial.2, habsolute.2⟩
          simp only [Bool.not_eq_true, List.any_eq_false, Bool.or_eq_true, decide_eq_true_eq,
            not_or] at hbreak
          exact ⟨fun hmem => (hbreak _ hmem).1 rfl, fun hmem => (hbreak _ hmem).2 rfl⟩
      · cases h

theorem Names.goes {text name : String} (h : Names text name) : Route.goes name = true := by
  have stays : .text name ∈ (segmentsOf text).filter Route.goes := by simp [h.steps]
  exact (List.mem_filter.mp stays).2

/-- The route to a working file leads to the one name that the text stands for. -/
theorem exists_of_requireRoute {root : Path} {text : String} {route : Route}
    (h : requireRoute root text = .ok route) :
    ∃ name, fileName? text = some name ∧ route = ⟨root, [name]⟩ := by
  rw [requireRoute, route?] at h
  cases hname : fileName? text with
  | none => simp [hname] at h
  | some name => exact ⟨name, rfl, by simpa [hname] using h.symm⟩

/-- A name without slashes stands for the file of that name, if it stands for any. -/
theorem fileName?_of_noSlash {name text : String} (h : fileName? name = some text)
    (noSlash : '/' ∉ name.toList) : fileName? name = some name := by
  have names := names_of_fileName? h
  have steps := names.steps
  rw [segmentsOf_of_noSlash noSlash] at steps
  have inside : FileName.text text ∈ [FileName.text name] :=
    (List.mem_filter.mp (steps ▸ List.mem_singleton_self _)).1
  rw [h, FileName.text.inj (List.mem_singleton.mp inside)]

end Worktree

/-- A name that can be tracked: it stands for the working file of that name, and the file in which
it is staged can be told to the file system. -/
structure Trackable (root : Path) (name : String) : Prop where
  names : Worktree.fileName? name = some name
  valid : ValidName name
  room : Route.bytesOf (name :: stagedPath root .addition) ≤ Route.longest

namespace Trackable

variable {root : Path} {name : String}

theorem of_names {text : String} (h : Worktree.fileName? name = some text) (valid : ValidName name)
    (room : Route.bytesOf (name :: stagedPath root .addition) ≤ Route.longest) :
    Trackable root name :=
  ⟨Worktree.fileName?_of_noSlash h valid.2.2.2.1, valid, room⟩

theorem unbroken (h : Trackable root name) : '\n' ∉ name.toList ∧ '\r' ∉ name.toList :=
  (Worktree.names_of_fileName? h.names).unbroken

theorem notMeta (h : Trackable root name) : name ≠ metaName :=
  (Worktree.names_of_fileName? h.names).notMeta

theorem relative (h : Trackable root name) : isAbsolute name = false :=
  (Worktree.names_of_fileName? h.names).relative

theorem route?_eq (h : Trackable root name) : Worktree.route? root name = some ⟨root, [name]⟩ := by
  rw [Worktree.route?, h.names]; rfl

theorem requireRoute_eq (h : Trackable root name) :
    Worktree.requireRoute root name = .ok ⟨root, [name]⟩ := by
  rw [Worktree.requireRoute, h.route?_eq]; rfl

theorem bytesOf_le (h : Trackable root name) :
    Route.bytesOf root + Route.bytesOf [name] ≤ Route.longest := by
  refine Nat.le_trans ?_ h.room
  simp only [stagedPath, metaPath, Route.bytesOf]
  omega

theorem straight (h : Trackable root name) {t : FileTree} (free : t.LinkFree root) :
    Straight t ⟨root, [name]⟩ :=
  straight_of_names [name] free (by simpa using h.valid) (by simp) h.bytesOf_le

theorem path_eq (h : Trackable root name) : (Route.mk root [name]).path = .text name :: root :=
  path_of_names [name] (by simpa using h.valid)

end Trackable

/-! ## 2. Edits of one working file -/

/-- From `t` to `t'` only what stands under one name in the working directory changes, and no links
are made. -/
structure WorkEdit (root : Path) (name : String) (t t' : FileTree) : Prop where
  frame : ∀ p, ¬.text name :: root <:+ p → t'.at? p = t.at? p
  noLink : ∀ p target, t'.at? p = some (.link target) → t.at? p = some (.link target)

namespace WorkEdit

variable {root : Path} {name : String} {t t' t'' : FileTree}

theorem trans (h : WorkEdit root name t t') (h' : WorkEdit root name t' t'') :
    WorkEdit root name t t'' :=
  ⟨fun p away => (h'.frame p away).trans (h.frame p away),
    fun p target hlink => h.noLink p target (h'.noLink p target hlink)⟩

theorem of_place? {path : Path} {e : Entry} (h : t.place? path e = some t')
    (below : .text name :: root <:+ path) (noLink : ∀ target, e ≠ .link target) :
    WorkEdit root name t t' := by
  refine ⟨fun p away => ?_, fun p target hlink => ?_⟩
  · rw [at?_place? h, if_neg]
    rintro rfl
    exact away below
  · rw [at?_place? h] at hlink
    split at hlink
    · exact absurd (Option.some.inj hlink) (noLink target)
    · exact hlink

theorem of_cut : WorkEdit root name t (t.cut (name :: root)) := by
  have cutAt := at?_cut (t := t) (List.cons_ne_nil (.text name) root)
  refine ⟨fun p away => by rw [cutAt, if_neg away], fun p target hlink => ?_⟩
  rw [cutAt] at hlink
  split at hlink
  · cases hlink
  · exact hlink

theorem touches (h : WorkEdit root name t t') (notMeta : name ≠ metaName) :
    Touches root [.work] t t' :=
  ⟨fun p hp => h.frame p fun below => hp .work (by simp)
    (Area.holds_work (FileName.text_ne notMeta) below),
    h.noLink⟩

end WorkEdit

/-- From `t` to `t'` some working files of these names are gone, and everything else is as
before. -/
def FilesGone (root : Path) (names : List String) (t t' : FileTree) : Prop :=
  ∀ p, t'.at? p = t.at? p ∨ t'.at? p = none ∧
    ∃ name ∈ names, p = .text name :: root ∧ ∃ content, t.at? p = some (.file content)

namespace FilesGone

variable {root : Path} {names more : List String} {t t' t'' : FileTree}

theorem refl (root : Path) (names : List String) (t : FileTree) : FilesGone root names t t :=
  fun _ => Or.inl rfl

theorem mono (h : FilesGone root names t t') (sub : names ⊆ more) : FilesGone root more t t' :=
  fun p => (h p).imp_right fun ⟨hnone, name, hname, was⟩ => ⟨hnone, name, sub hname, was⟩

theorem trans (h : FilesGone root names t t') (h' : FilesGone root names t' t'') :
    FilesGone root names t t'' := by
  intro p
  rcases h p with same | ⟨hnone, was⟩
  · rw [← same]
    exact h' p
  · refine Or.inr ⟨?_, was⟩
    rcases h' p with same | ⟨hnone', -⟩
    · rw [same, hnone]
    · exact hnone'

/-- What stands afterwards stood there before. -/
theorem at?_of_some (h : FilesGone root names t t') {p : Path} {e : Entry}
    (hat : t'.at? p = some e) : t.at? p = some e := by
  rcases h p with same | ⟨hnone, -⟩
  · rw [← same, hat]
  · simp [hnone] at hat

theorem touches (h : FilesGone root names t t') (notMeta : ∀ name ∈ names, name ≠ metaName) :
    Touches root [.work] t t' := by
  refine ⟨fun p hp => (h p).resolve_right ?_, fun p target => h.at?_of_some⟩
  rintro ⟨-, name, hname, rfl, -⟩
  exact hp .work (by simp)
    (Area.holds_work (FileName.text_ne (notMeta name hname)) (List.suffix_refl _))

end FilesGone

/-- A name right in the working directory lies below no other. -/
theorem not_suffix_of_name_ne {root : Path} {name other : FileName} (h : name ≠ other) :
    ¬other :: root <:+ name :: root := fun hs => by
  have := hs.eq_of_length (by simp)
  exact h (List.cons.inj this).1.symm

theorem not_suffix_of_ne {root : Path} {name other : String} (h : name ≠ other) :
    ¬.text other :: root <:+ .text name :: root := not_suffix_of_name_ne (FileName.text_ne h)

/-- What stands right in a directory is named by texts. -/
def TextsIn (dir : Path) (t : FileTree) : Prop :=
  ∀ name e, t.at? (name :: dir) = some e → ∃ text, name = .text text

theorem TextsIn.at?_other {dir : Path} {t : FileTree} (texts : TextsIn dir t) {bytes : Bytes}
    {noText : Bytes.text? bytes = none} : t.at? (.other bytes noText :: dir) = none :=
  Option.eq_none_iff_forall_ne_some.mpr fun e hat => by
    obtain ⟨text, ⟨⟩⟩ := texts _ e hat

/-- No two plain files right in a directory are shown as the same name.  Only a file whose name is
no text can be shown as the name of another one. -/
def ShownApart (dir : Path) (t : FileTree) : Prop :=
  ∀ (file other : FileName) (content content' : Content),
    t.at? (file :: dir) = some (.file content) → t.at? (other :: dir) = some (.file content') →
      file.shown = other.shown → file = other

theorem TextsIn.shownApart {dir : Path} {t : FileTree} (texts : TextsIn dir t) :
    ShownApart dir t := by
  intro file other _ _ hfile hother same
  obtain ⟨text, rfl⟩ := texts file _ hfile
  obtain ⟨text', rfl⟩ := texts other _ hother
  exact congrArg FileName.text same

/-- Where files go, no names come. -/
theorem FilesGone.textsIn {root : Path} {names : List String} {t t' : FileTree}
    (gone : FilesGone root names t t') {dir : Path} (texts : TextsIn dir t) : TextsIn dir t' :=
  fun name e hat => texts name e (gone.at?_of_some hat)

/-- Where working files are left alone, their names are too. -/
theorem TextsIn.of_touches {root : Path} {t t' : FileTree} (texts : TextsIn root t)
    {areas : List Area} (touch : Touches root areas t t') (away : Area.work ∉ areas) :
    TextsIn root t' := fun name e hat => by
  by_cases inside : name = metaName
  · exact ⟨metaName, inside⟩
  · exact texts name e ((touch.at?_outside away (not_suffix_of_name_ne inside)).symm.trans hat)

namespace Worktree

variable {root : Path} {t t' : FileTree} {name : String}

/-! ### Requests along the route to a working file, whatever else holds links -/

theorem place?_of_write? {text : String} {content : Content} (named : fileName? text = some name)
    (noLink : ∀ target, t.at? (name :: root) ≠ some (.link target))
    (h : t.write? ⟨root, [name]⟩ content = some t') :
    t.place? (name :: root) (.file content) = some t' := by
  have names := names_of_fileName? named
  obtain ⟨q, hq, hplace⟩ := exists_of_write? h
  obtain rfl := path_of_locate_name names.goes (FileName.text_ne names.noUp.symm) noLink hq
  exact hplace

theorem eq_cut_of_removeAll? (h : t.removeAll? ⟨root, [name]⟩ = some t') :
    t' = t.cut (name :: root) := by
  obtain ⟨q, hq, rfl⟩ := exists_of_removeAll? h
  exact path_of_locateEntry_name hq ▸ rfl

theorem eq_cut_of_removeFile? (h : t.removeFile? ⟨root, [name]⟩ = some t') :
    t' = t.cut (name :: root) ∧ t.at? (name :: root) ≠ some .dir := by
  obtain ⟨q, e, hq, hat, noDir, rfl⟩ := exists_of_removeFile? h
  obtain rfl := path_of_locateEntry_name hq
  exact ⟨rfl, fun hdir => noDir (Option.some.inj (hat.symm.trans hdir))⟩

/-! ### Writing and deleting where no links are about -/

theorem contains_iff (h : Housed root t) (hname : Trackable root name) :
    contains root t name = true ↔ ∃ content, t.at? (name :: root) = some (.file content) := by
  rw [contains, hname.route?_eq, Option.any_some, (hname.straight h.free).isFile_iff,
    hname.path_eq]

theorem read_of_file (h : Housed root t) (named : fileName? name = some name)
    (room : Route.bytesOf root + Route.bytesOf [name] ≤ Route.longest) {content : Content}
    (hat : t.at? (name :: root) = some (.file content)) : read root t name = .ok content.bytes := by
  have valid : ValidName name := (at?_of_cons hat).1
  have straight := straight_of_names [name] h.free (by simpa using valid) (by simp) room
  have path : (Route.mk root [name]).path = .text name :: root := path_of_names [name]
    (by simpa using valid)
  have found : t.bytes? ⟨root, [name]⟩ = some content.bytes := by
    rw [bytes?, straight.contents?_eq_some_iff.mpr (by rw [path]; exact hat)]
    rfl
  have route : requireRoute root name = .ok ⟨root, [name]⟩ := by
    rw [requireRoute, route?, named]; rfl
  simp [read, route, found, bind, Except.bind]

theorem read_eq (h : Housed root t) (hname : Trackable root name) {content : Bytes}
    (hat : t.at? (name :: root) = some (.file (.plain content))) :
    read root t name = .ok content :=
  read_of_file h hname.names hname.bytesOf_le hat

/-- A working file is written where no directory stands in its place. -/
theorem write?_of_not_dir (hname : Trackable root name) (free : t.LinkFree root)
    (inDir : t.at? root = some .dir) (noDir : t.at? (name :: root) ≠ some .dir)
    (content : Content) :
    ∃ t', t.write? ⟨root, [name]⟩ content = some t' ∧
      t.place? (name :: root) (.file content) = some t' := by
  obtain ⟨t', hplace⟩ : ∃ t', t.place? (name :: root) (.file content) = some t' :=
    ⟨_, dif_pos ⟨hname.valid, inDir, noDir⟩⟩
  exact ⟨t', by rw [(hname.straight free).write?_eq, hname.path_eq, hplace], hplace⟩

/-- A working file can be written, whatever stands in its place. -/
theorem write_run (h : Housed root t) (hname : Trackable root name) (content : Bytes)
    (printed : String) :
    ∃ t', write root name content ⟨t, printed⟩ = (.ok (), ⟨t', printed⟩) ∧
      WorkEdit root name t t' ∧ t'.at? (name :: root) = some (.file (.plain content)) := by
  have hroute := hname.requireRoute_eq
  have straight := hname.straight h.free
  have place : ∀ s : FileTree, s.LinkFree root → s.at? root = some .dir →
      s.at? (name :: root) ≠ some .dir → ∃ s', s.write? ⟨root, [name]⟩ (.plain content) = some s' ∧
        WorkEdit root name s s' ∧ s'.at? (name :: root) = some (.file (.plain content)) := by
    intro s free inDir noDir
    obtain ⟨s', hwrite, hplace⟩ := write?_of_not_dir hname free inDir noDir (.plain content)
    exact ⟨s', hwrite, .of_place? hplace (List.suffix_refl _) (by simp),
      by rw [at?_place? hplace, if_pos rfl]⟩
  by_cases hdir : t.at? (name :: root) = some .dir
  · -- the directory is removed with all it holds, then the file is written
    have hremove : t.removeAll? ⟨root, [name]⟩ = some (t.cut (name :: root)) := by
      rw [straight.removeAll?_of_at (by rw [hname.path_eq]; exact hdir), hname.path_eq]
    have cutAt := at?_cut (t := t) (List.cons_ne_nil (.text name) root)
    have gone : (t.cut (name :: root)).at? (name :: root) = none := by simp [cutAt]
    have stays : (t.cut (name :: root)).at? root = some .dir := by
      have shorter : ¬.text name :: root <:+ root := fun hs => absurd hs.length_le (by simp)
      rw [cutAt, if_neg shorter, h.at?_root]
    obtain ⟨t', hwrite, edit, hat⟩ := place _ h.free.of_cut stays (by simp [gone])
    refine ⟨t', ?_, WorkEdit.of_cut.trans edit, hat⟩
    simp [write, Action.bind_run, Action.ofExcept, hroute, Action.read, straight.isDir_eq,
      hname.path_eq, hdir, Action.edit, hremove, hwrite]
  · obtain ⟨t', hwrite, edit, hat⟩ := place t h.free h.at?_root hdir
    refine ⟨t', ?_, edit, hat⟩
    simp [write, Action.bind_run, Action.ofExcept, hroute, Action.read, straight.isDir_eq,
      hname.path_eq, hdir, Action.edit, hwrite]

/-- A working file can be deleted; where there is none, nothing is changed. -/
theorem remove_gone (h : Housed root t) (hname : Trackable root name) (printed : String) :
    ∃ t', remove root name ⟨t, printed⟩ = (.ok (), ⟨t', printed⟩) ∧ FilesGone root [name] t t' ∧
      ∀ content, t'.at? (name :: root) ≠ some (.file content) := by
  have straight := hname.straight h.free
  by_cases hfile : contains root t name = true
  · obtain ⟨content, hat⟩ := (contains_iff h hname).mp hfile
    have hremove : t.removeFile? ⟨root, [name]⟩ = some (t.cut (name :: root)) := by
      rw [straight.removeFile?_of_file (by rw [hname.path_eq]; exact hat), hname.path_eq]
    have cutAt := at?_cut_of_file hat
    refine ⟨t.cut (name :: root), ?_, fun p => ?_, by simp [cutAt]⟩
    · simp [remove, Action.bind_run, Action.read, hfile, Action.ofExcept, hname.requireRoute_eq,
        Action.edit, hremove]
    · by_cases hp : p = .text name :: root
      · exact Or.inr ⟨by simp [cutAt, hp], name, by simp, hp, content, hp ▸ hat⟩
      · exact Or.inl (by rw [cutAt, if_neg hp])
  · refine ⟨t, ?_, FilesGone.refl root [name] t, ?_⟩
    · simp [remove, Action.bind_run, Action.read, hfile]
      rfl
    · intro content hat
      exact hfile ((contains_iff h hname).mpr ⟨content, hat⟩)

theorem remove_run (h : Housed root t) (hname : Trackable root name) (printed : String) :
    ∃ t', remove root name ⟨t, printed⟩ = (.ok (), ⟨t', printed⟩) ∧ WorkEdit root name t t' ∧
      ∀ content, t'.at? (name :: root) ≠ some (.file content) := by
  obtain ⟨t', hrun, gone, none_⟩ := remove_gone h hname printed
  refine ⟨t', hrun,
    ⟨fun p away => (gone p).resolve_right ?_, fun p target => gone.at?_of_some⟩, none_⟩
  rintro ⟨-, other, hother, rfl, -⟩
  obtain rfl := List.mem_singleton.mp hother
  exact away (List.suffix_refl _)

/-! ### What depends on one working file only -/

section Congr

variable {text : String} (free : t.LinkFree root) (free' : t'.LinkFree root)

include free free'

theorem lookup?_congr (named : fileName? text = some name)
    (same : t'.at? (name :: root) = t.at? (name :: root)) :
    t'.lookup? ⟨root, [name]⟩ = t.lookup? ⟨root, [name]⟩ := by
  have names := names_of_fileName? named
  have straight {s : FileTree} (free : s.LinkFree root) (tell : (Route.mk root [name]).CanTell) :
      Straight s ⟨root, [name]⟩ :=
    ⟨free, by simpa using names.noUp.symm, ⟨[], name, rfl, names.goes⟩, tell⟩
  have path : (Route.mk root [name]).path = .text name :: root :=
    by simp [Route.path_mk, names.goes]
  exact Straight.lookup?_congr (straight free) (straight free') (by rw [path, same])

theorem contains_congr
    (same : ∀ name, fileName? text = some name → t'.at? (name :: root) = t.at? (name :: root)) :
    contains root t' text = contains root t text := by
  cases named : fileName? text with
  | none => simp [contains, route?, named]
  | some name =>
    simp [contains, route?, named, isFile, lookup?_congr free free' named (same name named)]

theorem read_congr
    (same : ∀ name, fileName? text = some name → t'.at? (name :: root) = t.at? (name :: root)) :
    read root t' text = read root t text := by
  cases named : fileName? text with
  | none => simp [read, requireRoute, route?, named, bind, Except.bind]
  | some name =>
    simp [read, requireRoute, route?, named, bind, Except.bind, bytes?, contents?,
      lookup?_congr free free' named (same name named)]

end Congr

/-- A working file that is there can be read. -/
theorem read_of_contains {text : String} (h : contains root t text = true) :
    ∃ content, read root t text = .ok content := by
  cases named : fileName? text with
  | none => simp [contains, route?, named] at h
  | some name =>
    simp only [contains, route?, named, Option.map_some, Option.any_some, isFile] at h
    split at h
    · rename_i content hlookup
      exact ⟨content.bytes, by
        simp [read, requireRoute, route?, named, bind, Except.bind, bytes?, contents?, hlookup]⟩
    · cases h

/-! ## 3. The list of working files -/

theorem mem_filesOf {entries : List (FileName × Entry)} {name : FileName} {content : Content} :
    (name, content) ∈ filesOf entries ↔ (name, .file content) ∈ entries := by
  simp only [filesOf, List.mem_filterMap]
  constructor
  · rintro ⟨⟨n, e⟩, hmem, hsome⟩
    cases e <;> simp_all
  · intro hmem
    exact ⟨_, hmem, rfl⟩

/-- Whether a plain file in the working directory is listed under a name.  As a rule that is its own
name; a file whose name is no text is listed under what is shown of it. -/
def Listed (root : Path) (t : FileTree) (name : String) : Prop :=
  (fileName? name).isSome = true ∧
    ∃ (file : FileName) (content : Content), file.shown = name ∧
      t.at? (file :: root) = some (.file content)

theorem Listed.of_file (named : (fileName? name).isSome = true) {content : Content}
    (hat : t.at? (name :: root) = some (.file content)) : Listed root t name :=
  ⟨named, name, content, rfl, hat⟩

theorem mem_of_list {names : List String} (h : list root t = .ok names) :
    name ∈ names ↔ Listed root t name := by
  unfold list at h
  split at h
  · cases h
  · rename_i entries hlist
    obtain rfl := Except.ok.inj h
    obtain ⟨path, hlocate, hentries⟩ := Option.bind_eq_some_iff.mp hlist
    obtain rfl := eq_start_of_locate hlocate
    split at hentries
    · obtain rfl := Option.some.inj hentries
      simp only [List.mem_mergeSort, List.mem_filter, List.mem_map, Prod.exists, mem_filesOf,
        mem_children, Listed]
      constructor
      · rintro ⟨⟨file, content, hat, shown⟩, named⟩
        exact ⟨named, file, content, shown, hat⟩
      · rintro ⟨named, file, content, shown, hat⟩
        exact ⟨⟨file, content, hat, shown⟩, named⟩
    · cases hentries

theorem list_eq (h : Housed root t) :
    ∃ names, list root t = .ok names ∧ ∀ name, name ∈ names ↔ Listed root t name := by
  have tell : (Route.mk root []).CanTell :=
    tell_of_names (by simp) (Nat.le_trans (Nat.add_le_add_left (Nat.zero_le 58) _) h.room)
  have hlist : t.list? ⟨root, []⟩ = some (t.children root) := list?_eq tell (by simp) h.at?_root
  obtain ⟨names, hnames⟩ : ∃ names, list root t = .ok names := ⟨_, by rw [list, hlist]⟩
  exact ⟨names, hnames, fun name => mem_of_list hnames⟩

/-- A name that is listed stands for the file of that name. -/
theorem Listed.names (listed : Listed root t name) : fileName? name = some name := by
  obtain ⟨named, file, _, rfl, hat⟩ := listed
  obtain ⟨text, htext⟩ := Option.isSome_iff_exists.mp named
  have noSlash : '/' ∉ file.chars := (at?_of_cons hat).1.2.2.2.1
  exact fileName?_of_noSlash htext fun slash =>
    noSlash (FileName.mem_chars_of_mem_shown (by decide) slash)

/-- Where names are texts, what is listed are the names of plain files. -/
theorem Listed.exists_file (listed : Listed root t name) (texts : TextsIn root t) :
    ∃ content, t.at? (name :: root) = some (.file content) := by
  obtain ⟨-, file, content, rfl, hat⟩ := listed
  obtain ⟨text, rfl⟩ := texts file _ hat
  exact ⟨content, hat⟩

/-- What can be read right in the working directory is a plain file. -/
theorem at?_of_read (names : fileName? name = some name)
    (noLink : ∀ target, t.at? (name :: root) ≠ some (.link target)) {bytes : Bytes}
    (hread : read root t name = .ok bytes) :
    ∃ content, t.at? (name :: root) = some (.file content) ∧ content.bytes = bytes := by
  have told := names_of_fileName? names
  have found : t.bytes? ⟨root, [name]⟩ = some bytes := by
    simp only [read, requireRoute, route?, names, bind, Except.bind, Option.map_some,
      Option.elim_some] at hread
    cases hbytes : t.bytes? ⟨root, [name]⟩ with
    | none => simp [hbytes] at hread
    | some found => simpa [hbytes] using hread
  obtain ⟨content, hcontents, rfl⟩ := Option.map_eq_some_iff.mp found
  refine ⟨content, ?_, rfl⟩
  cases hlocate : t.locate ⟨root, [name]⟩ with
  | none => simp [contents?, lookup?, hlocate] at hcontents
  | some path =>
    obtain rfl := path_of_locate_name told.goes (FileName.text_ne told.noUp.symm) noLink hlocate
    simp only [contents?, lookup?, hlocate, Option.bind_some] at hcontents
    split at hcontents
    · rename_i own hat
      rw [hat, Option.some.inj hcontents]
    · cases hcontents

/-- Whether a text is listed as the name of a working file, and cannot be read. -/
structure Unread (root : Path) (t : FileTree) (name : String) : Prop where
  listed : ∃ names, list root t = .ok names ∧ name ∈ names
  fails : read root t name = .error (.refused (.readWorking name))

/-- What is listed can be read, or it cannot. -/
theorem read_cases {names : List String} (hlist : list root t = .ok names) {name : String}
    (hname : name ∈ names) : (∃ content, read root t name = .ok content) ∨ Unread root t name := by
  obtain ⟨text, htext⟩ := Option.isSome_iff_exists.mp ((mem_of_list hlist).mp hname).1
  have reads : read root t name =
      (t.bytes? ⟨root, [text]⟩).elim (.error (.refused (.readWorking name))) .ok := by
    simp [read, requireRoute, route?, htext, bind, Except.bind]
  cases hbytes : t.bytes? ⟨root, [text]⟩ with
  | some content => exact Or.inl ⟨content, by rw [reads, hbytes]; rfl⟩
  | none => exact Or.inr ⟨⟨names, hlist, hname⟩, by rw [reads, hbytes]; rfl⟩

/-- What is listed and stands for no plain file cannot be read. -/
theorem unread_of_listed (h : Housed root t) (listed : Listed root t name)
    (noFile : ∀ content, t.at? (name :: root) ≠ some (.file content)) : Unread root t name := by
  obtain ⟨names, hlist, mem_names⟩ := list_eq h
  rcases read_cases hlist ((mem_names name).mpr listed) with ⟨bytes, hread⟩ | unread
  · have noLink := fun target => h.free (.text name :: root) target (List.suffix_cons _ _)
    obtain ⟨content, hat, -⟩ := at?_of_read listed.names noLink hread
    exact absurd hat (noFile content)
  · exact unread

/-- All that is listed can be read where all names are texts, and the working directory is not too
deep. -/
theorem not_unread_of_room (h : Housed root t) (texts : TextsIn root t)
    (room : Route.bytesOf root + longestName + 1 ≤ Route.longest) (name : String) :
    ¬Unread root t name := by
  rintro ⟨⟨names, hlist, hname⟩, fails⟩
  have listed := (mem_of_list hlist).mp hname
  obtain ⟨content, hat⟩ := listed.exists_file texts
  have short : name.utf8ByteSize ≤ longestName := (at?_of_cons hat).1.2.2.2.2.2
  have hread := read_of_file h listed.names
    (by simp only [Route.bytesOf, FileName.size_text]; omega) hat
  cases hread.symm.trans fails

end Worktree

end LocalVcs
