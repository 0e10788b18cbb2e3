/-
# The areas of a repository

Each part of a repository has its own place in the file tree, and every edit that a command makes
stays in one part.  So what is known of the other parts is still known afterwards.

* `Area.Holds.unique`: the areas do not overlap.
* `Touches.at?_eq`: what lies in an area that an edit does not touch stays as it is.
* `Housed`: the directories of a repository are there, no link stands among them, and every path
  in them can be told to the file system.  `Housed.of_touches`: edits keep it so.
-/
import LocalVcs.Proofs.FileTree.Straight
import LocalVcs.Layout

namespace LocalVcs

open FileTree

/-! ## 1. Paths -/

namespace Layout

/-- The directory that holds the repository. -/
def metaPath (root : Path) : Path := metaName :: root

/-- The directory that holds the objects of a kind. -/
def storePath (root : Path) (kind : Kind) : Path := storeName kind :: metaPath root

/-- The file of an object. -/
def objectPath (root : Path) (kind : Kind) (id : ObjectId) : Path :=
  id.fileName :: id.directory :: storePath root kind

/-- The file that names the current branch. -/
def headPath (root : Path) : Path := "HEAD" :: metaPath root

/-- The directory that holds the branches. -/
def branchesPath (root : Path) : Path := "branches" :: metaPath root

/-- The directory for entries staged so. -/
def stagedPath (root : Path) (what : Staged) : Path := stagedName what :: "index" :: metaPath root

/-- The directories that every repository has. -/
def skeleton (root : Path) : List Path :=
  [root, metaPath root, branchesPath root, "index" :: metaPath root, stagedPath root .addition,
    stagedPath root .removal, storePath root .blob, storePath root .commit]

end Layout

open Layout

/-! ## 2. Areas -/

/-- A part of the working directory that is edited on its own. -/
inductive Area
  | work
  | head
  | branches
  | index (what : Staged)
  | store (kind : Kind)
  deriving DecidableEq

namespace Area

/-- The names that lead to an area from the working directory, the last one first. -/
def names : Area → List FileName
  | work => []
  | head => ["HEAD", metaName]
  | branches => ["branches", metaName]
  | index what => [stagedName what, "index", metaName]
  | store kind => [storeName kind, metaName]

/-- Whether a path lies in an area.  The directories that every repository has are in none, and the
working files are what lies outside the repository's own directory. -/
structure Holds (root : Path) (area : Area) (p : Path) : Prop where
  below : area.names ++ root <:+ p
  off : p ∉ skeleton root
  outside : area = work → ¬metaPath root <:+ p

variable {root p : Path} {a b : Area}

/-- Only one area is entered by the names that lead to another, which is the working directory. -/
theorem eq_of_names_suffix (h : a.names <:+ b.names) : a = b ∨ a = work := by
  revert h
  rcases a with _ | _ | _ | ⟨_ | _⟩ | ⟨_ | _⟩ <;> rcases b with _ | _ | _ | ⟨_ | _⟩ | ⟨_ | _⟩ <;>
    decide

theorem suffix_of_append_suffix {l l' root : Path} (h : l ++ root <:+ l' ++ root) : l <:+ l' := by
  obtain ⟨front, h⟩ := h
  rw [← List.append_assoc] at h
  exact ⟨front, List.append_cancel_right h⟩

theorem meta_suffix_of_ne_work (root : Path) (h : a ≠ work) :
    metaPath root <:+ a.names ++ root := by
  rcases a with _ | _ | _ | what | kind
  · exact absurd rfl h
  · exact ⟨["HEAD"], rfl⟩
  · exact ⟨["branches"], rfl⟩
  · exact ⟨[stagedName what, "index"], rfl⟩
  · exact ⟨[storeName kind], rfl⟩

/-- No path lies in two areas. -/
theorem Holds.unique (ha : Holds root a p) (hb : Holds root b p) : a = b := by
  have comparable : a.names <:+ b.names ∨ b.names <:+ a.names :=
    (List.suffix_or_suffix_of_suffix ha.below hb.below).imp suffix_of_append_suffix
      suffix_of_append_suffix
  by_cases heq : a = b
  · exact heq
  · rcases comparable with h | h
    · have hwork : a = work := (eq_of_names_suffix h).resolve_left heq
      have inMeta := meta_suffix_of_ne_work root (hwork ▸ Ne.symm heq)
      exact absurd (inMeta.trans hb.below) (ha.outside hwork)
    · have hwork : b = work := (eq_of_names_suffix h).resolve_left (Ne.symm heq)
      have inMeta := meta_suffix_of_ne_work root (hwork ▸ heq)
      exact absurd (inMeta.trans ha.below) (hb.outside hwork)

/-- What lies strictly below the directory of an area lies in that area. -/
theorem holds_of_below (h : a.names ++ root <:+ p) (other : p ≠ a.names ++ root)
    (inside : a ≠ work) : Holds root a p := by
  refine ⟨h, fun hp => ?_, fun hwork => absurd hwork inside⟩
  obtain ⟨names, hnames, rfl⟩ : ∃ names : List FileName,
      names ∈ ([[], [metaName], ["branches", metaName], ["index", metaName],
        [stagedName .addition, "index", metaName], [stagedName .removal, "index", metaName],
        [storeName .blob, metaName], [storeName .commit, metaName]] : List Path) ∧
        p = names ++ root := by
    simpa [skeleton, metaPath, branchesPath, stagedPath, storePath] using hp
  have hsub := suffix_of_append_suffix h
  have hne : names ≠ a.names := fun heq => other (by rw [heq])
  revert hnames hsub hne inside
  clear h hp other
  rcases a with _ | _ | _ | ⟨_ | _⟩ | ⟨_ | _⟩ <;>
    (simp only [List.mem_cons, List.not_mem_nil, or_false]
     rintro hwork (rfl | rfl | rfl | rfl | rfl | rfl | rfl | rfl) <;> revert hwork <;> decide)

theorem ne_of_longer {l l' : Path} (h : l'.length < l.length) : l ≠ l' :=
  fun heq => Nat.lt_irrefl _ (heq ▸ h)

theorem holds_head : Holds root head (headPath root) where
  below := List.suffix_refl _
  off := by
    have longer : .text "HEAD" :: .text metaName :: root ≠ root :=
      ne_of_longer (by simp only [List.length_cons]; omega)
    simp [skeleton, headPath, branchesPath, stagedPath, storePath, metaPath, storeName, longer]
  outside := by simp

theorem meta_suffix_of_mem_skeleton (h : p ∈ skeleton root) : p = root ∨ metaPath root <:+ p := by
  rcases List.mem_cons.mp h with rfl | h
  · exact Or.inl rfl
  · right
    simp only [List.mem_cons, List.not_mem_nil, or_false] at h
    rcases h with rfl | rfl | rfl | rfl | rfl | rfl | rfl <;>
      simp [branchesPath, stagedPath, storePath, List.suffix_cons_iff]

theorem holds_work {name : FileName} (h : name ≠ metaName) (hp : name :: root <:+ p) :
    Holds root work p := by
  have outside : ¬metaPath root <:+ p := by
    intro hmeta
    have := (List.suffix_of_suffix_length_le hmeta hp (by simp [metaPath])).eq_of_length
      (by simp [metaPath])
    exact h (List.cons.inj this).1.symm
  refine ⟨(List.suffix_cons name root).trans hp, fun hmem => ?_, fun _ => outside⟩
  rcases meta_suffix_of_mem_skeleton hmem with rfl | inMeta
  · exact absurd hp.length_le (by simp)
  · exact outside inMeta

theorem holds_objectDir (kind : Kind) (d : FileName) :
    Holds root (store kind) (d :: storePath root kind) :=
  holds_of_below (List.suffix_cons d _)
    (ne_of_longer (by simp [names, storePath, metaPath])) (by simp)

theorem holds_objectFile (kind : Kind) (d f : FileName) :
    Holds root (store kind) (f :: d :: storePath root kind) :=
  holds_of_below ⟨[f, d], rfl⟩ (ne_of_longer (by simp [names, storePath, metaPath])) (by simp)

theorem holds_object {kind : Kind} {id : ObjectId} :
    Holds root (store kind) (objectPath root kind id) := holds_objectFile kind _ _

end Area

/-! ## 3. Edits within areas -/

/-- From `t` to `t'` only paths in these areas change, and no links are made. -/
structure Touches (root : Path) (areas : List Area) (t t' : FileTree) : Prop where
  frame : ∀ p, (∀ area ∈ areas, ¬area.Holds root p) → t'.at? p = t.at? p
  noLink : ∀ p target, t'.at? p = some (.link target) → t.at? p = some (.link target)

namespace Touches

variable {root : Path} {areas more : List Area} {t t' t'' : FileTree}

theorem refl (root : Path) (t : FileTree) : Touches root areas t t :=
  ⟨fun _ _ => rfl, fun _ _ h => h⟩

theorem trans (h : Touches root areas t t') (h' : Touches root areas t' t'') :
    Touches root areas t t'' :=
  ⟨fun p hp => (h'.frame p hp).trans (h.frame p hp),
    fun p target hlink => h.noLink p target (h'.noLink p target hlink)⟩

theorem mono (h : Touches root areas t t') (sub : areas ⊆ more) : Touches root more t t' :=
  ⟨fun p hp => h.frame p fun area harea => hp area (sub harea), h.noLink⟩

/-- What lies in another area stays as it is. -/
theorem at?_eq (h : Touches root areas t t') {area : Area} {p : Path} (hp : area.Holds root p)
    (other : area ∉ areas) : t'.at? p = t.at? p :=
  h.frame p fun _ hmem held => other (held.unique hp ▸ hmem)

theorem at?_skeleton (h : Touches root areas t t') {p : Path} (hp : p ∈ skeleton root) :
    t'.at? p = t.at? p :=
  h.frame p fun _ _ held => held.off hp

/-- Another part of the repository stays as it is with all that lies below it. -/
theorem at?_below (h : Touches root areas t t') (area : Area) (inside : area ≠ .work)
    (other : area ∉ areas) {p : Path} (below : area.names ++ root <:+ p) : t'.at? p = t.at? p := by
  by_cases hp : p = area.names ++ root
  · subst hp
    cases area with
    | work => exact absurd rfl inside
    | head => exact h.at?_eq Area.holds_head other
    | branches => exact h.at?_skeleton (p := branchesPath root) (by simp [skeleton])
    | index what =>
      exact h.at?_skeleton (p := stagedPath root what) (by cases what <;> simp [skeleton])
    | store kind =>
      exact h.at?_skeleton (p := storePath root kind) (by cases kind <;> simp [skeleton])
  · exact h.at?_eq (Area.holds_of_below below hp inside) other

/-- Where no working files are touched, nothing changes outside the repository's own directory. -/
theorem at?_outside (h : Touches root areas t t') (away : .work ∉ areas) {p : Path}
    (outside : ¬metaPath root <:+ p) : t'.at? p = t.at? p := by
  refine h.frame p fun area harea held => outside ?_
  have inside : area ≠ .work := fun heq => away (heq ▸ harea)
  exact (Area.meta_suffix_of_ne_work root inside).trans held.below

theorem linkFree (h : Touches root areas t t') (free : t.LinkFree root) : t'.LinkFree root :=
  fun p target below hat => free p target below (h.noLink p target hat)

theorem of_place? {path : Path} {e : Entry} {area : Area} (h : t.place? path e = some t')
    (hpath : area.Holds root path) (harea : area ∈ areas) (noLink : ∀ target, e ≠ .link target) :
    Touches root areas t t' := by
  constructor
  · intro p hp
    rw [FileTree.at?_place? h, if_neg]
    rintro rfl
    exact hp area harea hpath
  · intro p target hlink
    rw [FileTree.at?_place? h] at hlink
    split at hlink
    · exact absurd (Option.some.inj hlink) (noLink target)
    · exact hlink

theorem of_cut {path : Path} (area : Area) (top : path ≠ [])
    (hpath : ∀ p, path <:+ p → area.Holds root p) (harea : area ∈ areas) :
    Touches root areas t (t.cut path) := by
  constructor
  · intro p hp
    rw [FileTree.at?_cut top, if_neg]
    exact fun below => hp area harea (hpath p below)
  · intro p target hlink
    rw [FileTree.at?_cut top] at hlink
    split at hlink
    · cases hlink
    · exact hlink

theorem of_madeDirs {top bottom : Path} {area : Area} (h : MadeDirs top bottom t t')
    (hpath : ∀ p, p <:+ bottom → t.at? p = none → area.Holds root p) (harea : area ∈ areas) :
    Touches root areas t t' := by
  constructor
  · intro p hp
    rcases h p with same | ⟨hnone, -, -, -, onWay⟩
    · exact same
    · exact absurd (hpath p onWay hnone) (hp area harea)
  · intro p target hlink
    exact h.at?_of_not_dir hlink (by simp)

end Touches

/-! ## 4. Repositories with a place to stand -/

/-- No links are about, and the working directory is not so deep that paths in a repository there
could not be told. -/
structure Clear (root : Path) (t : FileTree) : Prop where
  free : t.LinkFree root
  room : Route.bytesOf root + 58 ≤ Route.longest

/-- The directories of a repository stand where they should, no links are about, and the working
directory is not so deep that paths in it could not be told. -/
structure Housed (root : Path) (t : FileTree) : Prop where
  free : t.LinkFree root
  room : Route.bytesOf root + 58 ≤ Route.longest
  standing : ∀ p ∈ skeleton root, t.at? p = some .dir

namespace Housed

variable {root : Path} {t t' : FileTree}

theorem of_touches (h : Housed root t) {areas : List Area} (touch : Touches root areas t t') :
    Housed root t' where
  free := touch.linkFree h.free
  room := h.room
  standing p hp := by rw [touch.at?_skeleton hp, h.standing p hp]

theorem clear (h : Housed root t) : Clear root t := ⟨h.free, h.room⟩

theorem at?_root (h : Housed root t) : t.at? root = some .dir := h.standing _ (by simp [skeleton])

theorem at?_meta (h : Housed root t) : t.at? (metaPath root) = some .dir :=
  h.standing _ (by simp [skeleton])

theorem at?_branches (h : Housed root t) : t.at? (branchesPath root) = some .dir :=
  h.standing _ (by simp [skeleton])

theorem at?_staged (h : Housed root t) (what : Staged) :
    t.at? (stagedPath root what) = some .dir :=
  h.standing _ (by cases what <;> simp [skeleton])

theorem at?_store (h : Housed root t) (kind : Kind) : t.at? (storePath root kind) = some .dir :=
  h.standing _ (by cases kind <;> simp [skeleton])

end Housed

/-! ## 5. Straight routes in a repository -/

theorem ValidName.noUp {name : FileName} (h : ValidName name) : ".." ≠ name := Ne.symm h.2.2.1

theorem ValidName.noNul {name : FileName} (h : ValidName name) : '\x00' ∉ name.chars := h.2.2.2.2.1

theorem tell_of_names {root : Path} {names : List FileName} (valid : ∀ n ∈ names, ValidName n)
    (room : Route.bytesOf root + Route.bytesOf names ≤ Route.longest) :
    (Route.mk root names).CanTell := ⟨room, fun s hs => (valid s hs).noNul⟩

theorem level_of_names {names : List FileName} (valid : ∀ n ∈ names, ValidName n) :
    (".." : FileName) ∉ names :=
  fun h => (valid _ h).2.2.1 rfl

theorem path_of_names {root : Path} (names : List FileName)
    (valid : ∀ n ∈ names, ValidName n) : (Route.mk root names).path = names.reverse ++ root := by
  rw [Route.path_mk, List.filter_eq_self.mpr fun n hn => Route.goes_of_validName (valid n hn)]

theorem straight_of_names {root : Path} {t : FileTree} (names : List FileName)
    (free : t.LinkFree root) (valid : ∀ n ∈ names, ValidName n) (some_ : names ≠ [])
    (room : Route.bytesOf root + Route.bytesOf names ≤ Route.longest) :
    Straight t ⟨root, names⟩ where
  free := free
  level := level_of_names valid
  ends := by
    refine ⟨names.dropLast, names.getLast some_, (List.dropLast_concat_getLast some_).symm, ?_⟩
    exact Route.goes_of_validName (valid _ (List.getLast_mem some_))
  tell := tell_of_names valid room

theorem validName_of_hexDigits {cs : List Char} (digits : ∀ c ∈ cs, Sha1.IsHexDigit c)
    (some_ : cs ≠ []) (short : cs.length ≤ longestName) : ValidName (String.ofList cs) := by
  have noChar : ∀ c : Char, ¬Sha1.IsHexDigit c → c ∉ cs := fun c hc hmem => hc (digits c hmem)
  have noDot : '.' ∉ cs := noChar _ (by decide)
  refine ⟨?_, ?_, ?_, ?_, ?_, ?_⟩
  · intro h
    exact some_ (by simpa using congrArg FileName.chars h)
  · intro h
    exact noDot (by simp [show cs = ['.'] by simpa using congrArg FileName.chars h])
  · intro h
    exact noDot (by simp [show cs = ['.', '.'] by simpa using congrArg FileName.chars h])
  · rw [FileName.chars_text, String.toList_ofList]
    exact noChar _ (by decide)
  · rw [FileName.chars_text, String.toList_ofList]
    exact noChar _ (by decide)
  · rw [FileName.size_text, ObjectId.utf8ByteSize_ofList fun c hc =>
      ObjectId.utf8Size_of_isHexDigit (digits c hc)]
    exact short

namespace ObjectId

variable (id : ObjectId)

theorem length_fileName : (id.text.toList.drop 2).length = 38 := by
  rw [List.length_drop, id.length_eq]

theorem length_directory : (id.text.toList.take 2).length = 2 := by
  rw [List.length_take, id.length_eq]; rfl

theorem validName_directory : ValidName id.directory :=
  validName_of_hexDigits (fun c hc => id.digits c (List.mem_of_mem_take hc))
    (List.ne_nil_of_length_pos (by rw [length_directory]; decide))
    (by rw [length_directory]; decide)

theorem validName_fileName : ValidName id.fileName :=
  validName_of_hexDigits (fun c hc => id.digits c (List.mem_of_mem_drop hc))
    (List.ne_nil_of_length_pos (by rw [length_fileName]; decide))
    (by rw [length_fileName]; decide)

theorem utf8ByteSize_directory : id.directory.utf8ByteSize = 2 := by
  rw [directory, utf8ByteSize_ofList fun c hc =>
    utf8Size_of_isHexDigit (id.digits c (List.mem_of_mem_take hc)), length_directory]

theorem utf8ByteSize_fileName : id.fileName.utf8ByteSize = 38 := by
  rw [fileName, utf8ByteSize_ofList fun c hc =>
    utf8Size_of_isHexDigit (id.digits c (List.mem_of_mem_drop hc)), length_fileName]

/-- The directory and the file of an object tell its id. -/
theorem directory_append_fileName : id.directory ++ id.fileName = id.text := by
  rw [directory, fileName, ← String.ofList_append, List.take_append_drop, String.ofList_toList]

end ObjectId

theorem Layout.storeName_injective : Function.Injective storeName := by
  intro a b h
  cases a <;> cases b <;> first | rfl | exact absurd h (by decide)

/-- The file of an object tells its kind and its id. -/
theorem Layout.objectPath_eq_iff {root : Path} {kind kind' : Kind} {a b : ObjectId} :
    objectPath root kind a = objectPath root kind' b ↔ kind = kind' ∧ a = b := by
  refine ⟨fun h => ?_, fun ⟨hkind, hid⟩ => by rw [hkind, hid]⟩
  simp only [objectPath, storePath, List.cons.injEq, FileName.text.injEq, and_true] at h
  obtain ⟨hfile, hdir, hstore⟩ := h
  refine ⟨storeName_injective hstore, ObjectId.ext ?_⟩
  rw [← a.directory_append_fileName, ← b.directory_append_fileName, hfile, hdir]

theorem Layout.objectPath_injective {root : Path} {kind : Kind} {a b : ObjectId}
    (h : objectPath root kind a = objectPath root kind b) : a = b :=
  (objectPath_eq_iff.mp h).2

theorem validName_storeName (kind : Kind) : ValidName (storeName kind) := by cases kind <;> decide

theorem validName_stagedName (what : Staged) : ValidName (stagedName what) := by
  cases what <;> decide

theorem validName_metaName : ValidName metaName := by decide

namespace Housed

variable {root : Path} {t : FileTree} (h : Housed root t)

include h

theorem straight_head : Straight t (Layout.head root) :=
  straight_of_names [metaName, "HEAD"] h.free (by decide) (by simp)
    (Nat.le_trans (Nat.add_le_add_left (by decide) _) h.room)

theorem straight_branches : Straight t (Layout.branches root) :=
  straight_of_names [metaName, "branches"] h.free (by decide) (by simp)
    (Nat.le_trans (Nat.add_le_add_left (by decide) _) h.room)

theorem straight_staged (what : Staged) : Straight t (Layout.staged root what) :=
  straight_of_names [metaName, "index", stagedName what] h.free
    (by cases what <;> decide) (by simp)
    (Nat.le_trans (Nat.add_le_add_left (by cases what <;> decide) _) h.room)

end Housed

namespace Clear

variable {root : Path} {t : FileTree} (h : Clear root t)

include h

theorem straight_objectDir (kind : Kind) (id : ObjectId) :
    Straight t ((Layout.store root kind).child id.directory) := by
  refine straight_of_names [metaName, storeName kind, id.directory] h.free ?_ (by simp) ?_
  · simp [validName_metaName, validName_storeName, id.validName_directory]
  · refine Nat.le_trans (Nat.add_le_add_left ?_ _) h.room
    simp only [Route.bytesOf, FileName.size_text, id.utf8ByteSize_directory]
    cases kind <;> decide

theorem straight_object (kind : Kind) (id : ObjectId) :
    Straight t (Layout.object root kind id) := by
  refine straight_of_names
    [metaName, storeName kind, id.directory, id.fileName] h.free ?_ (by simp) ?_
  · simp [validName_metaName, validName_storeName, id.validName_directory, id.validName_fileName]
  · refine Nat.le_trans (Nat.add_le_add_left ?_ _) h.room
    simp only [Route.bytesOf, FileName.size_text, id.utf8ByteSize_directory,
      id.utf8ByteSize_fileName]
    cases kind <;> decide

end Clear

/-- The repository's own directory is there, and no link stands in it.  What lies outside may be as
it likes. -/
structure Sealed (root : Path) (t : FileTree) : Prop where
  dir : t.at? (metaPath root) = some .dir
  free : t.LinkFree (metaPath root)

theorem Housed.sealed {root : Path} {t : FileTree} (h : Housed root t) : Sealed root t :=
  ⟨h.at?_meta, h.free.below (List.suffix_cons _ _)⟩

namespace Sealed

variable {root : Path} {t t' : FileTree} {segments : List FileName} (h : Sealed root t)

include h

theorem of_touches {areas : List Area} (touch : Touches root areas t t') : Sealed root t' where
  dir := by rw [touch.at?_skeleton (by simp [skeleton]), h.dir]
  free := fun p target below hat => h.free p target below (touch.noLink p target hat)

/-- A route into the repository's directory is straight from that directory on. -/
theorem straight (ends : ∃ front last, segments = front ++ [last] ∧ Route.goes last = true)
    (level : (".." : FileName) ∉ segments) (tell : (Route.mk root (metaName :: segments)).CanTell) :
    Straight t ⟨metaPath root, segments⟩ :=
  ⟨h.free, level, ends, (canTell_enter validName_metaName).mp tell⟩

theorem lookup?_eq (ends : ∃ front last, segments = front ++ [last] ∧ Route.goes last = true)
    (level : (".." : FileName) ∉ segments) (tell : (Route.mk root (metaName :: segments)).CanTell) :
    t.lookup? ⟨root, metaName :: segments⟩ = t.at? (Route.mk root (metaName :: segments)).path := by
  have path : (Route.mk (metaPath root) segments).path =
      (Route.mk root (metaName :: segments)).path :=
    path_enter (by decide)
  rw [← path, ← (h.straight ends level tell).lookup?_eq, lookup?, lookup?, locate_enter h.dir,
    metaPath]

/-- What is found along such a route depends on what stands at its path only. -/
theorem lookup?_congr (h' : Sealed root t')
    (ends : ∃ front last, segments = front ++ [last] ∧ Route.goes last = true)
    (level : (".." : FileName) ∉ segments)
    (same : t'.at? (Route.mk root (metaName :: segments)).path =
      t.at? (Route.mk root (metaName :: segments)).path) :
    t'.lookup? ⟨root, metaName :: segments⟩ = t.lookup? ⟨root, metaName :: segments⟩ := by
  by_cases tell : (Route.mk root (metaName :: segments)).CanTell
  · rw [h'.lookup?_eq ends level tell, h.lookup?_eq ends level tell, same]
  · simp [lookup?, locate_eq_none tell]

theorem list?_eq :
    t.list? ⟨root, metaName :: segments⟩ = t.list? ⟨metaPath root, segments⟩ := by
  rw [list?, list?, locate_enter h.dir, metaPath]

theorem removeFile?_eq (some_ : segments ≠ []) :
    t.removeFile? ⟨root, metaName :: segments⟩ = t.removeFile? ⟨metaPath root, segments⟩ := by
  rw [removeFile?, removeFile?, locateEntry_enter h.dir some_, metaPath]

theorem removeEmptyDir?_eq (some_ : segments ≠ []) :
    t.removeEmptyDir? ⟨root, metaName :: segments⟩ =
      t.removeEmptyDir? ⟨metaPath root, segments⟩ := by
  rw [removeEmptyDir?, removeEmptyDir?, locateEntry_enter h.dir some_, metaPath]

end Sealed

theorem path_metaDir (root : Path) : (metaDir root).path = metaPath root :=
  path_of_names [metaName] (by simp [validName_metaName])

theorem path_head (root : Path) : (Layout.head root).path = headPath root :=
  path_of_names [metaName, "HEAD"] (by decide)

theorem path_branches (root : Path) : (Layout.branches root).path = branchesPath root :=
  path_of_names [metaName, "branches"] (by decide)

theorem path_staged (root : Path) (what : Staged) :
    (Layout.staged root what).path = stagedPath root what :=
  path_of_names [metaName, "index", stagedName what] (by cases what <;> decide)

theorem path_store (root : Path) (kind : Kind) :
    (Layout.store root kind).path = storePath root kind :=
  path_of_names [metaName, storeName kind] (by cases kind <;> decide)

theorem path_objectDir (root : Path) (kind : Kind) (id : ObjectId) :
    ((Layout.store root kind).child id.directory).path =
      .text id.directory :: storePath root kind :=
  path_of_names [metaName, storeName kind, id.directory]
    (by simp [validName_metaName, validName_storeName, id.validName_directory])

theorem path_object (root : Path) (kind : Kind) (id : ObjectId) :
    (Layout.object root kind id).path = objectPath root kind id :=
  path_of_names [metaName, storeName kind, id.directory, id.fileName]
    (by simp [validName_metaName, validName_storeName, id.validName_directory,
      id.validName_fileName])

end LocalVcs
