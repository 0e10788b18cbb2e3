/-
# The directory of the branches as a map

The directory of the branches stands for a finite map from names to tips, as long as no name has
doubled slashes and every file can be told of.  The words of a name are directories, and a directory
stands where a branch lies below it and nowhere else: saving a branch makes what is missing above
its file, removing one prunes what is empty then.  So of two names one of which lies below the other
at most one is stored, and nothing else keeps a branch from being saved.

* `BranchName.Below`: a name that goes on behind another one.
* `Branches.Holds`: the directory holds a map.
* `Branches.Holds.save_run`, `Branches.Holds.remove_run`: what one edit makes of the map.
* `Branches.Holds.get?_eq`, `Branches.Holds.all_run`: what is read is the map.
* `Branches.refines_map`: any number of edits, one after the other.
-/
import LocalVcs.Proofs.Refs

namespace LocalVcs

open FileTree Layout

variable {root : Path} {t t' : FileTree} {name other : BranchName}

/-! ## 1. Names that have files of their own -/

theorem not_mem_of_mem_splitOn {x : Char} {cs piece : List Char} (h : piece ∈ cs.splitOn x) :
    x ∉ piece := by
  by_cases hx : x ∈ cs
  · obtain ⟨before, after, rfl, first⟩ := List.eq_append_cons_of_mem hx
    rw [List.splitOn_append_cons_self_of_not_mem first] at h
    rcases List.mem_cons.mp h with rfl | h
    · exact first
    · exact not_mem_of_mem_splitOn h
  · have whole : cs.splitOn x = [cs] := by
      have apart : ∀ l ∈ [cs], x ∉ l := by simpa using hx
      simpa using List.splitOn_intercalate x apart (by simp)
    obtain rfl := List.mem_singleton.mp (whole ▸ h)
    exact hx
termination_by cs.length
decreasing_by grind

theorem noSlash_of_mem_segmentsOf {text : String} {s : FileName} (h : s ∈ segmentsOf text) :
    '/' ∉ s.chars := by
  obtain ⟨piece, hpiece, rfl⟩ := List.mem_map.mp h
  rw [FileName.chars_text, String.toList_ofList]
  exact not_mem_of_mem_splitOn hpiece

theorem segmentsOf_append (a b : String) :
    segmentsOf (a ++ "/" ++ b) = segmentsOf a ++ segmentsOf b := by
  have mark : "/".toList = ['/'] := rfl
  simp only [segmentsOf, String.toList_append, mark, List.append_assoc, List.singleton_append,
    List.splitOn_append_cons_self, List.map_append]

namespace BranchName

instance : Std.TransOrd BranchName := inferInstanceAs (Std.TransCmp (compareOn BranchName.text))

instance : Std.LawfulEqOrd BranchName where
  eq_of_compare h := BranchName.ext (Std.LawfulEqOrd.eq_of_compare h)

/-- The name goes on behind a slash after the other one. -/
def Below (name other : BranchName) : Prop := ∃ rest, name.text = other.text ++ "/" ++ rest

/-- No segment of a name holds a NUL. -/
theorem noNul_of_mem (name : BranchName) {s : FileName} (h : s ∈ segmentsOf name.text) :
    '\x00' ∉ s.chars := by
  intro hnul
  have hmem : s.chars ∈ (segmentsOf name.text).map FileName.chars := List.mem_map_of_mem h
  have inside : '\x00' ∈ name.text.toList := by
    have begins := prefix_or_infix_of_mem (x := '/') hmem
    rw [← toList_eq_intercalate_segmentsOf] at begins
    rcases begins with hprefix | hinfix
    · exact hprefix.subset hnul
    · exact hinfix.subset (List.mem_cons_of_mem _ hnul)
  have free := name.valid.2.2.2.2.2.2.2.2
  exact List.any_eq_false.mp free _ inside (by decide)

end BranchName

namespace Branches

/-- A name can have a file: none of its words is empty or too long for an entry, and neither is the
whole path. -/
structure Fits (root : Path) (name : BranchName) : Prop where
  words : ∀ word ∈ segmentsOf name.text, word ≠ "" ∧ word.size ≤ longestName
  room : Route.bytesOf (branchPath root name) ≤ Route.longest

namespace Fits

variable (fits : Fits root name)

include fits

theorem valid {word : FileName} (h : word ∈ segmentsOf name.text) : ValidName word :=
  ⟨(fits.words word h).1, (name.segment_ne h).1, (name.segment_ne h).2,
    noSlash_of_mem_segmentsOf h, name.noNul_of_mem h, (fits.words word h).2⟩

theorem branchPath_eq :
    branchPath root name = (segmentsOf name.text).reverse ++ branchesPath root := by
  rw [branchPath, List.filter_eq_self.mpr fun s hs => Route.goes_of_validName (fits.valid hs)]

theorem straight (free : t.LinkFree (branchesPath root)) :
    Straight t ⟨branchesPath root, segmentsOf name.text⟩ := by
  refine straight_of_names _ free (fun n hn => fits.valid hn) name.segments_ne_nil ?_
  have room := fits.room
  rw [fits.branchPath_eq, Route.bytesOf_append, Route.bytesOf_reverse] at room
  omega

theorem path_words :
    (Route.mk (branchesPath root) (segmentsOf name.text)).path = branchPath root name := by
  rw [path_of_names _ fun n hn => fits.valid hn, fits.branchPath_eq]

/-- The words of the directories above a branch's file, and the word of the file itself. -/
theorem exists_words : ∃ front word, segmentsOf name.text = front ++ [word] ∧
    ValidName word ∧ (∀ w ∈ front, ValidName w) ∧
    branchPath root name = word :: (front.reverse ++ branchesPath root) := by
  obtain ⟨front, word, hsegments, -⟩ := name.exists_last
  have valid : ∀ w ∈ front ++ [word], ValidName w := hsegments ▸ fun w hw => fits.valid hw
  refine ⟨front, word, hsegments, valid word (by simp), fun w hw => valid w (by simp [hw]), ?_⟩
  rw [fits.branchPath_eq, hsegments]
  simp

theorem injective (other_ : Fits root other) (same : branchPath root name = branchPath root other) :
    name = other := by
  rw [fits.branchPath_eq, other_.branchPath_eq] at same
  exact BranchName.ext (segmentsOf_injective (by simpa using same))

/-- The file of a name that goes on behind another one lies below the file of that one. -/
theorem below_iff (other_ : Fits root other) : name.Below other ↔
    branchPath root other <:+ branchPath root name ∧
      branchPath root other ≠ branchPath root name := by
  rw [fits.branchPath_eq, other_.branchPath_eq]
  constructor
  · rintro ⟨rest, htext⟩
    rw [htext, segmentsOf_append, List.reverse_append, List.append_assoc]
    refine ⟨List.suffix_append _ _, fun same => ?_⟩
    have longer := congrArg List.length same
    have some_ : (segmentsOf rest).length ≠ 0 := by simp [segmentsOf]
    simp only [List.length_append, List.length_reverse] at longer
    omega
  · rintro ⟨below, differs⟩
    obtain ⟨rest, hrest⟩ := List.reverse_suffix.mp (Area.suffix_of_append_suffix below)
    have some_ : rest ≠ [] := by
      rintro rfl
      exact differs (by rw [← hrest]; simp)
    have inside : ∀ w ∈ rest, w ∈ segmentsOf name.text := fun w hw => by rw [← hrest]; simp [hw]
    refine ⟨"/".intercalate (rest.map FileName.shown), segmentsOf_injective ?_⟩
    rw [segmentsOf_append, segmentsOf_intercalate
      (fun w hw => exists_text_of_mem_segmentsOf (inside w hw))
      (fun w hw => noSlash_of_mem_segmentsOf (inside w hw)) some_, hrest]

end Fits

/-! ## 2. Routes from the directory of the branches on -/

section Routes

variable (top : t.at? (branchesPath root) = some .dir)

include top

theorem locate_enter_branches (segments : List FileName) :
    t.locate ⟨root, [FileName.text metaName, "branches"] ++ segments⟩ =
      t.locate ⟨branchesPath root, segments⟩ :=
  (locate_enter (at?_of_cons top).2).trans (locate_enter top)

theorem locateEntry_enter_branches {segments : List FileName} (some_ : segments ≠ []) :
    t.locateEntry ⟨root, [FileName.text metaName, "branches"] ++ segments⟩ =
      t.locateEntry ⟨branchesPath root, segments⟩ :=
  (locateEntry_enter (at?_of_cons top).2 (by simp)).trans (locateEntry_enter top some_)

theorem makeDirs_enter_branches (segments : List FileName) :
    t.makeDirs ⟨root, [FileName.text metaName, "branches"] ++ segments⟩ =
      t.makeDirs ⟨branchesPath root, segments⟩ :=
  (makeDirs_enter (at?_of_cons top).2).trans (makeDirs_enter top)

theorem lookup?_route_of_fits (free : t.LinkFree (branchesPath root)) (fits : Fits root name) :
    t.lookup? (route root name) = t.at? (branchPath root name) := by
  rw [route_eq, lookup?, locate_enter_branches top, ← lookup?, (fits.straight free).lookup?_eq,
    fits.path_words]

end Routes

/-- The route to the directory of a branch's file. -/
theorem parent_of_fits (fits : Fits root name) : (route root name).parent =
    ⟨root, [FileName.text metaName, "branches"] ++ (segmentsOf name.text).dropLast⟩ := by
  obtain ⟨front, last, hsegments, -⟩ := name.exists_last
  have front_ : ∀ s ∈ [FileName.text metaName, "branches"], Route.goes s = true := by decide
  have goes : ∀ s ∈ last :: ([FileName.text metaName, "branches"] ++ front).reverse,
      Route.goes s = true := by
    intro s hs
    by_cases hfront : s ∈ [FileName.text metaName, "branches"]
    · exact front_ s hfront
    · refine Route.goes_of_validName (fits.valid ?_)
      rw [hsegments]
      grind
  have stay : ∀ l : List FileName, (∀ s ∈ l, Route.goes s = true) →
      l.dropWhile (fun s => !Route.goes s) = l := by
    intro l hl
    cases l with
    | nil => rfl
    | cons s l => simp [hl s (by simp)]
  have behind : ([FileName.text metaName, "branches"] ++ (front ++ [last])).reverse =
      last :: ([FileName.text metaName, "branches"] ++ front).reverse := by simp
  rw [route_eq, hsegments, Route.parent, behind, stay _ goes, List.tail_cons,
    stay _ fun s hs => goes s (List.mem_cons_of_mem _ hs), List.reverse_reverse,
    List.dropLast_concat]

/-- The branches are listed in the order of the names that are. -/
theorem map_name_of_all {bs : List Branch} (hall : all root t = .ok bs) :
    bs.map Branch.name = names root t := by
  have same := forall₂_of_mapM hall
  clear hall
  generalize names root t = listed at same
  induction same with
  | nil => rfl
  | @cons name b _ _ hget _ ih =>
    rw [List.map_cons, ih]
    congr 1
    cases hfound : get? root t name with
    | error fault => rw [hfound] at hget; cases hget
    | ok found =>
      rw [hfound] at hget
      cases found with
      | none => cases hget
      | some branch =>
        obtain rfl : branch = b := Except.ok.inj hget
        exact (get?_eq_some_iff.mp hfound).1

/-! ## 3. A directory that holds a map -/

/-- A map from names to tips. -/
abbrev Map := Std.ExtTreeMap BranchName ObjectId

theorem Map.mem_iff {m : Map} : name ∈ m ↔ ∃ tip, m[name]? = some tip := by
  rw [Std.ExtTreeMap.mem_iff_isSome_getElem?, Option.isSome_iff_exists]

/-- One of the names that are mapped stands in the way of a name: it lies above or below it. -/
def Blocked (m : Map) (name : BranchName) : Prop :=
  ∃ other ∈ m, name.Below other ∨ other.Below name

/-- The directory of the branches holds a map: the files in it are those of the names that are
mapped, and the directories are those above these files; on the way to one more path, more of them
may stand. -/
structure Holds (root : Path) (m : Map) (way : Path) (t : FileTree) : Prop where
  fits : ∀ {name}, name ∈ m → Fits root name
  top : t.at? (branchesPath root) = some .dir
  stored : ∀ {name tip}, m[name]? = some tip →
    t.at? (branchPath root name) = some (.file (.plain (Bytes.ofText tip.text)))
  entries : ∀ {p e}, branchesPath root <:+ p → t.at? p = some e →
    (∃ name ∈ m, p = branchPath root name) ∨
      e = .dir ∧ (p <:+ way ∨ ∃ name ∈ m, p <:+ branchPath root name)

namespace Holds

variable {m : Map} {way : Path}

/-- A file tells the name and the tip that it is the branch of. -/
theorem of_file (h : Holds root m way t) {p : Path} {content : Content}
    (below : branchesPath root <:+ p) (hat : t.at? p = some (.file content)) :
    ∃ name tip, m[name]? = some tip ∧ p = branchPath root name ∧
      content = .plain (Bytes.ofText tip.text) := by
  obtain ⟨name, hname, rfl⟩ | ⟨hdir, -⟩ := h.entries below hat
  · obtain ⟨tip, htip⟩ := Map.mem_iff.mp hname
    exact ⟨name, tip, htip, rfl, by simpa using hat.symm.trans (h.stored htip)⟩
  · cases hdir

theorem textsTo (h : Holds root m way t) (p : Path) (content : Content)
    (below : branchesPath root <:+ p) (hat : t.at? p = some (.file content)) :
    TextsTo (branchesPath root) p := by
  obtain ⟨name, -, -, rfl, -⟩ := h.of_file below hat
  exact textsTo_branchPath root name

theorem at?_of_mem (h : Holds root m way t) (hname : name ∈ m) :
    ∃ content, t.at? (branchPath root name) = some (.file content) := by
  obtain ⟨tip, htip⟩ := Map.mem_iff.mp hname
  exact ⟨_, h.stored htip⟩

theorem not_file_of_not_mem (h : Holds root m way t) (fits : Fits root name) (none_ : name ∉ m)
    (content : Content) : t.at? (branchPath root name) ≠ some (.file content) := by
  intro hat
  obtain ⟨other, tip, htip, hpath, -⟩ := h.of_file (below_branchPath root name) hat
  have hmem : other ∈ m := Map.mem_iff.mpr ⟨tip, htip⟩
  exact none_ (fits.injective (h.fits hmem) hpath ▸ hmem)

theorem free (h : Holds root m way t) : t.LinkFree (branchesPath root) := by
  intro p target below hat
  obtain ⟨name, hname, rfl⟩ | ⟨hdir, -⟩ := h.entries below hat
  · obtain ⟨content, hfile⟩ := h.at?_of_mem hname
    simp [hfile] at hat
  · cases hdir

/-! ### Reading -/

theorem lookup?_eq (h : Holds root m way t) (fits : Fits root name) :
    t.lookup? (route root name) = t.at? (branchPath root name) :=
  lookup?_route_of_fits h.top h.free fits

theorem contains_eq (h : Holds root m way t) (fits : Fits root name) :
    contains root t name = m.contains name := by
  rw [Bool.eq_iff_iff, Std.ExtTreeMap.contains_iff_mem, contains, isFile, h.lookup?_eq fits]
  constructor
  · intro hfile
    split at hfile
    · rename_i content hat
      exact Decidable.not_not.mp fun none_ => h.not_file_of_not_mem fits none_ content hat
    · cases hfile
  · intro hmem
    obtain ⟨content, hat⟩ := h.at?_of_mem hmem
    rw [hat]

theorem get?_eq (h : Holds root m way t) (fits : Fits root name) :
    get? root t name = .ok (m[name]?.map (Branch.mk name)) := by
  have hcontains := h.contains_eq fits
  rw [contains] at hcontains
  rw [get?, hcontains]
  cases htip : m[name]? with
  | none =>
    have none_ : m.contains name = false := by
      rw [Std.ExtTreeMap.contains_eq_isSome_getElem?, htip]; rfl
    rw [none_]
    rfl
  | some tip =>
    have hmem : m.contains name = true := by
      rw [Std.ExtTreeMap.contains_eq_isSome_getElem?, htip]; rfl
    have straight := fits.straight h.free
    have htext : t.text? (route root name) = some tip.text := by
      rw [← text?_eq straight (by rw [fits.path_words]; exact h.stored htip)]
      refine text?_congr ?_
      rw [h.lookup?_eq fits, straight.lookup?_eq, fits.path_words]
    rw [hmem, if_pos rfl, htext]
    simp only [ObjectId.trimmed_text, ObjectId.ofText?_text]
    rfl

/-- The way to the directory of the branches leads to it where it can be told, and it can be where
there is a branch. -/
theorem locate_branches (h : Holds root m way t) :
    t.locate (Layout.branches root) = some (branchesPath root) ∨
      (∀ name, name ∉ m) ∧ t.locate (Layout.branches root) = none := by
  have enter : t.locate (Layout.branches root) = t.locate ⟨branchesPath root, []⟩ :=
    locate_enter_branches h.top []
  rw [enter]
  by_cases tell : (Route.mk (branchesPath root) []).CanTell
  · exact Or.inl (locate_of_dir tell (by simp) h.top)
  · refine Or.inr ⟨fun name hname => tell ?_, locate_eq_none tell⟩
    exact ((h.fits hname).straight h.free).tell.of_sublist (List.nil_sublist _)

/-- The names that are listed are those that are mapped. -/
theorem mem_names_iff (h : Holds root m way t) {name : BranchName} :
    name ∈ names root t ↔ name ∈ m := by
  rcases h.locate_branches with hlocate | ⟨none_, hlocate⟩
  · rw [mem_names_of_locate hlocate h.top h.textsTo]
    constructor
    · rintro ⟨content, hat⟩
      have spelled := branchPath_of_spelled hat
      rw [← spelled] at hat
      obtain ⟨name', tip, htip, hpath, -⟩ := h.of_file (below_branchPath root name) hat
      have hmem : name' ∈ m := Map.mem_iff.mpr ⟨tip, htip⟩
      rw [spelled, (h.fits hmem).branchPath_eq] at hpath
      exact BranchName.ext (segmentsOf_injective (by simpa using hpath)) ▸ hmem
    · intro hmem
      rw [← (h.fits hmem).branchPath_eq]
      exact h.at?_of_mem hmem
  · simp [names, hlocate, none_]

/-- The names are listed in ascending order, each once. -/
theorem pairwise_names (h : Holds root m way t) :
    (names root t).Pairwise fun a b => compare a b = .lt := by
  rcases h.locate_branches with hlocate | ⟨-, hlocate⟩
  · unfold names
    rw [hlocate]
    dsimp only
    -- different words spell different names
    have distinct : ((t.filesBelow (branchesPath root)).filterMap fun words =>
        BranchName.ofText? ("/".intercalate (words.map FileName.shown))).Pairwise (· ≠ ·) := by
      refine List.Pairwise.filterMap _ ?_
        (List.Pairwise.and_mem.mp (nodup_filesBelow t (branchesPath root)))
      rintro words words' ⟨hwords, hwords', differs⟩ a ha b hb rfl
      refine differs ?_
      rw [← segmentsOf_of_mem_filesBelow h.top h.textsTo hwords,
        ← segmentsOf_of_mem_filesBelow h.top h.textsTo hwords', ← ofText?_eq_some ha,
          ofText?_eq_some hb]
    exact pairwise_lt_mergeSort distinct
  · simp [names, hlocate]

/-- **All branches are listed, in ascending order and each once.** -/
theorem all_run (h : Holds root m way t) : ∃ bs, all root t = .ok bs ∧
    bs.Pairwise (fun a b => compare a.name b.name = .lt) ∧
    ∀ b, b ∈ bs ↔ m[b.name]? = some b.tip := by
  have hget : ∀ {name}, name ∈ m → ∃ tip, m[name]? = some tip ∧
      get? root t name = .ok (some ⟨name, tip⟩) := by
    intro name hname
    obtain ⟨tip, htip⟩ := Map.mem_iff.mp hname
    exact ⟨tip, htip, by rw [h.get?_eq (h.fits hname), htip]; rfl⟩
  obtain ⟨bs, hall⟩ : ∃ bs, all root t = .ok bs := by
    refine mapM_succeeds fun name hname => ?_
    obtain ⟨tip, -, hget⟩ := hget (h.mem_names_iff.mp hname)
    exact ⟨_, by rw [hget]; rfl⟩
  refine ⟨bs, hall, ?_, fun b => ?_⟩
  · have ascending := h.pairwise_names
    rw [← map_name_of_all hall] at ascending
    exact List.pairwise_map.mp ascending
  · rw [mem_all_iff hall, h.mem_names_iff]
    constructor
    · rintro ⟨hname, hb⟩
      obtain ⟨tip, htip, hget⟩ := hget hname
      rw [hget] at hb
      rw [htip, ← congrArg Branch.tip (Option.some.inj (Except.ok.inj hb))]
    · intro htip
      have hname : b.name ∈ m := Map.mem_iff.mpr ⟨_, htip⟩
      exact ⟨hname, by rw [h.get?_eq (h.fits hname), htip]; rfl⟩

/-! ### Saving -/

/-- **A branch below another one, or above it, is not saved**, and nothing changes. -/
theorem save_refused (h : Holds root m way t) {branch : Branch} (fits : Fits root branch.name)
    (blocked : Blocked m branch.name) (printed : String) :
    ∃ fault, save root branch ⟨t, printed⟩ = (.error fault, ⟨t, printed⟩) := by
  obtain ⟨front, word, hsegments, valid, validFront, hpath⟩ := fits.exists_words
  have parent := parent_of_fits fits
  rw [hsegments, List.dropLast_concat] at parent
  have made := makeDirs_enter_branches h.top front
  rw [← parent] at made
  have level : (".." : FileName) ∉ front := level_of_names validFront
  have tell : (Route.mk (branchesPath root) front).CanTell :=
    (fits.straight h.free).tell.of_sublist (by rw [hsegments]; simp)
  have hfront : (Route.mk (branchesPath root) front).path = front.reverse ++ branchesPath root :=
    path_of_names front validFront
  rw [save, write]
  obtain ⟨other, hother, below | below⟩ := blocked
  · -- a file stands where a directory is missing
    obtain ⟨above, differs⟩ := (fits.below_iff (h.fits hother)).mp below
    obtain ⟨content, hat⟩ := h.at?_of_mem hother
    have stop := makeDirs_of_file h.free level tell hat (below_branchPath root other)
      (fun same => by simp [same, h.top] at hat)
      (by
        rw [hfront]
        rw [hpath] at above differs
        exact (List.suffix_cons_iff.mp above).resolve_left differs)
    exact ⟨_, Action.bind_run_error (Action.makeDirs_run_error (made.trans stop))⟩
  · -- a directory stands where the file is to be written
    obtain ⟨above, differs⟩ := ((h.fits hother).below_iff fits).mp below
    obtain ⟨content, hat⟩ := h.at?_of_mem hother
    have dir := at?_eq_dir_of_suffix hat above differs
    have stay := makeDirs_of_dir h.free level tell
      (by rw [hfront]; rw [hpath] at dir; exact (at?_of_cons dir).2)
    rw [Action.bind_run_ok (Action.makeDirs_run_ok (made.trans stay))]
    refine ⟨_, Action.edit_run_none ?_⟩
    rw [route_eq, write?, locate_enter_branches h.top, ← write?, (fits.straight h.free).write?_eq,
      fits.path_words, place?, dif_neg]
    rw [hpath] at dir ⊢
    exact fun can => can.2.2 dir

/-- No entry but a directory is on the way to a name that no other one blocks. -/
theorem dir_of_not_blocked (h : Holds root m way t) (fits : Fits root name)
    (clear : ¬Blocked m name)
    {p : Path} {e : Entry} (below : branchesPath root <:+ p) (above : p <:+ branchPath root name)
    (differs : p ≠ branchPath root name) (hat : t.at? p = some e) : e = .dir := by
  obtain ⟨other, hother, rfl⟩ | ⟨hdir, -⟩ := h.entries below hat
  · exact absurd ⟨other, hother, Or.inl ((fits.below_iff (h.fits hother)).mpr ⟨above, differs⟩)⟩
      clear
  · exact hdir

/-- Where no name blocks it, no directory stands at a branch's own path. -/
theorem not_dir_of_not_blocked (h : Holds root m (branchesPath root) t) (fits : Fits root name)
    (clear : ¬Blocked m name) : t.at? (branchPath root name) ≠ some .dir := by
  intro hat
  obtain ⟨word, above, hpath, hbelow⟩ := branchPath_below root name
  obtain ⟨other, hother, hpath'⟩ | ⟨-, short | ⟨other, hother, inside⟩⟩ :=
    h.entries (below_branchPath root name) hat
  · obtain ⟨content, hfile⟩ := h.at?_of_mem hother
    simp [← hpath', hat] at hfile
  · have := short.length_le
    have := hbelow.length_le
    simp only [hpath, List.length_cons] at *
    omega
  · refine clear ⟨other, hother,
      Or.inr (((h.fits hother).below_iff fits).mpr ⟨inside, fun same => ?_⟩)⟩
    obtain ⟨content, hfile⟩ := h.at?_of_mem hother
    simp [← same, hat] at hfile

/-- The directories above the file of a name that nothing blocks are made. -/
theorem makeDirs_run (h : Holds root m way t) (fits : Fits root name) (clear : ¬Blocked m name)
    {word : FileName} {dir : Path} (hpath : branchPath root name = word :: dir) :
    ∃ t', t.makeDirs (route root name).parent = (true, t') ∧
      MadeDirs (branchesPath root) dir t t' ∧ t'.at? dir = some .dir := by
  obtain ⟨front, word', hsegments, -, valid, hpath'⟩ := fits.exists_words
  obtain ⟨rfl, rfl⟩ := List.cons.inj (hpath'.symm.trans hpath)
  have hfront : (Route.mk (branchesPath root) front).path = front.reverse ++ branchesPath root :=
    path_of_names front valid
  have tell : (Route.mk (branchesPath root) front).CanTell :=
    (fits.straight h.free).tell.of_sublist (by rw [hsegments]; simp)
  have room : ∀ p, branchesPath root <:+ p → p <:+ (Route.mk (branchesPath root) front).path →
      t.at? p = none ∨ t.at? p = some .dir := by
    intro p below above
    rw [hfront] at above
    cases hat : t.at? p with
    | none => exact Or.inl rfl
    | some e =>
      refine Or.inr (congrArg some (h.dir_of_not_blocked fits clear below ?_ ?_ hat))
      · rw [hpath]; exact above.trans (List.suffix_cons _ _)
      · rintro rfl
        exact absurd above.length_le (by rw [hpath]; simp)
  have level := level_of_names valid
  obtain ⟨done, standing⟩ := makeDirs_succeeds (r := ⟨branchesPath root, front⟩) h.free level tell
    h.top (fun name hname => valid name (List.mem_of_mem_filter hname)) room
  have made := makeDirs_spec (r := ⟨branchesPath root, front⟩) h.free level
  rw [hfront] at standing made
  refine ⟨_, ?_, made, standing⟩
  rw [parent_of_fits fits, hsegments, List.dropLast_concat, makeDirs_enter_branches h.top, ← done]

/-- With the directories above it made and the file of a branch written, its tip is mapped as
well. -/
theorem insert (h : Holds root m (branchesPath root) t) (fits : Fits root name) {tip : ObjectId}
    {word : FileName} {dir : Path} (hpath : branchPath root name = word :: dir) {t₁ : FileTree}
    (made : MadeDirs (branchesPath root) dir t t₁)
    (placed : ∀ p, t'.at? p = if p = branchPath root name then
      some (.file (.plain (Bytes.ofText tip.text))) else t₁.at? p) :
    Holds root (m.insert name tip) (branchesPath root) t' where
  fits := by
    intro other hmem
    rcases Std.ExtTreeMap.mem_insert.mp hmem with same | hmem
    · exact Std.LawfulEqOrd.eq_of_compare same ▸ fits
    · exact h.fits hmem
  top := by
    obtain ⟨word', above, hbelow, below⟩ := branchPath_below root name
    rw [placed, if_neg (fun same => absurd below.length_le (by simp [same, hbelow]))]
    exact made.at?_of_some h.top
  stored := by
    intro other tip' hother
    simp only [Std.ExtTreeMap.getElem?_insert, Std.LawfulEqCmp.compare_eq_iff_eq] at hother
    rw [placed]
    split at hother
    · rename_i same
      rw [same, if_pos rfl, Option.some.inj hother]
    · rename_i differs
      have hmem : other ∈ m := Map.mem_iff.mpr ⟨tip', hother⟩
      rw [if_neg fun same => differs (fits.injective (h.fits hmem) same.symm)]
      exact made.at?_of_some (h.stored hother)
  entries := by
    intro p e below hat
    rw [placed] at hat
    have grown : ∀ other ∈ m, other ∈ m.insert name tip := fun other hmem =>
      Std.ExtTreeMap.mem_insert.mpr (Or.inr hmem)
    split at hat
    · exact Or.inl ⟨name, Std.ExtTreeMap.mem_insert_self, by assumption⟩
    · rcases made p with same | ⟨-, hnew, -, -, above⟩
      · rw [same] at hat
        rcases h.entries below hat with ⟨other, hmem, hp⟩ | ⟨hdir, short | ⟨other, hmem, above⟩⟩
        · exact Or.inl ⟨other, grown other hmem, hp⟩
        · exact Or.inr ⟨hdir, Or.inl short⟩
        · exact Or.inr ⟨hdir, Or.inr ⟨other, grown other hmem, above⟩⟩
      · refine Or.inr ⟨by simpa [hnew] using hat.symm,
          Or.inr ⟨name, Std.ExtTreeMap.mem_insert_self, ?_⟩⟩
        rw [hpath]
        exact above.trans (List.suffix_cons _ _)

/-- The directories that are made on the way to a branch are among those of the branches. -/
theorem touches_of_made {dir : Path} {t₁ : FileTree} (h : Holds root m way t)
    (below : branchesPath root <:+ dir) (made : MadeDirs (branchesPath root) dir t t₁) :
    Touches root [.branches] t t₁ := by
  refine Touches.of_madeDirs made (fun p hp hnone => ?_) (List.mem_singleton_self Area.branches)
  rcases List.suffix_or_suffix_of_suffix hp below with short | long
  · have := mem_listings.mp (mem_listings_of_suffix (mem_listings.mpr h.top) short)
    simp [this] at hnone
  · refine Area.holds_of_below (a := .branches) long ?_ (by simp)
    rintro rfl
    exact absurd h.top (by simp [show t.at? (branchesPath root) = none from hnone])

/-- **A branch that nothing blocks is saved**, and the directory holds the map with its tip. -/
theorem save_run (h : Holds root m (branchesPath root) t) {branch : Branch}
    (fits : Fits root branch.name) (clear : ¬Blocked m branch.name) (printed : String) :
    ∃ t', save root branch ⟨t, printed⟩ = (.ok (), ⟨t', printed⟩) ∧
      Holds root (m.insert branch.name branch.tip) (branchesPath root) t' ∧
      Touches root [.branches] t t' := by
  obtain ⟨front, word, hsegments, valid, -, hpath⟩ := fits.exists_words
  generalize hdir : front.reverse ++ branchesPath root = dir at hpath
  have below : branchesPath root <:+ dir := hdir ▸ List.suffix_append _ _
  have noDir := h.not_dir_of_not_blocked fits clear
  -- first the directories above the file are made
  obtain ⟨t₁, hmake, made, standing⟩ := h.makeDirs_run fits clear hpath
  have free₁ := made.linkFree h.free
  have top₁ : t₁.at? (branchesPath root) = some .dir := made.at?_of_some h.top
  have touch₁ := h.touches_of_made below made
  -- then the file is written, which is not among them
  have can : t₁.CanPlace (branchPath root branch.name) := by
    have same : t₁.at? (branchPath root branch.name) = t.at? (branchPath root branch.name) :=
      (made _).resolve_right fun new => absurd new.2.2.2.2.length_le (by rw [hpath]; simp)
    rw [← same] at noDir
    rw [hpath] at noDir ⊢
    exact ⟨valid, standing, noDir⟩
  have hwrite : t₁.write? (route root branch.name) (.plain (Bytes.ofText branch.tip.text)) =
      some (t₁.place _ (.file (.plain (Bytes.ofText branch.tip.text))) can) := by
    rw [route_eq, write?, locate_enter_branches top₁, ← write?, (fits.straight free₁).write?_eq]
    simp only [fits.path_words]
    exact dif_pos can
  have touch₂ : Touches root [.branches] t₁
      (t₁.place _ (.file (.plain (Bytes.ofText branch.tip.text))) can) :=
    Touches.of_place? (dif_pos can) (holds_branchPath root branch.name) (by simp) (by simp)
  refine ⟨_, ?_, h.insert fits hpath made (at?_place can), touch₁.trans touch₂⟩
  rw [save, write, Action.bind_run_ok (Action.makeDirs_run_ok hmake)]
  exact Action.edit_run_some hwrite

/-! ### Removing -/

/-- What stands above a mapped name's file is on the way to it, so no more directories are left to
account for. -/
theorem to_top (h : Holds root m way t) (hname : name ∈ m) (above : way <:+ branchPath root name) :
    Holds root m (branchesPath root) t where
  fits := h.fits
  top := h.top
  stored := h.stored
  entries := by
    intro p e below hat
    refine (h.entries below hat).imp id ?_
    rintro ⟨hdir, inside | mapped⟩
    · exact ⟨hdir, Or.inr ⟨name, hname, inside.trans above⟩⟩
    · exact ⟨hdir, Or.inr mapped⟩

/-- An entry in a directory on the way lies above a file of a mapped name, as the way ends there. -/
theorem mapped_of_child (h : Holds root m way t) (below : branchesPath root <:+ way)
    {child : FileName}
    {e : Entry} (hat : t.at? (child :: way) = some e) :
    ∃ name ∈ m, way <:+ branchPath root name := by
  obtain ⟨name, hname, hpath⟩ | ⟨-, long | ⟨name, hname, inside⟩⟩ :=
    h.entries (below.trans (List.suffix_cons _ _)) hat
  · exact ⟨name, hname, by rw [← hpath]; exact List.suffix_cons _ _⟩
  · exact absurd long.length_le (by simp)
  · exact ⟨name, hname, (List.suffix_cons _ _).trans inside⟩

/-- An empty directory at the end of the way is removed, and the way is shorter then. -/
theorem cut_dir {segment : FileName} {dir : Path} (h : Holds root m (segment :: dir) t)
    (below : branchesPath root <:+ dir) (standing : t.at? (segment :: dir) = some .dir)
    (empty : t.children (segment :: dir) = []) : Holds root m dir (t.cut (segment :: dir)) := by
  have cutAt := at?_cut_of_empty (List.cons_ne_nil segment dir) empty
  refine ⟨h.fits, ?_, ?_, ?_⟩
  · rw [cutAt, if_neg fun same => absurd below.length_le (by simp [same])]
    exact h.top
  · intro name tip htip
    have hfile := h.stored htip
    rw [cutAt, if_neg fun hp => ?_, hfile]
    simp [hp, standing] at hfile
  · intro p e hbelow hat
    rw [cutAt] at hat
    split at hat
    · cases hat
    · rename_i differs
      refine (h.entries hbelow hat).imp id ?_
      rintro ⟨hdir, long | mapped⟩
      · exact ⟨hdir, Or.inl ((List.suffix_cons_iff.mp long).resolve_left differs)⟩
      · exact ⟨hdir, Or.inr mapped⟩

/-- A directory below the one of the branches is listed, and it is removed when it is empty. -/
theorem list_remove_dir (h : Holds root m way t) {words : List FileName} (some_ : words ≠ [])
    (standing : t.at? (words ++ branchesPath root) = some .dir)
    (tell : (Route.mk (branchesPath root) words.reverse).CanTell) :
    t.list? ⟨root, (Layout.branches root).segments ++ words.reverse⟩ =
        some (t.children (words ++ branchesPath root)) ∧
      (t.children (words ++ branchesPath root) = [] →
        t.removeEmptyDir? ⟨root, (Layout.branches root).segments ++ words.reverse⟩ =
          some (t.cut (words ++ branchesPath root))) := by
  have valid : ∀ w ∈ words.reverse, ValidName w := by
    intro w hw
    obtain ⟨before, after, hsplit⟩ := List.append_of_mem (List.mem_reverse.mp hw)
    rw [hsplit, List.append_assoc] at standing
    exact validName_of_at? standing
  have hpath : (Route.mk (branchesPath root) words.reverse).path = words ++ branchesPath root := by
    rw [path_of_names _ valid, List.reverse_reverse]
  constructor
  · rw [← hpath, ← FileTree.list?_eq tell (level_of_names valid) (by rw [hpath]; exact standing)]
    exact congrArg (Option.bind · _) (locate_enter_branches h.top _)
  · intro empty
    have straight := straight_of_names (t := t) _ h.free valid (by simpa using some_) tell.1
    rw [← hpath, ← straight.removeEmptyDir?_of_empty (by rw [hpath]; exact standing)
      (by rw [hpath]; exact empty)]
    exact congrArg (Option.bind · _) (locateEntry_enter_branches h.top (by simpa using some_))

/-- **Pruning leaves the directories of the map**, and removes others that are empty. -/
theorem prune_run {words : List FileName} (h : Holds root m (words ++ branchesPath root) t)
    (standing : t.at? (words ++ branchesPath root) = some .dir)
    (tell : (Route.mk (branchesPath root) words.reverse).CanTell) (printed : String) :
    ∃ t', prune root words ⟨t, printed⟩ = (.ok (), ⟨t', printed⟩) ∧
      Holds root m (branchesPath root) t' ∧ Touches root [.branches] t t' ∧ OnlyDirsGone t t' := by
  induction words generalizing t with
  | nil => exact ⟨t, rfl, h, Touches.refl root t, OnlyDirsGone.refl t⟩
  | cons segment above ih =>
    obtain ⟨listed, remove⟩ := h.list_remove_dir (List.cons_ne_nil segment above) standing tell
    generalize hdir : above ++ branchesPath root = dir at ih
    rw [List.cons_append, hdir] at h standing listed remove
    have below : branchesPath root <:+ dir := hdir ▸ List.suffix_append _ _
    have goes := Route.goes_of_validName (at?_of_cons standing).1
    by_cases none_ : t.children (segment :: dir) = []
    · rw [none_] at listed
      obtain ⟨touch₁, gone₁⟩ := touches_cut_dir below standing none_
      have standing₁ : (t.cut (segment :: dir)).at? dir = some .dir := by
        rw [at?_cut (List.cons_ne_nil _ _), if_neg fun inside => absurd inside.length_le (by simp)]
        exact (at?_of_cons standing).2
      obtain ⟨t', hrun', holds, touch, gone⟩ := ih (h.cut_dir below standing none_) standing₁
        (tell.of_sublist (by simp))
      exact ⟨t', (prune_empty goes listed (remove none_) printed).trans hrun', holds,
        touch₁.trans touch, gone₁.trans gone⟩
    · -- what stands in it is there for a branch, and so is the directory itself
      obtain ⟨⟨child, e⟩, hchild⟩ := List.exists_mem_of_ne_nil _ none_
      obtain ⟨name, hname, stands⟩ :=
        h.mapped_of_child (below.trans (List.suffix_cons _ _)) (mem_children.mp hchild)
      exact ⟨t, prune_full goes listed none_ printed, h.to_top hname stands, Touches.refl root t,
        OnlyDirsGone.refl t⟩

/-- Without the file of a branch its name is not mapped, and the directories above the file are left
to account for. -/
theorem cut_file (h : Holds root m (branchesPath root) t) {word : FileName} {dir : Path}
    (below : branchesPath root <:+ dir) (hpath : branchPath root name = word :: dir)
    (hname : name ∈ m) : Holds root (m.erase name) dir (t.cut (word :: dir)) := by
  obtain ⟨content, hat⟩ := h.at?_of_mem hname
  rw [hpath] at hat
  have cutAt := at?_cut_of_file hat
  have left : ∀ {other}, other ∈ m → other ≠ name → other ∈ m.erase name := fun hmem differs =>
    Std.ExtTreeMap.mem_erase.mpr
      ⟨fun same => differs (Std.LawfulEqOrd.eq_of_compare same).symm, hmem⟩
  refine ⟨fun hmem => h.fits (Std.ExtTreeMap.mem_of_mem_erase hmem), ?_, ?_, ?_⟩
  · rw [cutAt, if_neg fun same => absurd below.length_le (by simp [same])]
    exact h.top
  · intro other tip hother
    simp only [Std.ExtTreeMap.getElem?_erase, Std.LawfulEqCmp.compare_eq_iff_eq] at hother
    split at hother
    · cases hother
    · rename_i differs
      rw [cutAt, if_neg fun hp => ?_, h.stored hother]
      refine differs ((h.fits hname).injective (h.fits ?_) (hpath.trans hp.symm))
      exact Map.mem_iff.mpr ⟨tip, hother⟩
  · intro p e hbelow hp
    rw [cutAt] at hp
    split at hp
    · cases hp
    · rename_i outside
      rcases h.entries hbelow hp with ⟨other, hmem, rfl⟩ | ⟨hdir, short | ⟨other, hmem, above⟩⟩
      · refine Or.inl ⟨other, left hmem ?_, rfl⟩
        rintro rfl
        exact outside hpath
      · exact Or.inr ⟨hdir, Or.inl (short.trans below)⟩
      · by_cases same : other = name
        · rw [same, hpath] at above
          exact Or.inr ⟨hdir, Or.inl ((List.suffix_cons_iff.mp above).resolve_left outside)⟩
        · exact Or.inr ⟨hdir, Or.inr ⟨other, left hmem same, above⟩⟩

/-- **A branch that is stored is removed**, and the directory holds the map without its name.  Its
file goes, and besides it nothing but directories. -/
theorem remove_run (h : Holds root m (branchesPath root) t) (hname : name ∈ m) (printed : String) :
    ∃ t', remove root name ⟨t, printed⟩ = (.ok (), ⟨t', printed⟩) ∧
      Holds root (m.erase name) (branchesPath root) t' ∧ Touches root [.branches] t t' ∧
      t'.at? (branchPath root name) = none ∧ ∀ p, p ≠ branchPath root name →
        t'.at? p = t.at? p ∨ t.at? p = some .dir ∧ t'.at? p = none := by
  have fits := h.fits hname
  obtain ⟨front, word, hsegments, -, -, hpath⟩ := fits.exists_words
  have straight := fits.straight h.free
  obtain ⟨content, hat⟩ := h.at?_of_mem hname
  have present : Action.read (fun t => .ok (t.exists? (route root name))) ⟨t, printed⟩ =
      (.ok true, ⟨t, printed⟩) :=
    Action.read_run (by rw [FileTree.exists?, h.lookup?_eq fits, hat]; rfl)
  have hremove : t.removeFile? (route root name) = some (t.cut (branchPath root name)) := by
    rw [← fits.path_words, ← straight.removeFile?_of_file (by rw [fits.path_words]; exact hat),
      route_eq]
    exact congrArg (Option.bind · _) (locateEntry_enter_branches h.top name.segments_ne_nil)
  have tail : (segmentsOf name.text).reverse.tail = front.reverse := by simp [hsegments]
  have tell : (Route.mk (branchesPath root) front.reverse.reverse).CanTell :=
    straight.tell.of_sublist (by rw [hsegments]; simp)
  generalize hdir : front.reverse ++ branchesPath root = dir at hpath
  have below : branchesPath root <:+ dir := hdir ▸ List.suffix_append _ _
  rw [remove, Action.bind_run_ok present, if_pos rfl,
    Action.bind_run_ok (Action.edit_run_some hremove), tail]
  rw [hpath] at hat ⊢
  have cutAt := at?_cut_of_file hat
  -- the directory of the file still stands
  have standing : (t.cut (word :: dir)).at? dir = some .dir := by
    rw [cutAt, if_neg (List.cons_ne_self word dir).symm]
    exact (at?_of_cons hat).2
  have holds := h.cut_file below hpath hname
  rw [← hdir] at holds standing
  obtain ⟨t', hprune, holds', touch, gone⟩ := holds.prune_run standing tell printed
  rw [hdir] at hprune gone touch
  refine ⟨t', hprune, holds', (touches_cut below).trans touch, ?_, fun p differs => ?_⟩
  · have none_ : (t.cut (word :: dir)).at? (word :: dir) = none := by
      rw [cutAt, if_pos rfl]
    exact (gone (word :: dir)).elim (·.trans none_) And.right
  · have same : (t.cut (word :: dir)).at? p = t.at? p := by rw [cutAt, if_neg differs]
    rw [← same]
    exact gone p

/-- Where no branch is stored nothing is removed: there is nothing, or a directory. -/
theorem remove_of_not_mem (h : Holds root m (branchesPath root) t) (fits : Fits root name)
    (none_ : name ∉ m) (printed : String) :
    ∃ r, remove root name ⟨t, printed⟩ = (r, ⟨t, printed⟩) := by
  have looked := h.lookup?_eq fits
  have hrun : Action.read (fun t => .ok (t.exists? (route root name))) ⟨t, printed⟩ =
      (.ok (t.at? (branchPath root name)).isSome, ⟨t, printed⟩) :=
    Action.read_run (by rw [FileTree.exists?, looked])
  rw [remove, Action.bind_run_ok hrun]
  cases hat : t.at? (branchPath root name) with
  | none => exact ⟨.ok (), rfl⟩
  | some e =>
    have straight := fits.straight h.free
    have hremove : t.removeFile? (route root name) = none := by
      rw [route_eq, removeFile?,
        locateEntry_enter_branches h.top name.segments_ne_nil,
        straight.locateEntry_of_at (by rw [fits.path_words]; exact hat), fits.path_words,
        Option.bind_some, hat]
      cases e with
      | file content => exact absurd hat (h.not_file_of_not_mem fits none_ content)
      | link target => exact absurd hat (h.free _ target (below_branchPath root name))
      | dir => rfl
    rw [Option.isSome_some, if_pos rfl, Action.bind_run_error (Action.edit_run_none hremove)]
    exact ⟨_, rfl⟩

/-- In a directory that holds a map no directory is empty. -/
theorem children_ne_nil (h : Holds root m (branchesPath root) t) {p : Path}
    (below : branchesPath root <:+ p) (differs : p ≠ branchesPath root)
    (hat : t.at? p = some .dir) :
    t.children p ≠ [] := by
  intro empty
  obtain ⟨name, hname, above⟩ : ∃ name ∈ m, p <:+ branchPath root name := by
    rcases h.entries below hat with ⟨name, hname, rfl⟩ | ⟨-, short | mapped⟩
    · exact ⟨name, hname, List.suffix_rfl⟩
    · exact absurd (below.eq_of_length (Nat.le_antisymm below.length_le short.length_le)).symm
        differs
    · exact mapped
  obtain ⟨content, hfile⟩ := h.at?_of_mem hname
  by_cases same : branchPath root name = p
  · simp [same, hat] at hfile
  · simp [at?_below_empty empty above same] at hfile

/-- An empty directory holds the map without names. -/
theorem of_empty (top : t.at? (branchesPath root) = some .dir)
    (empty : t.children (branchesPath root) = []) : Holds root ∅ (branchesPath root) t where
  fits := fun hname => absurd hname Std.ExtTreeMap.not_mem_empty
  top := top
  stored := fun htip => by simp at htip
  entries := by
    intro p e below hat
    by_cases same : p = branchesPath root
    · refine Or.inr ⟨?_, Or.inl (same ▸ List.suffix_rfl)⟩
      exact Option.some.inj (hat.symm.trans (same ▸ top))
    · simp [at?_below_empty empty below same] at hat

end Holds

/-! ## 4. Any number of edits -/

/-- An edit of the branches. -/
inductive Edit
  | save (branch : Branch)
  | remove (name : BranchName)

namespace Edit

/-- The name of the branch that is edited. -/
def edited : Edit → BranchName
  | save branch => branch.name
  | remove name => name

/-- What the edit does. -/
def act (root : Path) : Edit → Action Unit
  | save branch => Branches.save root branch
  | remove name => Branches.remove root name

/-- What the edit does to a map when it succeeds. -/
def applied : Edit → Map → Map
  | save branch, m => m.insert branch.name branch.tip
  | remove name, m => m.erase name

end Edit

/-- Does edits one after the other, and keeps account of those that succeed in a map. -/
def runEdits (root : Path) : List Edit → World → Map → World × Map
  | [], w, m => (w, m)
  | edit :: rest, w, m =>
    match edit.act root w with
    | (.ok _, w') => runEdits root rest w' (edit.applied m)
    | (.error _, w') => runEdits root rest w' m

/-- One edit makes of a directory that holds a map a directory that holds the map with this edit, or
the same map when the edit fails. -/
theorem Holds.edit_run {m : Map} (h : Holds root m (branchesPath root) t) {edit : Edit}
    (fits : Fits root edit.edited) (printed : String) :
    ∃ r t', edit.act root ⟨t, printed⟩ = (r, ⟨t', printed⟩) ∧ Touches root [.branches] t t' ∧
      (r = .ok () ∧ Holds root (edit.applied m) (branchesPath root) t' ∨
        (∃ fault, r = .error fault) ∧ Holds root m (branchesPath root) t') := by
  cases edit with
  | save branch =>
    by_cases blocked : Blocked m branch.name
    · obtain ⟨fault, hrun⟩ := h.save_refused fits blocked printed
      exact ⟨_, t, hrun, Touches.refl root t, Or.inr ⟨⟨fault, rfl⟩, h⟩⟩
    · obtain ⟨t', hrun, holds, touch⟩ := h.save_run fits blocked printed
      exact ⟨_, t', hrun, touch, Or.inl ⟨rfl, holds⟩⟩
  | remove name =>
    by_cases hname : name ∈ m
    · obtain ⟨t', hrun, holds, touch, -⟩ := h.remove_run hname printed
      exact ⟨_, t', hrun, touch, Or.inl ⟨rfl, holds⟩⟩
    · obtain ⟨r, hrun⟩ := h.remove_of_not_mem fits hname printed
      refine ⟨r, t, hrun, Touches.refl root t, ?_⟩
      cases r with
      | error fault => exact Or.inr ⟨⟨fault, rfl⟩, h⟩
      | ok _ =>
        have same : m.erase name = m := by
          refine Std.ExtTreeMap.ext_getElem? fun other => ?_
          simp only [Std.ExtTreeMap.getElem?_erase, Std.LawfulEqCmp.compare_eq_iff_eq]
          split
          · rename_i heq
            exact (Std.ExtTreeMap.getElem?_eq_none (heq ▸ hname)).symm
          · rfl
        exact Or.inl ⟨rfl, by rw [Edit.applied, same]; exact h⟩

/-- Any number of edits makes of a directory that holds a map a directory that holds the map they
come to. -/
theorem Holds.runEdits {edits : List Edit} {m : Map} (h : Holds root m (branchesPath root) t)
    (fit : ∀ edit ∈ edits, Fits root edit.edited) (printed : String) :
    ∃ t' m', runEdits root edits ⟨t, printed⟩ m = (⟨t', printed⟩, m') ∧
      Holds root m' (branchesPath root) t' ∧ Touches root [.branches] t t' := by
  induction edits generalizing t m with
  | nil => exact ⟨t, m, rfl, h, Touches.refl root t⟩
  | cons edit rest ih =>
    obtain ⟨r, t₁, hrun, touch, outcome⟩ := h.edit_run (fit edit (by simp)) printed
    have later : ∀ edit ∈ rest, Fits root edit.edited := fun e he =>
      fit e (List.mem_cons_of_mem _ he)
    rw [Branches.runEdits, hrun]
    obtain ⟨rfl, holds⟩ | ⟨⟨fault, rfl⟩, holds⟩ := outcome
    · obtain ⟨t', m', hrest, holds', touch'⟩ := ih holds later
      exact ⟨t', m', hrest, holds', touch.trans touch'⟩
    · obtain ⟨t', m', hrest, holds', touch'⟩ := ih holds later
      exact ⟨t', m', hrest, holds', touch.trans touch'⟩

/-- From a tree on, the directory of the branches has come to stand for a map: what is read of it is
the map, a branch is saved where nothing blocks it and removed where it is stored, and no other
traces are left. -/
structure Refines (root : Path) (m : Map) (start t : FileTree) : Prop where
  get : ∀ name, Fits root name → get? root t name = .ok (m[name]?.map (Branch.mk name))
  contains : ∀ name, Fits root name → contains root t name = m.contains name
  all : ∃ bs, all root t = .ok bs ∧ bs.Pairwise (fun a b => compare a.name b.name = .lt) ∧
    ∀ b, b ∈ bs ↔ m[b.name]? = some b.tip
  saves : ∀ branch printed, Fits root branch.name → ¬Blocked m branch.name →
    ∃ t', save root branch ⟨t, printed⟩ = (.ok (), ⟨t', printed⟩)
  refuses : ∀ branch printed, Fits root branch.name → Blocked m branch.name →
    ∃ fault, save root branch ⟨t, printed⟩ = (.error fault, ⟨t, printed⟩)
  removes : ∀ name printed, name ∈ m →
    ∃ t', remove root name ⟨t, printed⟩ = (.ok (), ⟨t', printed⟩) ∧
      t'.at? (branchPath root name) = none ∧ ∀ p, p ≠ branchPath root name →
        t'.at? p = t.at? p ∨ t.at? p = some .dir ∧ t'.at? p = none
  noEmpty : ∀ p, branchesPath root <:+ p → p ≠ branchesPath root → t.at? p = some .dir →
    t.children p ≠ []
  elsewhere : ∀ p, ¬branchesPath root <:+ p → t.at? p = start.at? p
  top : t.at? (branchesPath root) = some .dir

/-- **The directory of the branches stands for a finite map.**  Whatever branches are saved and
removed one after the other in an empty directory, it comes to stand for the map of those edits that
succeed. -/
theorem refines_map (top : t.at? (branchesPath root) = some .dir)
    (empty : t.children (branchesPath root) = []) {edits : List Edit}
    (fit : ∀ edit ∈ edits, Fits root edit.edited) (printed : String) :
    ∃ t' m, runEdits root edits ⟨t, printed⟩ ∅ = (⟨t', printed⟩, m) ∧ Refines root m t t' := by
  obtain ⟨t', m, hrun, holds, touch⟩ := (Holds.of_empty top empty).runEdits fit printed
  refine ⟨t', m, hrun, ?_⟩
  exact {
    get := fun _ => holds.get?_eq
    contains := fun _ => holds.contains_eq
    all := holds.all_run
    saves := fun branch printed fits clear =>
      (holds.save_run fits clear printed).imp fun _ h => h.1
    refuses := fun branch printed fits blocked => holds.save_refused fits blocked printed
    removes := fun name printed hname =>
      (holds.remove_run hname printed).imp fun _ h => ⟨h.1, h.2.2.2⟩
    noEmpty := fun _ => holds.children_ne_nil
    elsewhere := by
      intro p outside
      refine touch.frame p ?_
      rintro area harea inside
      obtain rfl := List.mem_singleton.mp harea
      exact outside inside.below
    top := holds.top }

namespace Nested

/-- A file tree with nothing but an empty directory of the branches. -/
def bare : FileTree :=
  let top := (FileTree.empty.place? (metaPath []) .dir).getD .empty
  (top.place? (branchesPath []) .dir).getD top

def feature : BranchName := ⟨"feature", by decide⟩

def login : BranchName := ⟨"feature/login", by decide⟩

/-- The one name below the other is saved and keeps that one out, until it is removed. -/
def edits : List Edit :=
  [.save ⟨login, Commit.initial.id⟩, .save ⟨feature, Commit.initial.id⟩, .remove login,
    .save ⟨feature, Commit.initial.id⟩]

theorem fits_feature : Fits [] feature := ⟨by decide, by decide⟩

theorem fits_login : Fits [] login := ⟨by decide, by decide⟩

/-- Two nested names, one after the other in an empty directory. -/
theorem refines_edits : bare.at? (branchesPath []) = some .dir ∧
    bare.children (branchesPath []) = [] ∧ (∀ edit ∈ edits, Fits [] edit.edited) ∧
    ∃ t' m, runEdits [] edits ⟨bare, ""⟩ ∅ = (⟨t', ""⟩, m) ∧ Refines [] m bare t' ∧
      m.keys = [feature] := by
  have top : bare.at? (branchesPath []) = some .dir := by decide +kernel
  have empty : bare.children (branchesPath []) = [] := by decide +kernel
  have fit : ∀ edit ∈ edits, Fits [] edit.edited := by
    simp [edits, Edit.edited, fits_feature, fits_login]
  obtain ⟨t', m, hrun, refines⟩ := refines_map top empty fit ""
  have keys : (runEdits [] edits ⟨bare, ""⟩ ∅).2.keys = [feature] := by decide +kernel
  exact ⟨top, empty, fit, t', m, hrun, refines, by rw [← keys, hrun]⟩

end Nested

end Branches

end LocalVcs
