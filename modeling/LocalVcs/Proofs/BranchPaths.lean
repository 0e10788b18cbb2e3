/-
# Paths of branches

The words of a branch's name are the directories that its file lies in.  A name leads nowhere up and
ends in a word, so the way to the file is straight; and names without doubled slashes have different
files.

* `Branches.straight_route`: the way to a branch's file.
* `branchPath_injective_of_noDouble`, `branchPath_injective`: such names have different files.
-/
import LocalVcs.Proofs.WorkingFiles
import LocalVcs.Branches

namespace LocalVcs

open FileTree Layout

/-! ## 1. Pieces of texts -/

namespace Text

theorem occurs_of_isInfix {piece cs : List Char} (h : piece <:+: cs) : occurs piece cs = true := by
  induction cs with
  | nil => simp [occurs, List.infix_nil.mp h]
  | cons c rest ih =>
    rw [occurs, Bool.or_eq_true, List.isPrefixOf_iff_prefix]
    exact (List.infix_cons_iff.mp h).imp id ih

theorem not_isInfix_of_occurs {piece cs : List Char} (h : occurs piece cs = false) :
    ¬piece <:+: cs := fun hinfix => by simp [occurs_of_isInfix hinfix] at h

theorem trimmed_of_noBlank {text : String} (h : ∀ c ∈ text.toList, isBlank c = false) :
    trimmed text = text := by
  have keep : ∀ cs : List Char, (∀ c ∈ cs, isBlank c = false) → trimStart cs = cs := by
    intro cs hcs
    cases cs with
    | nil => rfl
    | cons c rest => simp [trimStart, hcs c (by simp)]
  rw [trimmed, trim, keep _ h, keep _ (by simpa using h), List.reverse_reverse,
    String.ofList_toList]

end Text

theorem ObjectId.trimmed_text (id : ObjectId) : Text.trimmed id.text = id.text := by
  have all : (Sha1.hexDigitChars.all fun c => !Text.isBlank c) = true := by decide
  refine Text.trimmed_of_noBlank ?_
  intro c hc
  simpa using List.all_eq_true.mp all c (id.digits c hc)

theorem intercalate_of_two {x : Char} (first second : List Char) (rest : List (List Char)) :
    [x].intercalate (first :: second :: rest) = first ++ x :: [x].intercalate (second :: rest) := by
  rw [List.intercalate_cons_cons, List.append_assoc, List.singleton_append]

/-- A piece of a text that is put together with a mark stands at its beginning or behind a mark. -/
theorem prefix_or_infix_of_mem {x : Char} {l : List Char} {ls : List (List Char)} (h : l ∈ ls) :
    l <+: [x].intercalate ls ∨ x :: l <:+: [x].intercalate ls := by
  induction ls with
  | nil => cases h
  | cons first rest ih =>
    cases rest with
    | nil =>
      obtain rfl := List.mem_singleton.mp h
      exact Or.inl (by simp)
    | cons second rest =>
      rw [intercalate_of_two]
      rcases List.mem_cons.mp h with rfl | h
      · exact Or.inl (List.prefix_append _ _)
      · right
        rcases ih h with ⟨after, hafter⟩ | ⟨before, after, hafter⟩
        · exact ⟨first, after, by rw [← hafter]; simp⟩
        · exact ⟨first ++ x :: before, after, by rw [← hafter]; simp⟩

theorem getLast?_intercalate_of_getLast? {x : Char} {ls : List (List Char)}
    (h : ls.getLast? = some []) :
    [x].intercalate ls = [] ∨ ([x].intercalate ls).getLast? = some x := by
  induction ls with
  | nil => simp at h
  | cons first rest ih =>
    cases rest with
    | nil => left; simpa using h
    | cons second rest =>
      right
      rw [intercalate_of_two]
      rcases ih (by simpa using h) with hnil | hlast
      · simp [hnil]
      · simp [List.getLast?_append, List.getLast?_cons, hlast]

/-- An empty piece stands at an end of the text or between two marks. -/
theorem of_nil_mem {x : Char} {ls : List (List Char)} (h : [] ∈ ls) :
    [x].intercalate ls = [] ∨ ([x].intercalate ls).head? = some x ∨
      ([x].intercalate ls).getLast? = some x ∨ [x, x] <:+: [x].intercalate ls := by
  induction ls with
  | nil => cases h
  | cons first rest ih =>
    cases rest with
    | nil =>
      obtain rfl := List.mem_singleton.mp h
      exact Or.inl (by simp)
    | cons second rest =>
      rw [intercalate_of_two]
      rcases List.mem_cons.mp h with rfl | h
      · exact Or.inr (Or.inl rfl)
      · right; right
        rcases ih h with hnil | hhead | hlast | ⟨before, after, hinfix⟩
        · left; simp [hnil]
        · right
          obtain ⟨after, hafter⟩ := List.head?_eq_some_iff.mp hhead
          exact ⟨first, after, by rw [hafter]; simp⟩
        · left; simp [List.getLast?_append, List.getLast?_cons, hlast]
        · right
          exact ⟨first ++ x :: before, after, by rw [← hinfix]; simp⟩

theorem segmentsOf_injective {a b : String} (h : segmentsOf a = segmentsOf b) : a = b := by
  apply String.toList_injective
  rw [toList_eq_intercalate_segmentsOf a, toList_eq_intercalate_segmentsOf b, h]

/-- Texts without slashes are the segments of the text that they are joined to. -/
theorem segmentsOf_intercalate {words : List FileName} (texts : ∀ w ∈ words, ∃ text, w = .text text)
    (noSlash : ∀ w ∈ words, '/' ∉ w.chars) (some_ : words ≠ []) :
    segmentsOf ("/".intercalate (words.map FileName.shown)) = words := by
  have spelled : (words.map FileName.shown).map String.toList = words.map FileName.chars := by
    rw [List.map_map]
    refine List.map_congr_left fun w hw => ?_
    obtain ⟨text, rfl⟩ := texts w hw
    rfl
  rw [segmentsOf, String.toList_intercalate, show "/".toList = ['/'] from rfl, spelled,
    List.splitOn_intercalate '/' (by simpa using noSlash) (by simpa using some_), List.map_map]
  refine (List.map_congr_left fun w hw => ?_).trans (List.map_id words)
  obtain ⟨text, rfl⟩ := texts w hw
  exact congrArg FileName.text String.ofList_toList

/-! ## 2. The segments of a name -/

namespace BranchName

variable (name : BranchName)

theorem relative : isAbsolute name.text = false := by
  have := name.valid.2.2.1
  simpa [isAbsolute] using this

/-- No segment of a name is a dot or begins with two of them. -/
theorem segment_ne {s : FileName} (h : s ∈ segmentsOf name.text) : s ≠ "." ∧ s ≠ ".." := by
  obtain ⟨-, noDot, -, -, noSlashDot, -⟩ := name.valid
  have hmem : s.chars ∈ (segmentsOf name.text).map FileName.chars := List.mem_map_of_mem h
  have begins := prefix_or_infix_of_mem (x := '/') hmem
  rw [← toList_eq_intercalate_segmentsOf] at begins
  -- a segment that begins with a dot stands at the beginning of the name or behind a slash
  have noDotFirst : ∀ rest, s.chars ≠ '.' :: rest := by
    intro rest hs
    rw [hs] at begins
    rcases begins with hprefix | hinfix
    · obtain ⟨after, hafter⟩ := hprefix
      exact noDot (by rw [← hafter]; rfl)
    · refine Text.not_isInfix_of_occurs noSlashDot (List.IsInfix.trans ?_ hinfix)
      exact ⟨[], rest, rfl⟩
  exact ⟨fun hs => noDotFirst [] (by rw [hs]; rfl), fun hs => noDotFirst ['.'] (by rw [hs]; rfl)⟩

theorem segments_ne_nil : segmentsOf name.text ≠ [] := by
  intro h
  have := toList_eq_intercalate_segmentsOf name.text
  rw [h] at this
  exact name.valid.1 (by simpa using this)

theorem exists_last : ∃ front last, segmentsOf name.text = front ++ [last] ∧
    Route.goes last = true := by
  have some_ := name.segments_ne_nil
  refine ⟨_, (segmentsOf name.text).getLast some_, (List.dropLast_concat_getLast some_).symm, ?_⟩
  have hmem := List.getLast_mem some_
  have noDot := (name.segment_ne hmem).1
  have some_last : (segmentsOf name.text).getLast some_ ≠ "" := by
    intro hempty
    have hlast : ((segmentsOf name.text).map FileName.chars).getLast? = some [] := by
      rw [List.getLast?_map, List.getLast?_eq_some_getLast some_, hempty]; rfl
    have ends := getLast?_intercalate_of_getLast? (x := '/') hlast
    rw [← toList_eq_intercalate_segmentsOf] at ends
    rcases ends with hnil | hslash
    · exact name.valid.1 hnil
    · exact name.valid.2.2.2.1 hslash
  simp [Route.goes, noDot, some_last]

end BranchName

/-! ## 3. The file of a branch -/

/-- The path of a branch's file. -/
def branchPath (root : Path) (name : BranchName) : Path :=
  ((segmentsOf name.text).filter Route.goes).reverse ++ branchesPath root

namespace Branches

variable {root : Path} {t : FileTree} {name : BranchName}

theorem route_eq (root : Path) (name : BranchName) :
    route root name = ⟨root, [FileName.text metaName, "branches"] ++ segmentsOf name.text⟩ := by
  rw [route, Route.join, if_neg (by simp [name.relative])]; rfl

theorem path_route (root : Path) (name : BranchName) :
    (route root name).path = branchPath root name := by
  have front : [FileName.text metaName, "branches"].filter Route.goes =
      [FileName.text metaName, "branches"] := by decide
  rw [route_eq, Route.path_mk, List.filter_append, front, branchPath]
  simp [branchesPath, metaPath]

theorem level_route (root : Path) (name : BranchName) :
    (".." : FileName) ∉ (route root name).segments := by
  rw [route_eq]
  intro h
  rcases List.mem_append.mp h with h | h
  · revert h; decide
  · exact (name.segment_ne h).2 rfl

theorem straight_route (free : t.LinkFree root) (tell : (route root name).CanTell) :
    Straight t (route root name) := by
  obtain ⟨front, last, hsegments, goes⟩ := name.exists_last
  have hroute := route_eq root name
  refine ⟨by rw [hroute]; exact free, level_route root name, ?_, tell⟩
  exact ⟨[FileName.text metaName, "branches"] ++ front, last, by rw [hroute, hsegments]; simp, goes⟩

/-- The file of a branch lies strictly below the directory of the branches. -/
theorem branchPath_below (root : Path) (name : BranchName) :
    ∃ word above, branchPath root name = word :: above ∧ branchesPath root <:+ above := by
  obtain ⟨front, last, hsegments, goes⟩ := name.exists_last
  refine ⟨last, (front.filter Route.goes).reverse ++ branchesPath root, ?_, List.suffix_append _ _⟩
  simp [branchPath, hsegments, List.filter_append, goes]

theorem holds_below {word : FileName} {above : Path} (h : branchesPath root <:+ above) :
    Area.branches.Holds root (word :: above) :=
  Area.holds_of_below (h.trans (List.suffix_cons _ _))
    (Area.ne_of_longer (Nat.lt_succ_of_le h.length_le)) (by simp)

theorem holds_branchPath (root : Path) (name : BranchName) :
    Area.branches.Holds root (branchPath root name) := by
  obtain ⟨word, above, hpath, below⟩ := branchPath_below root name
  rw [hpath]
  exact holds_below below

end Branches

/-! ## 4. Names without doubled slashes -/

namespace BranchName

variable {name : BranchName} (noDouble : ¬['/', '/'] <:+: name.text.toList)

include noDouble

theorem goes_of_mem {s : FileName} (hs : s ∈ segmentsOf name.text) : Route.goes s = true := by
  have noDot := (name.segment_ne hs).1
  have some_ : s ≠ "" := by
    rintro rfl
    have hmem : [] ∈ (segmentsOf name.text).map FileName.chars := List.mem_map.mpr ⟨"", hs, rfl⟩
    have ends := of_nil_mem (x := '/') hmem
    rw [← toList_eq_intercalate_segmentsOf] at ends
    rcases ends with hnil | hhead | hlast | hdoubled
    · exact name.valid.1 hnil
    · exact name.valid.2.2.1 hhead
    · exact name.valid.2.2.2.1 hlast
    · exact noDouble hdoubled
  simp [Route.goes, noDot, some_]

theorem branchPath_eq (root : Path) :
    branchPath root name = (segmentsOf name.text).reverse ++ branchesPath root := by
  rw [branchPath, List.filter_eq_self.mpr fun s hs => goes_of_mem noDouble hs]

end BranchName

/-- **Names without doubled slashes have different files.** -/
theorem branchPath_injective_of_noDouble {root : Path} {a b : BranchName}
    (ha : ¬['/', '/'] <:+: a.text.toList) (hb : ¬['/', '/'] <:+: b.text.toList)
    (h : branchPath root a = branchPath root b) : a = b := by
  rw [BranchName.branchPath_eq ha, BranchName.branchPath_eq hb] at h
  exact BranchName.ext (segmentsOf_injective (List.reverse_inj.mp (List.append_cancel_right h)))

/-- A text without doubled slashes and without white space. -/
def PlainName (text : String) : Prop :=
  ¬['/', '/'] <:+: text.toList ∧ ∀ c ∈ text.toList, Text.isBlank c = false

namespace PlainName

theorem of_checks {text : String} (noDouble : Text.occurs ['/', '/'] text.toList = false)
    (noBlank : text.toList.any Text.isBlank = false) : PlainName text :=
  ⟨Text.not_isInfix_of_occurs noDouble,
    fun c hc => by simpa using List.any_eq_false.mp noBlank c hc⟩

variable {name : BranchName} (h : PlainName name.text)

include h

theorem branchPath_eq (root : Path) :
    branchPath root name = (segmentsOf name.text).reverse ++ branchesPath root :=
  BranchName.branchPath_eq h.1 root

theorem trimmed : Text.trimmed name.text = name.text := Text.trimmed_of_noBlank h.2

end PlainName

/-- **Plain names have different files.** -/
theorem branchPath_injective {root : Path} {a b : BranchName} (ha : PlainName a.text)
    (hb : PlainName b.text) (h : branchPath root a = branchPath root b) : a = b :=
  branchPath_injective_of_noDouble ha.1 hb.1 h

end LocalVcs
