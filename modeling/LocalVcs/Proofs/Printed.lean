/-
# What printed texts tell

A log entry, a status report and the contents written for a conflict are put together from texts
that come from elsewhere: messages, names and file contents.  They are lines all the same, and what
was put in can be read off again.

* `Text.ofLines_injective`: lines without a line feed in them can be told apart again.
* `id_of_logEntry`: a log entry names its commit.
* `Status.render_eq_ofLines`, `Status.render_tells`: the lines of a report, and that they tell what
  is in each of its sections.
* `conflictContent_ofLines`, `conflictContent_tells`: where the marks of a conflict stand, and that
  neither side is lost between them.
-/
import LocalVcs.LogEntry
import LocalVcs.Merge.Resolution
import LocalVcs.Status

namespace LocalVcs

open Text

/-! ## 1. Lines -/

namespace Text

variable {lines lines' : List String}

@[simp] theorem ofLines_nil : ofLines [] = "" := rfl

@[simp] theorem ofLines_cons (line : String) (lines : List String) :
    ofLines (line :: lines) = line ++ "\n" ++ ofLines lines := by
  simp [ofLines]

@[simp] theorem ofLines_append (lines lines' : List String) :
    ofLines (lines ++ lines') = ofLines lines ++ ofLines lines' := by
  induction lines with
  | nil => simp
  | cons line lines ih => simp [ih, String.append_assoc]

/-- What stands before the first line feed, and what stands behind it, are given by the whole. -/
theorem append_newline_inj {s s' t t' : String} (hs : '\n' ∉ s.toList) (hs' : '\n' ∉ s'.toList)
    (h : s ++ "\n" ++ t = s' ++ "\n" ++ t') : s = s' ∧ t = t' := by
  have chars : s.toList ++ '\n' :: t.toList = s'.toList ++ '\n' :: t'.toList := by
    simpa using congrArg String.toList h
  have same : s.toList = s'.toList := by
    have first := congrArg (List.takeWhile (· ≠ '\n')) chars
    have whole : ∀ {cs rest : List Char}, '\n' ∉ cs →
        (cs ++ '\n' :: rest).takeWhile (· ≠ '\n') = cs := fun hcs => by
      rw [List.takeWhile_append_of_pos fun c hc => by
        simpa using fun (heq : c = '\n') => hcs (heq ▸ hc)]
      simp
    rwa [whole hs, whole hs'] at first
  rw [same, List.append_cancel_left_eq, List.cons.injEq] at chars
  exact ⟨String.toList_inj.mp same, String.toList_inj.mp chars.2⟩

/-- **Lines can be told apart again**, as long as there is no line feed in them. -/
theorem ofLines_injective (h : ∀ line ∈ lines, '\n' ∉ line.toList)
    (h' : ∀ line ∈ lines', '\n' ∉ line.toList) (same : ofLines lines = ofLines lines') :
    lines = lines' := by
  induction lines generalizing lines' with
  | nil =>
    cases lines' with
    | nil => rfl
    | cons line lines' => simpa using congrArg String.toList same
  | cons line lines ih =>
    cases lines' with
    | nil => simpa using congrArg String.toList same
    | cons line' lines' =>
      rw [ofLines_cons, ofLines_cons] at same
      obtain ⟨first, rest⟩ := append_newline_inj (h _ List.mem_cons_self)
        (h' _ List.mem_cons_self) same
      rw [first, ih (fun l hl => h l (List.mem_cons_of_mem _ hl))
        (fun l hl => h' l (List.mem_cons_of_mem _ hl)) rest]

end Text

/-! ## 2. Log entries -/

/-- A line names both parents of a merge, and of no other commit. -/
theorem Commit.mergeLine_ne_nil_iff {c : Commit} : c.mergeLine ≠ [] ↔ c.isMerge = true := by
  unfold mergeLine isMerge parent? mergedParent?
  match c.parents with
  | [] => simp
  | [_] => simp
  | _ :: _ :: _ => simp

/-- **An entry names its commit**, whatever the message is and whichever zone it is read in. -/
theorem id_of_logEntry {zone zone' : Time.Zone} {c c' : Commit}
    (h : logEntry zone c = logEntry zone' c') : c.id = c'.id := by
  have named : ∀ (id : ObjectId), '\n' ∉ ("commit " ++ id.text).toList := by
    intro id hmem
    rw [String.toList_append, List.mem_append] at hmem
    rcases hmem with hmem | hmem
    · exact absurd hmem (by decide)
    · exact absurd (id.digits _ hmem) (by decide)
  simp only [logEntry, List.cons_append, ofLines_cons] at h
  obtain ⟨-, h⟩ := append_newline_inj (by decide) (by decide) h
  obtain ⟨h, -⟩ := append_newline_inj (named c.id) (named c'.id) h
  exact ObjectId.ext (by simpa using h)

/-! ## 3. Status reports -/

namespace Status

/-- The line for a branch. -/
def branchLine (current b : BranchName) : String := if b = current then "*" ++ b.text else b.text

/-- The line for a change that is not staged. -/
def changeLine (entry : String × Change) : String := entry.1 ++ " (" ++ entry.2.word ++ ")"

/-- The lines of a section: its title, a line for each name, and an empty line. -/
def sectionLines (title : String) (names : List String) : List String :=
  ("=== " ++ title ++ " ===") :: (names ++ [""])

/-- The lines of a report. -/
def lines (s : Status) : List String :=
  sectionLines "Branches" (s.branches.map (branchLine s.current)) ++
  sectionLines "Staged Files" s.staged ++ sectionLines "Removed Files" s.removed ++
  sectionLines "Modifications Not Staged For Commit" (s.unstaged.toList.map changeLine) ++
  sectionLines "Untracked Files" s.untracked

theorem renderSection_eq_ofLines (title : String) (names : List String) :
    renderSection title names = ofLines (sectionLines title names) := by
  have ended : " ===\n" = " ===" ++ "\n" := by decide
  simp only [renderSection, sectionLines, ofLines_cons, ofLines_append, ofLines_nil, ended,
    String.append_assoc, String.empty_append, String.append_empty]

theorem render_eq_ofLines (s : Status) : s.render = ofLines s.lines := by
  simp only [render, renderSection_eq_ofLines, lines, ofLines_append]
  rfl

/-- Whether a text can stand on a line of its own among other lines. -/
def OnLine (text : String) : Prop := text ≠ "" ∧ '\n' ∉ text.toList

/-- Every name in a report stands on a line of its own. -/
structure OneLine (s : Status) : Prop where
  staged : ∀ name ∈ s.staged, OnLine name
  removed : ∀ name ∈ s.removed, OnLine name
  unstaged : ∀ name ∈ s.unstaged, OnLine name
  untracked : ∀ name ∈ s.untracked, OnLine name

theorem onLine_branchLine (current b : BranchName) : OnLine (branchLine current b) := by
  obtain ⟨nonempty, -, -, -, -, -, -, -, plain⟩ := b.valid
  have noBreak : '\n' ∉ b.text.toList := fun hmem =>
    absurd (List.any_eq_false.mp plain _ hmem) (by decide)
  unfold branchLine OnLine
  split
  · simp [noBreak]
  · exact ⟨fun hempty => nonempty (by simp [hempty]), noBreak⟩

theorem onLine_branches (s : Status) :
    ∀ line ∈ s.branches.map (branchLine s.current), OnLine line := by
  simp only [List.mem_map]
  rintro _ ⟨b, -, rfl⟩
  exact onLine_branchLine _ b

theorem onLine_changeLine {entry : String × Change} (h : OnLine entry.1) :
    OnLine (changeLine entry) := by
  obtain ⟨name, change⟩ := entry
  cases change <;> simp_all [changeLine, OnLine, Change.word]

/-- The first section is given by the lines that it begins. -/
theorem sectionLines_append_inj {title : String} {names names' rest rest' : List String}
    (h : ∀ name ∈ names, OnLine name) (h' : ∀ name ∈ names', OnLine name)
    (same : sectionLines title names ++ rest = sectionLines title names' ++ rest') :
    names = names' ∧ rest = rest' := by
  have ends : ∀ {names rest : List String}, (∀ name ∈ names, OnLine name) →
      (names ++ "" :: rest).takeWhile (· ≠ "") = names := fun hnames => by
    rw [List.takeWhile_append_of_pos fun name hname => by simpa using (hnames name hname).1]
    simp
  simp only [sectionLines, List.cons_append, List.append_assoc, List.nil_append,
    List.cons.injEq, true_and] at same
  have first := congrArg (List.takeWhile (· ≠ "")) same
  rw [ends h, ends h'] at first
  rw [first, List.append_cancel_left_eq, List.cons.injEq] at same
  exact ⟨first, same.2⟩

theorem branchLine_inj {current current' b b' : BranchName}
    (h : branchLine current b = branchLine current' b') :
    b = b' ∧ (b = current ↔ b' = current') := by
  have unmarked : ∀ b : BranchName, '*' ∉ b.text.toList := fun b hmem => by
    obtain ⟨-, -, -, -, -, -, -, -, plain⟩ := b.valid
    exact absurd (List.any_eq_false.mp plain _ hmem) (by decide)
  unfold branchLine at h
  split at h <;> split at h
  · rename_i here here'
    exact ⟨BranchName.ext (by simpa using h), by simp [here, here']⟩
  · exact absurd (show '*' ∈ b'.text.toList by simp [← h]) (unmarked b')
  · exact absurd (show '*' ∈ b.text.toList by simp [h]) (unmarked b)
  · rename_i there there'
    exact ⟨BranchName.ext h, by simp [there, there']⟩

theorem map_branchLine_inj {current current' : BranchName} {branches branches' : List BranchName}
    (h : branches.map (branchLine current) = branches'.map (branchLine current')) :
    branches = branches' ∧ ∀ b ∈ branches, b = current ↔ b = current' := by
  induction branches generalizing branches' with
  | nil => simp_all
  | cons b branches ih =>
    cases branches' with
    | nil => simp at h
    | cons b' branches' =>
      rw [List.map_cons, List.map_cons, List.cons.injEq] at h
      obtain ⟨rfl, marked⟩ := branchLine_inj h.1
      obtain ⟨rfl, others⟩ := ih h.2
      exact ⟨rfl, List.forall_mem_cons.mpr ⟨marked, others⟩⟩

theorem changeLine_injective : Function.Injective changeLine := by
  rintro ⟨name, change⟩ ⟨name', change'⟩ h
  -- the two words differ in the fourth character from the end
  have ends := congrArg (fun line => line.toList.reverse) h
  simp only [changeLine] at h ends
  cases change <;> cases change'
  case modified.modified | deleted.deleted => simpa [Change.word] using h
  case modified.deleted | deleted.modified => simp [Change.word] at ends

theorem noBreak_sectionLines {title : String} {names : List String} (ht : '\n' ∉ title.toList)
    (h : ∀ name ∈ names, OnLine name) : ∀ line ∈ sectionLines title names, '\n' ∉ line.toList := by
  intro line hline
  simp only [sectionLines, List.mem_cons, List.mem_append, List.not_mem_nil, or_false] at hline
  rcases hline with rfl | hname | rfl
  · simp [ht]
  · exact (h line hname).2
  · simp

section

variable {s : Status} (h : s.OneLine)

include h

theorem OneLine.changes : ∀ line ∈ s.unstaged.toList.map changeLine, OnLine line := by
  simp only [List.mem_map]
  rintro _ ⟨entry, hentry, rfl⟩
  have held : s.unstaged[entry.1]? = some entry.2 :=
    Std.ExtTreeMap.mem_toList_iff_getElem?_eq_some.mp hentry
  exact onLine_changeLine (h.unstaged _ (by simp [Std.ExtTreeMap.mem_iff_isSome_getElem?, held]))

theorem OneLine.noBreak : ∀ line ∈ s.lines, '\n' ∉ line.toList := by
  simp only [lines, List.forall_mem_append]
  exact ⟨⟨⟨⟨noBreak_sectionLines (by decide) (onLine_branches s),
    noBreak_sectionLines (by decide) h.staged⟩,
    noBreak_sectionLines (by decide) h.removed⟩, noBreak_sectionLines (by decide) h.changes⟩,
    noBreak_sectionLines (by decide) h.untracked⟩

end

/-- **A report tells what is in its sections**, and which of the branches is the current one. -/
theorem render_tells {s s' : Status} (h : s.OneLine) (h' : s'.OneLine)
    (same : s.render = s'.render) :
    s.branches = s'.branches ∧ (∀ b ∈ s.branches, b = s.current ↔ b = s'.current) ∧
      s.staged = s'.staged ∧ s.removed = s'.removed ∧ s.unstaged = s'.unstaged ∧
      s.untracked = s'.untracked := by
  rw [render_eq_ofLines, render_eq_ofLines] at same
  have sections := ofLines_injective h.noBreak h'.noBreak same
  simp only [lines, List.append_assoc] at sections
  obtain ⟨hbranches, sections⟩ :=
    sectionLines_append_inj (onLine_branches s) (onLine_branches s') sections
  obtain ⟨hstaged, sections⟩ := sectionLines_append_inj h.staged h'.staged sections
  obtain ⟨hremoved, sections⟩ := sectionLines_append_inj h.removed h'.removed sections
  obtain ⟨hchanges, sections⟩ := sectionLines_append_inj h.changes h'.changes sections
  rw [← List.append_nil (sectionLines _ s.untracked),
    ← List.append_nil (sectionLines _ s'.untracked)] at sections
  obtain ⟨huntracked, -⟩ := sectionLines_append_inj h.untracked h'.untracked sections
  obtain ⟨hbranches, marked⟩ := map_branchLine_inj hbranches
  exact ⟨hbranches, marked, hstaged, hremoved,
    Std.ExtTreeMap.toList_inj.mp
      ((List.map_inj_right fun _ _ heq => changeLine_injective heq).mp hchanges), huntracked⟩

end Status

/-! ## 4. Conflicts -/

/-- **The marks of a conflict stand on lines of their own** where both sides end their lines: behind
the first mark the lines of the one side, and behind the second those of the other one. -/
theorem conflictContent_ofLines (mine theirs : List String) :
    conflictContent (some (Bytes.ofText (ofLines mine))) (some (Bytes.ofText (ofLines theirs))) =
      Bytes.ofText (ofLines
        (["<<<<<<< HEAD"] ++ mine ++ ["======="] ++ theirs ++ [">>>>>>>"])) := by
  have first : "<<<<<<< HEAD\n" = "<<<<<<< HEAD" ++ "\n" := by decide
  have second : "=======\n" = "=======" ++ "\n" := by decide
  have third : ">>>>>>>\n" = ">>>>>>>" ++ "\n" := by decide
  simp only [conflictContent, first, second, third, Option.getD_some, ofLines_append, ofLines_cons,
    ofLines_nil, String.append_empty, Bytes.ofText_append, List.append_assoc]

/-- **Neither side of a conflict is lost**: what is written tells both of them, when it is known how
much of it is the first one. -/
theorem conflictContent_tells {mine theirs mine' theirs' : Option Bytes}
    (length : (mine.getD []).length = (mine'.getD []).length)
    (h : conflictContent mine theirs = conflictContent mine' theirs') :
    mine.getD [] = mine'.getD [] ∧ theirs.getD [] = theirs'.getD [] := by
  simp only [conflictContent, List.append_assoc] at h
  obtain ⟨hmine, h⟩ := List.append_inj (List.append_cancel_left h) length
  exact ⟨hmine, List.append_cancel_right (List.append_cancel_left h)⟩

end LocalVcs
