/-
# Subdirectories of the working directory

Whatever a request does, and whether it succeeds or fails, it leaves each subdirectory of the
working directory as it is with all that lies in it.  There is one exception.  Where a file is
written as a commit holds it, or as a merge makes it, it takes the place of what stands under its
name, and a directory that stands there is removed with all it holds.

Nothing is asked of the repository but that no links lead out of it, and that a file which is
dropped is not tracked by a text that leads out of its directory; and no link may stand under the
name of a file that is written.

* `Request.inward_of_stages`: the texts that a request stages something under lead inward.
* `Request.spares_subdirectories`: what becomes of the subdirectories when a request is carried out.
* `Laid.subdirectories_not_spared`: a subdirectory that gives place, and what comes of links and of
  such a text.
-/
import LocalVcs.Proofs.Progress
import LocalVcs.Proofs.Scopes
import LocalVcs.Proofs.Spared

namespace LocalVcs

open FileTree Layout LocalVcs.Action

variable {root : Path} {t : FileTree}

/-! ## 1. What is staged -/

theorem Staging.inward_of_readEntries {what : Staged} {entries : NameMap Bytes}
    (h : readEntries root t what = .ok entries) : ∀ name ∈ entries, Inward name := by
  unfold readEntries at h
  split at h
  · split at h
    · cases h
    · rename_i found hfound
      obtain rfl := Except.ok.inj h
      intro name hname
      rw [Std.ExtTreeMap.mem_ofList, List.contains_iff_mem] at hname
      simp only [List.mem_map, Prod.exists, exists_and_right, exists_eq_right,
        Prod.mk.injEq] at hname
      obtain ⟨bytes, n, content, hmem, rfl, -⟩ := hname
      exact .of_validName (validName_of_list? hfound (Worktree.mem_filesOf.mp hmem))
  · obtain rfl := Except.ok.inj h
    simp

theorem Worktree.inward_of_contains {file : String} (h : contains root t file = true) :
    Inward file := by
  rw [contains, route?] at h
  cases hname : fileName? file with
  | none => simp [hname] at h
  | some name => exact .of_names (names_of_fileName? hname)

/-! ## 2. Requests -/

namespace Request

/-- Whether a request writes the working file of a name. -/
def Restores (root : Path) (t : FileTree) (request : Request) (file : FileName) : Prop :=
  ∃ text name, request.Writes root t text ∧ Worktree.fileName? text = some name ∧ file = .text name

/-- Whether the file that a request is to drop, if the current commit tracks it, is told by a text
that does not lead out of a directory. -/
def DropsInward (root : Path) (t : FileTree) (request : Request) : Prop :=
  ∀ text b c, request = .rm text → Branches.current root t = .ok b →
    Commits.load root t b.tip = .ok c → text ∈ c.manifest → Inward text

/-- Where what is dropped is told by such a text, so is all that is staged: it is staged already and
has been listed, or it is a working file that is there. -/
theorem inward_of_stages {request : Request} (drops : request.DropsInward root t) {text : String}
    (h : request.Stages root t text) : Inward text := by
  cases h with
  | kept _ hload held =>
    obtain ⟨additions, removals, -⟩ := Staging.of_load hload
    exact held.elim (Staging.inward_of_readEntries additions text)
      (Staging.inward_of_readEntries removals text)
  | added present => exact Worktree.inward_of_contains present
  | dropped hcurrent hload held => exact drops text _ _ rfl hcurrent hload held

/-- **A request leaves each subdirectory as it is with all that lies in it**, whether it succeeds or
fails; but one that stands under the name of a file that the request writes may be removed, and then
it is no directory any more. -/
theorem spares_subdirectories {settings : Settings} {guarded : Bool} {request : Request}
    {printed : String} (free : Unlinked settings.root (request.Restores settings.root t) t)
    (drops : request.DropsInward settings.root t) {dir : FileName} (notMeta : dir ≠ metaName)
    (hdir : t.at? (dir :: settings.root) = some .dir) :
    (request.perform settings guarded).Leads ⟨t, printed⟩ fun _ w' =>
      (∀ p, dir :: settings.root <:+ p → w'.tree.at? p = t.at? p) ∨
        request.Restores settings.root t dir ∧ w'.tree.at? (dir :: settings.root) ≠ some .dir :=
  Leads.mono (perform_careful settings guarded request ⟨t, printed⟩) fun _ _ outcome =>
    have spared := outcome.1.spared (fun _ => inward_of_stages drops)
      (fun text name writes named => ⟨text, name, writes, named, rfl⟩) free
    spared.kept dir notMeta hdir

end Request

/-! ## 3. Directories that are not spared -/

namespace Laid

/-- The file tree with these entries, put down one after the other. -/
def tree (entries : List (Path × Entry)) : FileTree :=
  entries.foldl (fun t entry => (t.place? entry.1 entry.2).getD t) FileTree.empty

/-- A file with a text in it. -/
def text (s : String) : Entry := .file (.plain (Bytes.ofText s))

/-- The id with these digits. -/
def named (text : String) (length : text.toList.length = 40)
    (digits : (text.toList.all fun c => decide (Sha1.IsHexDigit c)) = true) : ObjectId :=
  ⟨text, length, fun c hc => of_decide_eq_true (List.all_eq_true.mp digits c hc)⟩

/-- What `file` holds in the commit. -/
def blob : ObjectId := named "43dd47ea691c90a5fa7827892c70241913351963" rfl rfl

/-- A commit with one file in it. -/
def commit (name : String) : Commit :=
  ⟨"one file", Time.Moment.epoch, [], Std.ExtTreeMap.ofList [(name, blob)] compare⟩

/-- The id of the commit with `file`. -/
def tip : ObjectId := named "9d5461933f285e77fc9ed7ada6a665d1815ee107" rfl rfl

/-- The id of the commit with `../../../sub/inner`. -/
def strayTip : ObjectId := named "3d2ed5dcc412b377052d6fe0154dc90ffda3f1f3" rfl rfl

/-- A repository in which the commit with that file is current. -/
def repository (name : String) (tip : ObjectId) : List (Path × Entry) :=
  [([FileName.text metaName], .dir), (headPath [], text "master"), (branchesPath [], .dir),
    (.text "master" :: branchesPath [], text tip.text), (storePath [] .blob, .dir),
    (blob.directory :: storePath [] .blob, .dir),
    (objectPath [] .blob blob, .file (.packed (Object.blobEncoding (Bytes.ofText "one")))),
    (storePath [] .commit, .dir), (tip.directory :: storePath [] .commit, .dir),
    (objectPath [] .commit tip, .file (.packed (commit name).encoding))]

/-- A subdirectory with one file in it. -/
def directory (name : String) : List (Path × Entry) :=
  [([.text name], .dir), ([.text "inner", .text name], text "two")]

/-- Two subdirectories stand beside the repository, one of them under the name of the file. -/
def housed : FileTree := tree (repository "file" tip ++ directory "sub" ++ directory "file")

/-- A link into the subdirectory stands under the name of the file. -/
def linked : FileTree :=
  tree (repository "file" tip ++ directory "sub" ++ [([FileName.text "file"], .link "sub/inner")])

/-- The branches lie in the subdirectory, to which a link leads from where they should. -/
def leaning : FileTree :=
  tree [([FileName.text metaName], .dir), (headPath [], text "master"),
    (branchesPath [], .link "../sub"),
    (["sub"], .dir), (["inner", "sub"], text tip.text)]

/-- The file is told by a text that leads out of the repository's own directory. -/
def stray : FileTree := tree (repository "../../../sub/inner" strayTip ++ directory "sub")

/-- Where requests are carried out: at the top of the file tree, at the start of 1970. -/
def settings : Settings := ⟨[], none, Time.Moment.epoch, fun _ => 0⟩

/-- What a request leaves behind. -/
def after (request : Request) (t : FileTree) : FileTree :=
  (request.perform settings true ⟨t, ""⟩).2.tree

/-- No links stand in a file tree into which none have been put. -/
theorem linkFree_tree {entries : List (Path × Entry)}
    (plain : ∀ entry ∈ entries, ∀ target, entry.2 ≠ .link target) (root : Path) :
    (tree entries).LinkFree root := by
  suffices laid : ∀ t : FileTree, t.LinkFree root →
      (entries.foldl (fun t entry => (t.place? entry.1 entry.2).getD t) t).LinkFree root from
    laid _ (Apart.startable.free.below (List.nil_suffix))
  induction entries with
  | nil => exact fun _ free => free
  | cons entry rest ih =>
    intro t free
    have put : ((t.place? entry.1 entry.2).getD t).LinkFree root := by
      cases hplace : t.place? entry.1 entry.2 with
      | none => exact free
      | some t' => exact free.of_place? hplace (plain entry List.mem_cons_self)
    exact ih (fun other hother => plain other (List.mem_cons_of_mem _ hother)) _ put

theorem linkFree_housed (root : Path) : housed.LinkFree root :=
  linkFree_tree (by simp [repository, directory, text]) root

/-- The subdirectory is spared when a file is taken out that does not have its name. -/
theorem spares_subdirectory :
    Unlinked [] ((Request.checkout none (some "file")).Restores [] housed) housed ∧
      (Request.checkout none (some "file")).DropsInward [] housed ∧ ("sub" : FileName) ≠ metaName ∧
      housed.at? ["sub"] = some .dir ∧ housed.at? ["inner", "sub"] = some (text "two") ∧
      (after (.checkout none (some "file")) housed).at? ["inner", "sub"] = some (text "two") := by
  have free : Unlinked [] ((Request.checkout none (some "file")).Restores [] housed) housed :=
    ⟨linkFree_housed _, fun _ _ target => linkFree_housed [] _ target List.nil_suffix⟩
  have drops : ∀ t, (Request.checkout none (some "file")).DropsInward [] t := by
    rintro t text b c ⟨⟩
  have notMeta : ("sub" : FileName) ≠ metaName := by decide
  have there : housed.at? ["sub"] = some .dir ∧
      housed.at? ["inner", "sub"] = some (text "two") := by
    decide +kernel
  have spared : ∀ t, Unlinked [] ((Request.checkout none (some "file")).Restores [] t) t →
      t.at? ["sub"] = some .dir →
      (after (.checkout none (some "file")) t).at? ["inner", "sub"] = t.at? ["inner", "sub"] := by
    intro t free hdir
    rcases @Request.spares_subdirectories t settings true (.checkout none (some "file")) "" free
      (drops t) "sub" notMeta hdir with kept | ⟨⟨text, name, writes, named, hname⟩, -⟩
    · exact kept ["inner", "sub"] ⟨["inner"], rfl⟩
    · cases writes
      rw [FileName.text.inj hname.symm] at named
      exact absurd named (by decide)
  exact ⟨free, drops _, notMeta, there.1, there.2, (spared housed free there.1).trans there.2⟩

/-- **Not all subdirectories are spared.**  A file that is taken out of a commit takes the place of
a directory; it is written behind a link that stands under its name; a branch is removed behind a
link in the repository's own directory; and a file that is dropped is staged wherever its text
leads. -/
theorem subdirectories_not_spared :
    (housed.at? ["inner", "file"] = some (text "two") ∧
      (after (.checkout none (some "file")) housed).at? ["inner", "file"] = none) ∧
    (linked.at? ["inner", "sub"] = some (text "two") ∧
      (after (.checkout none (some "file")) linked).at? ["inner", "sub"] = some (text "one")) ∧
    (leaning.at? ["inner", "sub"] = some (text tip.text) ∧
      (after (.rmBranch "inner") leaning).at? ["inner", "sub"] = none) ∧
    (stray.at? ["inner", "sub"] = some (text "two") ∧
      (after (.rm "../../../sub/inner") stray).at? ["inner", "sub"] = some (text "one")) := by
  decide +kernel

end Laid

end LocalVcs
