/-
# What commands ask of the file system

A command changes the file tree by a few kinds of edits only: `HEAD` is written; in a directory of
the repository directories are made, and files are written and removed; something is staged under
its name; and working files are written and deleted.  Which of them a command may come to is its
scope.

Whatever holds of each edit in a scope, and can be told of one step after the other, holds of all
that a command does in that scope, wherever it stops.

* `Route.Inside`, `Route.Into`, `Route.Below`: routes into the repository's own directory, and into
  the directories that commands write in.
* `Scope`, `Edit`: the edits that a command may come to.
* `Edits`, `Edits.closed`: edits one after the other, and what holds of all of them.
-/
import LocalVcs.Proofs.BranchPaths
import LocalVcs.Proofs.Refs
import LocalVcs.Proofs.WorkingFiles
import Mathlib.Logic.Relation

namespace LocalVcs

open FileTree Layout

variable {root : Path} {t t' : FileTree}

/-! ## 1. Routes into the repository -/

/-- A route into the repository's own directory that leads nowhere up. -/
def Route.Inside (root : Path) (r : Route) : Prop :=
  ∃ segments, r = ⟨root, .text metaName :: segments⟩ ∧ (".." : FileName) ∉ segments

namespace Route.Inside

variable {r : Route} {q : Path}

theorem below_path (h : r.Inside root) : metaPath root <:+ r.path := by
  obtain ⟨segments, rfl, -⟩ := h
  refine ⟨(segments.filter Route.goes).reverse, ?_⟩
  rw [Route.path_mk, List.filter_cons_of_pos (by decide), List.reverse_cons, List.append_assoc]
  rfl

theorem below_of_locate (h : r.Inside root) (free : t.LinkFree (metaPath root))
    (hq : t.locate r = some q) : metaPath root <:+ q := by
  obtain ⟨segments, rfl, level⟩ := id h
  have noUp : (".." : FileName) ∉ .text metaName :: segments := by simpa using ⟨by decide, level⟩
  exact path_of_locate_enter free (by decide) noUp hq ▸ h.below_path

theorem below_of_locateEntry (h : r.Inside root) (free : t.LinkFree (metaPath root))
    (hq : t.locateEntry r = some q) : metaPath root <:+ q := by
  obtain ⟨segments, rfl, level⟩ := id h
  have noUp : (".." : FileName) ∉ .text metaName :: segments := by simpa using ⟨by decide, level⟩
  exact path_of_locateEntry_enter free (by decide) noUp hq ▸ h.below_path

theorem child (h : r.Inside root) {name : FileName} (noUp : ".." ≠ name) :
    (r.child name).Inside root := by
  obtain ⟨segments, rfl, level⟩ := h
  exact ⟨segments ++ [name], rfl, by simpa using ⟨level, noUp⟩⟩

/-- The directory of what lies in the repository's own directory is that one, or lies in it too. -/
theorem parent {segments front : List FileName} {last : FileName}
    (level : (".." : FileName) ∉ segments) (hends : segments = front ++ [last])
    (goes : Route.goes last = true) :
    (Route.mk root (.text metaName :: segments)).parent.Inside root := by
  have hends' : (Route.mk root (.text metaName :: segments)).segments =
      (.text metaName :: front) ++ [last] := by simp [hends]
  obtain ⟨hstart, starts, hpath⟩ := Route.parent_spec hends' goes
  generalize (Route.mk root (.text metaName :: segments)).parent = above at hstart starts hpath
  obtain ⟨start, _ | ⟨first, rest⟩⟩ := above
  · -- the route has two steps at least
    obtain rfl : start = root := hstart
    have := congrArg List.length hpath
    simp [Route.path_mk, hends, goes, show Route.goes metaName = true by decide,
      List.filter_append] at this
    omega
  · obtain rfl : start = root := hstart
    obtain ⟨rfl, restStarts⟩ := List.cons_prefix_cons.mp starts
    exact ⟨rest, rfl, fun hup => level (restStarts.subset hup)⟩

theorem metaDir : (Layout.metaDir root).Inside root := ⟨[], rfl, by simp⟩

theorem head : (Layout.head root).Inside root := metaDir.child (by decide)

theorem branches : (Layout.branches root).Inside root := metaDir.child (by decide)

theorem staged (what : Staged) : (Layout.staged root what).Inside root :=
  (metaDir.child (by decide)).child (validName_stagedName what).noUp

theorem store (kind : Kind) : (Layout.store root kind).Inside root :=
  metaDir.child (validName_storeName kind).noUp

theorem objectDir (kind : Kind) (id : ObjectId) :
    ((Layout.store root kind).child id.directory).Inside root :=
  (store kind).child id.validName_directory.noUp

theorem object (kind : Kind) (id : ObjectId) : (Layout.object root kind id).Inside root :=
  (objectDir kind id).child id.validName_fileName.noUp

end Route.Inside

/-- The names of the directories of a repository that commands write in. -/
def Layout.partNames : List String := ["branches", "index", storeName .blob, storeName .commit]

namespace Route

/-- A route to a directory that commands write in, or to something below it. -/
structure Into (root : Path) (part : String) (r : Route) : Prop where
  known : part ∈ partNames
  inside : r.Inside root
  below : .text part :: metaPath root <:+ r.path

/-- A route to something below a directory that commands write in. -/
structure Below (root : Path) (part : String) (r : Route) : Prop extends r.Into root part where
  other : r.path ≠ .text part :: metaPath root

/-- A route that is told by texts. -/
def Spelled (r : Route) : Prop := ∀ s ∈ r.segments, ∃ text, s = .text text

variable {r : Route} {part : String}

theorem Spelled.child (h : r.Spelled) (text : String) : (r.child text).Spelled := by
  intro s hs
  rcases List.mem_append.mp hs with hs | hs
  · exact h s hs
  · exact ⟨text, List.mem_singleton.mp hs⟩

theorem spelled_metaDir : (Layout.metaDir root).Spelled :=
  fun _ hs => ⟨metaName, List.mem_singleton.mp hs⟩

/-- What lies behind a name in such a directory lies below it. -/
theorem Into.child (h : r.Into root part) {name : FileName} (valid : ValidName name) :
    (r.child name).Below root part := by
  have hpath : (r.child name).path = name :: r.path :=
    Route.path_child (Route.goes_of_validName valid) r
  refine ⟨⟨h.known, h.inside.child valid.noUp, ?_⟩, ?_⟩
  · rw [hpath]
    exact h.below.trans (List.suffix_cons _ _)
  · rw [hpath]
    exact Area.ne_of_longer (Nat.lt_succ_of_le h.below.length_le)

end Route

/-! ### The routes that commands take -/

namespace Route

theorem Into.branches : (Layout.branches root).Into root "branches" where
  known := by decide
  inside := .branches
  below := by rw [path_branches]; exact List.suffix_refl _

theorem Into.staged (what : Staged) : (Layout.staged root what).Into root "index" where
  known := by decide
  inside := .staged what
  below := by rw [path_staged]; exact List.suffix_cons _ _

theorem Into.store (kind : Kind) : (Layout.store root kind).Into root (storeName kind) where
  known := by cases kind <;> decide
  inside := .store kind
  below := by rw [path_store]; exact List.suffix_refl _

theorem Into.objectDir (kind : Kind) (id : ObjectId) :
    ((Layout.store root kind).child id.directory).Into root (storeName kind) :=
  ((Into.store kind).child id.validName_directory).toInto

theorem Below.object (kind : Kind) (id : ObjectId) :
    (Layout.object root kind id).Below root (storeName kind) :=
  (Into.objectDir kind id).child id.validName_fileName

theorem Below.branch (name : BranchName) : (Branches.route root name).Below root "branches" := by
  obtain ⟨word, above, hpath, below⟩ := Branches.branchPath_below root name
  have level := Branches.level_route root name
  refine ⟨⟨by decide,
    ⟨.text "branches" :: segmentsOf name.text, Branches.route_eq root name, ?_⟩, ?_⟩, ?_⟩
  · rw [Branches.route_eq] at level
    exact fun hup => level (List.mem_cons_of_mem _ hup)
  · rw [Branches.path_route, hpath]
    exact below.trans (List.suffix_cons _ _)
  · rw [Branches.path_route, hpath]
    exact Area.ne_of_longer (Nat.lt_succ_of_le below.length_le)

theorem spelled_branch (name : BranchName) : (Branches.route root name).Spelled := by
  intro s hs
  rw [Branches.route_eq] at hs
  rcases List.mem_append.mp hs with hs | hs
  · simp only [List.mem_cons, List.not_mem_nil, or_false] at hs
    rcases hs with rfl | rfl <;> exact ⟨_, rfl⟩
  · exact exists_text_of_mem_segmentsOf hs

/-- The directory that the file of a branch lies in. -/
theorem Into.branchDir (name : BranchName) :
    (Branches.route root name).parent.Into root "branches" ∧
    (Branches.route root name).parent.Spelled := by
  obtain ⟨front, last, hsegments, goes⟩ := name.exists_last
  obtain ⟨word, above, hpath, below⟩ := Branches.branchPath_below root name
  obtain ⟨⟨-, inside, -⟩, -⟩ : (Branches.route root name).Below root "branches" := .branch name
  obtain ⟨segments, hroute, level⟩ := inside
  obtain rfl : segments = .text "branches" :: segmentsOf name.text :=
    (List.cons.inj (Route.mk.inj (hroute.symm.trans (Branches.route_eq root name))).2).2
  have hends :
      .text "branches" :: segmentsOf name.text = (.text "branches" :: front) ++ [last] := by
    rw [hsegments]; rfl
  have hends' : (Branches.route root name).segments =
      (.text metaName :: .text "branches" :: front) ++ [last] := by
    rw [hroute, hends]; rfl
  obtain ⟨-, starts, hparent⟩ := Route.parent_spec hends' goes
  rw [Branches.path_route, hpath] at hparent
  refine ⟨⟨by decide, ?_, (List.cons.inj hparent).2 ▸ below⟩, fun s hs =>
    spelled_branch name s (starts.subset hs)⟩
  rw [hroute]
  exact .parent level hends goes

end Route

/-! ## 2. Edits -/

/-- What a command may come to: the texts under which it may write working files, the names under
which it may stage something, and the names of the parts of the repository that it may write in. -/
structure Scope where
  writes : String → Prop
  stages : String → Prop
  enters : String → Prop

/-- The edits of a file tree that are in a scope. -/
inductive Edit (root : Path) (scope : Scope) (t : FileTree) : FileTree → Prop
  /-- The directory of the repository is made where `HEAD` is to be written. -/
  | headDir (enters : scope.enters "HEAD") : Edit root scope t (t.makeDirs (Layout.metaDir root)).2
  /-- `HEAD` is written. -/
  | head {content : Content} {t' : FileTree} (enters : scope.enters "HEAD")
      (h : t.write? (Layout.head root) content = some t') : Edit root scope t t'
  /-- A directory in a part of the repository is made, with those above it. -/
  | dirs {part : String} {r : Route} (enters : scope.enters part) (into : r.Into root part)
      (spelled : r.Spelled) : Edit root scope t (t.makeDirs r).2
  /-- A file in a part of the repository is written. -/
  | put {part : String} {r : Route} {content : Content} {t' : FileTree} (enters : scope.enters part)
      (below : r.Below root part) (spelled : r.Spelled)
      (h : t.write? r content = some t' ∨ t.replace? r content = some t') : Edit root scope t t'
  /-- A file or an empty directory in a part of the repository is removed. -/
  | drop {part : String} {r : Route} {t' : FileTree} (enters : scope.enters part)
      (below : r.Below root part) (h : t.removeFile? r = some t' ∨ t.removeEmptyDir? r = some t') :
      Edit root scope t t'
  /-- A file is staged, under whatever text. -/
  | stage {what : Staged} {name : String} {content : Content} {t' : FileTree}
      (enters : scope.enters "index") (stages : scope.stages name)
      (h : t.write? ((Layout.staged root what).join name) content = some t') : Edit root scope t t'
  /-- A working file is written. -/
  | write {text name : String} {content : Content} {t' : FileTree} (writes : scope.writes text)
      (named : Worktree.fileName? text = some name)
      (h : t.write? ⟨root, [name]⟩ content = some t') : Edit root scope t t'
  /-- What stands in the place of a working file that is to be written is removed. -/
  | clear {text name : String} {t' : FileTree} (writes : scope.writes text)
      (named : Worktree.fileName? text = some name)
      (h : t.removeAll? ⟨root, [name]⟩ = some t') : Edit root scope t t'
  /-- A working file is deleted. -/
  | delete {text name : String} {t' : FileTree} (named : Worktree.fileName? text = some name)
      (h : t.removeFile? ⟨root, [name]⟩ = some t') : Edit root scope t t'

/-- Edits in a scope, one after the other. -/
def Edits (root : Path) (scope : Scope) : FileTree → FileTree → Prop :=
  Relation.ReflTransGen (Edit root scope)

namespace Edits

variable {scope : Scope} {t'' : FileTree}

theorem refl (root : Path) (scope : Scope) (t : FileTree) : Edits root scope t t :=
  Relation.ReflTransGen.refl

theorem trans (h : Edits root scope t t') (h' : Edits root scope t' t'') : Edits root scope t t'' :=
  Relation.ReflTransGen.trans h h'

theorem of_edit (h : Edit root scope t t') : Edits root scope t t' := Relation.ReflTransGen.single h

/-- **What holds of each edit holds of all of them together**, if it can be told of one step after
the other; `I` is what it takes of the trees on the way, and what is kept by it. -/
theorem closed {R : FileTree → FileTree → Prop} {I : FileTree → Prop} (refl : ∀ t, R t t)
    (trans : ∀ {t t' t''}, R t t' → R t' t'' → R t t'') (keeps : ∀ {t t'}, R t t' → I t → I t')
    (step : ∀ {t t'}, I t → Edit root scope t t' → R t t') (h : Edits root scope t t')
    (start : I t) :
    R t t' := by
  induction h with
  | refl => exact refl t
  | tail _ edit before => exact trans before (step (keeps before start) edit)

end Edits

end LocalVcs
