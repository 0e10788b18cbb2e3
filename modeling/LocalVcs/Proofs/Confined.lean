/-
# What taking out snapshots can reach

The names in a commit may be anything: whoever wrote it may have meant them to lead out of the
working directory, or into the repository's own one.  They lead nowhere else all the same.  Whatever
is taken out or merged, and whether that succeeds or fails, what changes are working files, `HEAD`,
and what lies in the directories for branches, objects, commits and what is staged.

* `Reach`: the paths at which something may change.
* `Within`: a file tree that differs from another one there only, but for directories that are made.
* `Edits.within`: edits that stage nothing change nothing else.
* `MergeStep.dir_of_write`, `dir_of_current` and their like: what has been read shows that the
  directories to be written in are there, so that they are not made.
* `Command.StagesMerge`: a merge with something to stage.
* `Request.MayChange`, `Request.confined`: what requests that take files out of snapshots can reach.
* `Laid.index_made`: the one directory that a merge may have to make.
-/
import LocalVcs.Proofs.AddedFiles
import LocalVcs.Proofs.HandedOut
import LocalVcs.Proofs.MergeLaws

namespace LocalVcs

open FileTree Layout LocalVcs.Action

variable {root p q : Path} {made : Path → Prop} {t t' t'' : FileTree}

/-! ## 1. Where something may change -/

/-- The paths at which a command may change something: a working file and what lies below it,
`HEAD`, and the entries of the repository's directories, with what lies below them. -/
inductive Reach (root : Path) : Path → Prop
  | working {name : FileName} {p : Path} : name ≠ metaName → name :: root <:+ p → Reach root p
  | head : Reach root (headPath root)
  | entry {part : String} {name : FileName} {p : Path} : part ∈ partNames →
      name :: .text part :: metaPath root <:+ p → Reach root p

namespace Reach

variable {part : String}

/-- What lies strictly below a directory of the repository is reached. -/
theorem of_below (hpart : part ∈ partNames) (below : .text part :: metaPath root <:+ p)
    (other : p ≠ .text part :: metaPath root) : Reach root p := by
  obtain ⟨front, rfl⟩ := below
  cases hlast : front.getLast? with
  | none => exact absurd (by simp [List.getLast?_eq_none_iff.mp hlast]) other
  | some name =>
    obtain ⟨init, rfl⟩ := List.getLast?_eq_some_iff.mp hlast
    have entered :
        name :: .text part :: metaPath root <:+ init ++ [name] ++ .text part :: metaPath root :=
      ⟨init, by simp⟩
    exact .entry hpart entered

/-- On the way to what lies below such a directory, that one and the one that they all lie in are
not reached. -/
theorem of_onWay (hpart : part ∈ partNames) (bottom : .text part :: metaPath root <:+ q)
    (onWay : p <:+ q)
    (below : root <:+ p) (other : p ≠ root) :
    Reach root p ∨ p = metaPath root ∨ p = .text part :: metaPath root := by
  rcases List.suffix_or_suffix_of_suffix onWay bottom with short | long
  · rcases List.suffix_cons_iff.mp short with rfl | short
    · exact Or.inr (Or.inr rfl)
    · rcases List.suffix_cons_iff.mp short with rfl | short
      · exact Or.inr (Or.inl rfl)
      · exact absurd (short.eq_of_length_le below.length_le) other
  · by_cases here : p = .text part :: metaPath root
    · exact Or.inr (Or.inr here)
    · exact Or.inl (of_below hpart long here)

end Reach

/-- From `t` to `t'` nothing changes but what may be reached, and directories that are `made` where
nothing stood.  No links are made. -/
structure Within (root : Path) (made : Path → Prop) (t t' : FileTree) : Prop where
  frame : ∀ p, t'.at? p = t.at? p ∨ Reach root p ∨
    made p ∧ t.at? p = none ∧ t'.at? p = some .dir
  noLink : ∀ p target, t'.at? p = some (.link target) → t.at? p = some (.link target)

namespace Within

theorem refl (root : Path) (made : Path → Prop) (t : FileTree) : Within root made t t :=
  ⟨fun _ => Or.inl rfl, fun _ _ h => h⟩

theorem trans (h : Within root made t t') (h' : Within root made t' t'') :
    Within root made t t'' where
  frame p := by
    rcases h.frame p with same | reached | ⟨may, new, dir⟩
    · rw [← same]
      exact h'.frame p
    · exact Or.inr (Or.inl reached)
    · rcases h'.frame p with same | reached | ⟨-, gone, -⟩
      · exact Or.inr (Or.inr ⟨may, new, same.trans dir⟩)
      · exact Or.inr (Or.inl reached)
      · rw [dir] at gone
        cases gone
  noLink p target hlink := h.noLink p target (h'.noLink p target hlink)

/-- A directory that is there already is not made. -/
theorem present {less : Path → Prop} (h : Within root made t t')
    (stands : ∀ p, made p → less p ∨ t.at? p ≠ none) : Within root less t t' where
  frame p := by
    rcases h.frame p with same | reached | ⟨may, new, dir⟩
    · exact Or.inl same
    · exact Or.inr (Or.inl reached)
    · rcases stands p may with may | there
      · exact Or.inr (Or.inr ⟨may, new, dir⟩)
      · exact absurd new there
  noLink := h.noLink

theorem linkFree (h : Within root made t t') (free : t.LinkFree root) : t'.LinkFree root :=
  fun p target below hlink => free p target below (h.noLink p target hlink)

theorem of_place? {e : Entry} (h : t.place? q e = some t') (reached : Reach root q)
    (noLink : ∀ target, e ≠ .link target) : Within root made t t' where
  frame p := by
    rw [at?_place? h]
    split
    · rename_i here
      exact Or.inr (Or.inl (here ▸ reached))
    · exact Or.inl rfl
  noLink p target hlink := by
    rw [at?_place? h] at hlink
    split at hlink
    · exact absurd (Option.some.inj hlink) (noLink target)
    · exact hlink

theorem of_cut (top : q ≠ []) (reached : ∀ p, q <:+ p → Reach root p) :
    Within root made t (t.cut q) where
  frame p := by
    rw [at?_cut top]
    split
    · rename_i below
      exact Or.inr (Or.inl (reached p below))
    · exact Or.inl rfl
  noLink p target hlink := by
    rw [at?_cut top] at hlink
    split at hlink
    · cases hlink
    · exact hlink

theorem of_madeDirs {bottom : Path} (h : MadeDirs root bottom t t')
    (onWay : ∀ p, p <:+ bottom → root <:+ p → p ≠ root → Reach root p ∨ made p) :
    Within root made t t' where
  frame p := by
    rcases h p with same | ⟨new, dir, below, other, way⟩
    · exact Or.inl same
    · exact Or.inr ((onWay p way below other).imp_right fun may => ⟨may, new, dir⟩)
  noLink p target hlink := h.at?_of_not_dir hlink (by simp)

end Within

/-! ## 2. Requests along routes -/

theorem FileTree.path_of_locateEntry {r : Route} (free : t.LinkFree r.start)
    (level : (".." : FileName) ∉ r.segments) (h : t.locateEntry r = some q) : q = r.path := by
  obtain ⟨front, last, parent, hsegments, valid, hparent, rfl⟩ := exists_of_locateEntry h
  have levelFront : (".." : FileName) ∉ front := fun hup => level (by simp [hsegments, hup])
  obtain rfl := path_of_locate (r := ⟨r.start, front⟩) free levelFront hparent
  obtain ⟨start, segments⟩ := r
  obtain rfl : segments = front ++ [last] := hsegments
  simp [Route.path_mk, List.filter_append, Route.goes_of_validName valid]

namespace Route.Inside

variable {r : Route}

theorem path_of_locate (h : r.Inside root) (free : t.LinkFree root) (hq : t.locate r = some q) :
    q = r.path := by
  obtain ⟨segments, rfl, level⟩ := h
  exact FileTree.path_of_locate free (by simpa using ⟨by decide, level⟩) hq

theorem path_of_locateEntry (h : r.Inside root) (free : t.LinkFree root)
    (hq : t.locateEntry r = some q) : q = r.path := by
  obtain ⟨segments, rfl, level⟩ := h
  exact FileTree.path_of_locateEntry free (by simpa using ⟨by decide, level⟩) hq

theorem madeDirs (h : r.Inside root) (free : t.LinkFree root) :
    MadeDirs root r.path t (t.makeDirs r).2 := by
  obtain ⟨segments, rfl, level⟩ := h
  exact makeDirs_spec (r := ⟨root, .text metaName :: segments⟩) free
    (by simpa using ⟨by decide, level⟩)

theorem path_ne_nil (h : r.Inside root) : r.path ≠ [] := fun top => by
  have below := h.below_path
  rw [top] at below
  cases List.suffix_nil.mp below

/-- What is found along such a route stands at the path that the route spells. -/
theorem at?_of_lookup? (h : r.Inside root) (free : t.LinkFree root) {e : Entry}
    (hlookup : t.lookup? r = some e) : t.at? r.path = some e := by
  obtain ⟨q, hq, hat⟩ := Option.bind_eq_some_iff.mp hlookup
  exact h.path_of_locate free hq ▸ hat

end Route.Inside

namespace Within

variable {r : Route} (free : t.LinkFree root) (inside : r.Inside root)

include free inside

theorem of_write? {content : Content} (reached : Reach root r.path)
    (h : t.write? r content = some t') : Within root made t t' := by
  obtain ⟨q, hq, hplace⟩ := exists_of_write? h
  exact of_place? hplace (inside.path_of_locate free hq ▸ reached) (by simp)

theorem of_replace? {content : Content} (reached : Reach root r.path)
    (h : t.replace? r content = some t') : Within root made t t' := by
  obtain ⟨q, hq, hplace⟩ := exists_of_replace? h
  exact of_place? hplace (inside.path_of_locateEntry free hq ▸ reached) (by simp)

theorem of_removeFile? (reached : ∀ p, r.path <:+ p → Reach root p)
    (h : t.removeFile? r = some t') : Within root made t t' := by
  obtain ⟨q, -, hq, -, -, rfl⟩ := exists_of_removeFile? h
  obtain rfl := inside.path_of_locateEntry free hq
  exact of_cut inside.path_ne_nil reached

theorem of_removeEmptyDir? (reached : ∀ p, r.path <:+ p → Reach root p)
    (h : t.removeEmptyDir? r = some t') : Within root made t t' := by
  obtain ⟨q, hq, rfl⟩ := exists_of_removeEmptyDir? h
  obtain rfl := inside.path_of_locateEntry free hq
  exact of_cut inside.path_ne_nil reached

end Within

/-! ## 3. Edits that stage nothing -/

/-- The directories that edits in a scope may make: those of the parts that they enter, and the one
that these lie in. -/
inductive Scope.Makes (root : Path) (scope : Scope) : Path → Prop
  | base {part : String} : scope.enters part → Makes root scope (metaPath root)
  | part {part : String} : part ∈ partNames → scope.enters part →
      Makes root scope (.text part :: metaPath root)

namespace Within

variable {scope : Scope}

theorem of_makeDirs {part : String} {r : Route} (free : t.LinkFree root)
    (enters : scope.enters part) (into : r.Into root part) :
    Within root (scope.Makes root) t (t.makeDirs r).2 := by
  refine .of_madeDirs (into.inside.madeDirs free) fun p onWay below other => ?_
  rcases Reach.of_onWay into.known into.below onWay below other with reached | rfl | rfl
  · exact Or.inl reached
  · exact Or.inr (.base enters)
  · exact Or.inr (.part into.known enters)

theorem of_edit (nothing : ∀ name, ¬scope.stages name) (free : t.LinkFree root)
    (h : Edit root scope t t') : Within root (scope.Makes root) t t' := by
  have notMeta {text name : String} (named : Worktree.fileName? text = some name) :
      FileName.text name ≠ metaName := FileName.text_ne (Worktree.names_of_fileName? named).notMeta
  cases h with
  | headDir enters =>
    refine .of_madeDirs (Route.Inside.metaDir.madeDirs free) fun p onWay below other => ?_
    obtain rfl | onWay := List.suffix_cons_iff.mp onWay
    · exact Or.inr (.base enters)
    · exact absurd (onWay.eq_of_length_le below.length_le) other
  | head _ h => exact of_write? free .head (path_head root ▸ .head) h
  | dirs enters into => exact of_makeDirs free enters into
  | put _ below _ h =>
    have reached := Reach.of_below below.known below.below below.other
    exact h.elim (of_write? free below.inside reached) (of_replace? free below.inside reached)
  | drop _ below h =>
    have reached : ∀ p, _ <:+ p → Reach root p := fun p more =>
      .of_below below.known (below.below.trans more) fun heq => below.other
        (((heq ▸ more).eq_of_length_le below.below.length_le))
    exact h.elim (of_removeFile? free below.inside reached)
      (of_removeEmptyDir? free below.inside reached)
  | stage _ staged => exact absurd staged (nothing _)
  | @write text name content _ _ named h =>
    exact .of_place?
      (Worktree.place?_of_write? named (fun target => free _ target (List.suffix_cons _ root)) h)
      (.working (notMeta named) (List.suffix_refl _)) (by simp)
  | clear _ named h =>
    exact Worktree.eq_cut_of_removeAll? h ▸ .of_cut (List.cons_ne_nil _ _) fun _ =>
      .working (notMeta named)
  | delete named h =>
    exact (Worktree.eq_cut_of_removeFile? h).1 ▸ .of_cut (List.cons_ne_nil _ _) fun _ =>
      .working (notMeta named)

end Within

/-- **Edits that stage nothing** change nothing but what may be reached. -/
theorem Edits.within {scope : Scope} (nothing : ∀ name, ¬scope.stages name)
    (h : Edits root scope t t') (free : t.LinkFree root) : Within root (scope.Makes root) t t' :=
  h.closed (.refl root _) .trans Within.linkFree (.of_edit nothing) free

/-! ## 4. What is found stands in directories -/

section Found

variable (free : t.LinkFree root)

include free

theorem dir_of_current {b : Branch} (hcurrent : Branches.current root t = .ok b) :
    t.at? (metaPath root) = some .dir ∧ t.at? (branchesPath root) = some .dir := by
  obtain ⟨-, isFile, -⟩ := Branches.get?_eq_some_iff.mp (Branches.of_current hcurrent).2
  obtain ⟨word, above, hpath, below⟩ := Branches.branchPath_below root b.name
  have inside : (Branches.route root b.name).Inside root :=
    ⟨.text "branches" :: segmentsOf b.name.text, Branches.route_eq root b.name, fun hup =>
      Branches.level_route root b.name (by
        rw [Branches.route_eq]
        exact List.mem_cons_of_mem _ hup)⟩
  rw [FileTree.isFile] at isFile
  split at isFile
  · rename_i content hlookup
    have hat := inside.at?_of_lookup? free hlookup
    rw [Branches.path_route, hpath] at hat
    have dir : t.at? (branchesPath root) = some .dir :=
      at?_eq_dir_of_suffix hat (below.trans (List.suffix_cons _ _))
        (Area.ne_of_longer (Nat.lt_succ_of_le below.length_le)).symm
    exact ⟨(at?_of_cons dir).2, dir⟩
  · cases isFile

theorem dir_of_encoding? {kind : Kind} {id : ObjectId} {encoding : Bytes}
    (h : Store.encoding? root kind t id = .ok (some encoding)) :
    t.at? (storePath root kind) = some .dir := by
  unfold Store.encoding? FileTree.contents? at h
  cases hlookup : t.lookup? (Layout.object root kind id) with
  | none => simp [hlookup] at h
  | some e =>
    have hat := (Route.Inside.object kind id).at?_of_lookup? free hlookup
    rw [path_object] at hat
    exact (at?_of_cons (at?_of_cons hat).2).2

theorem dir_of_commit {id : ObjectId} {c : Commit} (h : Commits.load root t id = .ok c) :
    t.at? (storePath root .commit) = some .dir := by
  obtain ⟨_, hencoding, -⟩ := Commits.get?_eq_some_iff.mp (Commits.get?_of_load h)
  exact dir_of_encoding? free hencoding

theorem dir_of_blob {id : ObjectId} {content : Bytes} (h : Blobs.load root t id = .ok content) :
    t.at? (storePath root .blob) = some .dir := by
  obtain ⟨_, hencoding, -⟩ := Blobs.get?_eq_some_iff.mp (Blobs.get?_of_load h)
  exact dir_of_encoding? free hencoding

theorem dir_of_readEntries {what : Staged} {entries : NameMap Bytes}
    (h : Staging.readEntries root t what = .ok entries) (some_ : entries.isEmpty = false) :
    t.at? (.text "index" :: metaPath root) = some .dir := by
  rw [Staging.readEntries, FileTree.exists?] at h
  split at h
  · rename_i present
    obtain ⟨e, hlookup⟩ := Option.isSome_iff_exists.mp present
    have hat := (Route.Inside.staged what).at?_of_lookup? free hlookup
    rw [path_staged] at hat
    exact (at?_of_cons hat).2
  · obtain rfl := Except.ok.inj h
    simp at some_

/-- Where something that is stored has to be cleared, the staging area stands. -/
theorem dir_of_staging {staging : Staging} (h : Staging.load root t = .ok staging)
    (changed : staging.clear.changed = true) :
    t.at? (.text "index" :: metaPath root) = some .dir := by
  obtain ⟨hadditions, hremovals, unchanged⟩ := Staging.of_load h
  have some_ : staging.isEmpty = false := by simpa [Staging.clear, unchanged] using changed
  rcases Bool.and_eq_false_iff.mp some_ with h | h
  · exact dir_of_readEntries free hadditions h
  · exact dir_of_readEntries free hremovals h

end Found

/-- **A step that writes a file** has read a blob: the one that is taken, or one of the two that
conflict. -/
theorem MergeStep.dir_of_write (free : t.LinkFree root) {split head other : Commit}
    {steps : List MergeStep} (hplan : plan root t head other (resolvedNames split head other) =
      .ok steps) {text : String} {content : Bytes} (hstep : write text content ∈ steps) :
    t.at? (storePath root .blob) = some .dir := by
  obtain ⟨resolution, hresolved, hof⟩ := exists_resolution_of_mem hplan hstep
  have tracked : ∀ {c : Commit} {blob : ObjectId} {found : Option Bytes},
      c.tracked? text = some blob → trackedContent root t c text = .ok found →
      t.at? (storePath root .blob) = some .dir := by
    intro c blob found hblob hfound
    cases hload : Blobs.load root t blob with
    | error damage => simp [trackedContent, hblob, hload, Except.map] at hfound
    | ok content => exact dir_of_blob free hload
  simp only [name] at hresolved hof
  cases resolution with
  | takeOther blob =>
    cases hload : Blobs.load root t blob with
    | error damage => simp [ofResolution, hload, Except.map] at hof
    | ok content => exact dir_of_blob free hload
  | conflict =>
    obtain ⟨-, -, apart⟩ := (Resolution.getElem?_plan_eq_conflict_iff _ _ _).mp hresolved
    simp only [ofResolution, bind, Except.bind] at hof
    split at hof
    · cases hof
    · rename_i mine hmine
      split at hof
      · cases hof
      · rename_i theirs htheirs
        cases hhead : head.tracked? text with
        | some blob => exact tracked hhead hmine
        | none =>
          cases hother : other.tracked? text with
          | some blob => exact tracked hother htheirs
          | none => exact absurd (hhead.trans hother.symm) apart
  | remove => exact absurd rfl (touches_of_write hof).2
  | keepHead => cases hof
  | unchanged => cases hof

/-! ## 5. Requests -/

/-- A merge with a branch that stages something: three snapshots are merged, and there is a file to
write or to remove. -/
def Command.StagesMerge (root : Path) (t : FileTree) (name : String) : Prop :=
  ∃ mine theirs head other split steps, ThreeWay root t name mine theirs head other split ∧
    MergeStep.plan root t head other (resolvedNames split head other) = .ok steps ∧
    steps ≠ []

namespace Request

/-- What is made where it is missing: a merge that stages something makes the directory of the
staging area. -/
def Makes (root : Path) (t : FileTree) (request : Request) (p : Path) : Prop :=
  (∃ branch, request = .merge branch ∧ Command.StagesMerge root t branch) ∧
    p = .text "index" :: metaPath root

/-- A request that takes files out of snapshots stages nothing under a name that it is given. -/
theorem TakesOut.stages_nothing {request : Request} (takes : request.TakesOut) (name : String) :
    ¬request.Stages root t name := by
  rintro (⟨⟨file, rfl | rfl⟩, -⟩ | _ | _) <;> exact takes

/-- **What such a request has found** shows that the parts of the repository that it writes in are
there; but for the staging area, where it merges and stages something. -/
theorem dir_of_enters {request : Request} (takes : request.TakesOut) (free : t.LinkFree root)
    {part : String} (h : request.Enters root t part) : t.at? (metaPath root) = some .dir ∧
      (part ∈ partNames → t.at? (.text part :: metaPath root) = some .dir ∨
        request.Makes root t (.text part :: metaPath root)) := by
  have within {p : String} (hdir : t.at? (.text p :: metaPath root) = some .dir) :
      t.at? (metaPath root) = some .dir := (at?_of_cons hdir).2
  cases h with
  | freely gives => exact absurd takes gives
  | moved hcurrent which =>
    obtain ⟨base, branches⟩ := dir_of_current free hcurrent
    refine ⟨base, fun known => Or.inl ?_⟩
    rcases which with rfl | rfl
    · exact absurd known (by decide)
    · exact branches
  | cleared hload changed =>
    have index := dir_of_staging free hload changed
    exact ⟨within index, fun _ => Or.inl index⟩
  | merged three =>
    have commits := dir_of_commit free three.loadHead
    exact ⟨within commits, fun _ => Or.inl commits⟩
  | @staged name mine theirs head other split steps three hplan some_ =>
    exact ⟨(dir_of_current free three.current).1, fun _ =>
      Or.inr ⟨⟨name, rfl, mine, theirs, head, other, split, steps, three, hplan, some_⟩, rfl⟩⟩
  | stored three hplan hstep =>
    have blobs := MergeStep.dir_of_write free hplan hstep
    exact ⟨within blobs, fun _ => Or.inl blobs⟩

/-- Of all that edits in its scope may make, the directory of the staging area is left. -/
theorem within_of_edits {request : Request} (takes : request.TakesOut) (free : t.LinkFree root)
    (h : Edits root (request.scope root t) t t') : Within root (request.Makes root t) t t' := by
  refine (h.within takes.stages_nothing free).present fun p may => ?_
  cases may with
  | base enters => exact Or.inr (by simp [(dir_of_enters takes free enters).1])
  | part known enters =>
    exact ((dir_of_enters takes free enters).2 known).symm.imp_right fun dir => by simp [dir]

/-- The paths at which such a request may change something from `t` to `t'`: a working file, with
what lies below a directory that gives place to it; `HEAD`; what lies in the directories for
branches, objects, commits and what is staged; and the last of these directories itself, which a
merge that stages something makes where it is missing. -/
inductive MayChange (root : Path) (t t' : FileTree) (request : Request) : Path → Prop
  | child {name : FileName} : name ≠ metaName → MayChange root t t' request (name :: root)
  | replaced {name : FileName} {p : Path} : name ≠ metaName → t.at? (name :: root) = some .dir →
      t'.at? (name :: root) ≠ some .dir → name :: root <:+ p → MayChange root t t' request p
  | head : MayChange root t t' request (headPath root)
  | entry {part : String} {name : FileName} {p : Path} : part ∈ partNames →
      name :: .text part :: metaPath root <:+ p → MayChange root t t' request p
  | index {branch : String} : request = .merge branch → Command.StagesMerge root t branch →
      t.at? (.text "index" :: metaPath root) = none →
      t'.at? (.text "index" :: metaPath root) = some .dir →
      MayChange root t t' request (.text "index" :: metaPath root)

/-- **A crafted snapshot leads nowhere else.**  Whatever names the commits of a repository hold, and
whatever else is damaged in it: taking files out of them, switching to them and merging them changes
nothing but working files and what belongs to the repository, whether it succeeds or fails. -/
theorem confined {settings : Settings} {guarded : Bool} {request : Request} {printed : String}
    (free : t.LinkFree settings.root) (takes : request.TakesOut) :
    (request.perform settings guarded).Leads ⟨t, printed⟩ fun _ w' => ∀ p,
      w'.tree.at? p = t.at? p ∨ request.MayChange settings.root t w'.tree p := by
  have drops : request.DropsInward settings.root t := by
    rintro text b c rfl
    exact takes.elim
  have unlinked : Unlinked settings.root (request.Restores settings.root t) t :=
    ⟨free.below (List.suffix_cons _ _), fun name _ target => free _ target (List.suffix_cons _ _)⟩
  refine Leads.mono (perform_careful settings guarded request ⟨t, printed⟩) ?_
  rintro _ w' ⟨edits, -⟩ p
  have within := within_of_edits takes free edits
  have spared := edits.spared (fun _ => inward_of_stages drops)
    (fun text name writes named => ⟨text, name, writes, named, rfl⟩) unlinked
  rcases within.frame p with same | reached | ⟨⟨⟨branch, merges, stages⟩, rfl⟩, new, dir⟩
  · exact Or.inl same
  · cases reached with
    | head => exact Or.inr .head
    | entry hpart below => exact Or.inr (.entry hpart below)
    | @working name _ notMeta below =>
      by_cases here : p = name :: settings.root
      · exact Or.inr (here ▸ .child notMeta)
      · by_cases hdir : t.at? (name :: settings.root) = some .dir
        · exact (spared.kept name notMeta hdir).imp (fun same => same p below)
            fun ⟨_, gone⟩ => .replaced notMeta hdir gone below
        · -- nothing lies below what is no directory, before and after
          have nothing : ∀ {s : FileTree}, s.at? (name :: settings.root) ≠ some .dir →
              s.at? p = none := by
            intro s noDir
            cases hat : s.at? p with
            | none => rfl
            | some e => exact absurd (at?_eq_dir_of_suffix hat below (Ne.symm here)) noDir
          exact Or.inl ((nothing fun back => hdir (spared.noDir name notMeta back)).trans
            (nothing hdir).symm)
  · exact Or.inr (.index merges stages new dir)

end Request

namespace Laid

/-- The id of the commit with `.gitlet/config`. -/
def craftedTip : ObjectId := named "2f44ae671556d34b4cbe4bd00acf796bb5ec03ed" rfl rfl

/-- A repository whose current commit holds a name that leads into the repository's own
directory. -/
def crafted : FileTree :=
  tree (repository ".gitlet/config" craftedTip ++ [(.text "config" :: metaPath [], text "two")])

/-- The file that the crafted name leads to stays as it is. -/
theorem confined_crafted : crafted.LinkFree settings.root ∧
    (Request.reset craftedTip.text).TakesOut ∧
    crafted.at? (.text "config" :: metaPath []) = some (text "two") ∧
    (after (.reset craftedTip.text) crafted).at? (.text "config" :: metaPath []) =
      some (text "two") := by
  have free : crafted.LinkFree settings.root := linkFree_tree (by simp [repository, text]) _
  have takes : (Request.reset craftedTip.text).TakesOut := trivial
  have there : crafted.at? (.text "config" :: metaPath []) = some (text "two") := by decide +kernel
  have kept : ∀ t, t.LinkFree settings.root → (after (.reset craftedTip.text) t).at?
      (.text "config" :: metaPath []) = t.at? (.text "config" :: metaPath []) := by
    intro t free
    rcases @Request.confined t settings true (.reset craftedTip.text) "" free takes
      (.text "config" :: metaPath []) with same | changes
    · exact same
    · generalize hp : .text "config" :: metaPath [] = p at changes
      cases changes with
      | child => simp [metaPath, settings] at hp
      | replaced notMeta _ _ below =>
        subst hp
        simp [metaPath, settings, List.suffix_cons_iff, notMeta] at below
      | head => simp [headPath, settings] at hp
      | entry _ below =>
        subst hp
        exact absurd below.length_le (by simp [metaPath, settings])
      | index => simp [settings] at hp
  exact ⟨free, takes, there, (kept crafted free).trans there⟩

/-- The id of the first commit. -/
def initialTip : ObjectId := named "0be787c959fcaddf54cad419cf4ecef335e3300c" rfl rfl

/-- A commit behind the first one. -/
def onward (message : String) (manifest : Manifest) : Commit :=
  ⟨message, Time.Moment.epoch, [initialTip], manifest⟩

/-- The id of the commit `ours`, with no files in it. -/
def oursTip : ObjectId := named "34a2f6da4662c5c5ad24397f7c94134369b4446a" rfl rfl

/-- The id of the commit `theirs`, with one file in it. -/
def theirsTip : ObjectId := named "dbbd7650ae97f768462946047c0a2f08a180c16a" rfl rfl

/-- Two branches that have gone apart, in a repository whose staging area is missing. -/
def unstaged : FileTree :=
  tree [([FileName.text metaName], .dir), (headPath [], text "master"), (branchesPath [], .dir),
    (.text "master" :: branchesPath [], text oursTip.text),
    (.text "other" :: branchesPath [], text theirsTip.text),
    (storePath [] .blob, .dir), (blob.directory :: storePath [] .blob, .dir),
    (objectPath [] .blob blob, .file (.packed (Object.blobEncoding (Bytes.ofText "one")))),
    (storePath [] .commit, .dir),
    (initialTip.directory :: storePath [] .commit, .dir),
    (objectPath [] .commit initialTip, .file (.packed Commit.initial.encoding)),
    (oursTip.directory :: storePath [] .commit, .dir),
    (objectPath [] .commit oursTip, .file (.packed (onward "ours" ∅).encoding)),
    (theirsTip.directory :: storePath [] .commit, .dir),
    (objectPath [] .commit theirsTip, .file (.packed
      (onward "theirs" (Std.ExtTreeMap.ofList [("file", blob)] compare)).encoding))]

/-- The directory of the staging area is neither a working file nor `HEAD`, and it lies in none of
the repository's directories. -/
theorem not_reach_index : ¬Reach [] (.text "index" :: metaPath []) := by
  generalize hp : .text "index" :: metaPath [] = p
  rintro (⟨notMeta, below⟩ | _ | ⟨-, below⟩)
  · subst hp
    simp [metaPath, List.suffix_cons_iff, notMeta] at below
  · simp [headPath] at hp
  · subst hp
    exact absurd below.length_le (by simp [metaPath])

/-- **Not only what may be reached changes**: where the staging area is missing, a merge makes its
directory. -/
theorem index_made : unstaged.LinkFree [] ∧ ¬Reach [] (.text "index" :: metaPath []) ∧
    unstaged.at? (.text "index" :: metaPath []) = none ∧
    (after (.merge "other") unstaged).at? (.text "index" :: metaPath []) = some .dir := by
  refine ⟨linkFree_tree (by simp [text]) _, not_reach_index, ?_⟩
  decide +kernel

end Laid

end LocalVcs
