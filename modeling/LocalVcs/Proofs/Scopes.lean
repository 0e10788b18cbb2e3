/-
# What requests may come to

What a repository holds tells which edits a request may come to.  Whatever comes of the request, it
has done edits in that scope and nothing else; and where it has met a user error, or an object that
cannot be loaded, it has not done any.

* `Request.Writes`, `Request.Stages`, `Request.Enters`: the scope of a request, by what the
  repository holds.
* `Action.Careful`: an action that does edits in a scope only, and none where it meets an early
  fault.
* `Edits.userEdit`: a merge reads `HEAD` and the current commit again after it has written working
  files.  Nothing that it has written can have changed what is read there.
* `Request.perform_careful`: all requests are careful.
-/
import LocalVcs.Proofs.Runs
import LocalVcs.Proofs.Writing

namespace LocalVcs

open FileTree Layout LocalVcs.Action

variable {root : Path} {t t' : FileTree} {w : World}

/-! ## 1. The scope of a request -/

namespace Request

/-- The requests that take files out of snapshots: those for one file, for all files of a branch or
a commit, and for a merge. -/
def TakesOut : Request → Prop
  | checkout _ _ | reset _ | merge _ => True
  | _ => False

/-- The texts under which a request writes working files, by what the repository holds. -/
inductive Writes (root : Path) (t : FileTree) : Request → String → Prop
  /-- A file is taken out of the current commit. -/
  | file {b : Branch} {c : Commit} {text : String} : Branches.current root t = .ok b →
      Commits.load root t b.tip = .ok c → text ∈ c.manifest →
      Writes root t (.checkout none (some text)) text
  /-- A file is taken out of the commit that is named. -/
  | fileAt {commit text : String} {c : Commit} : Commits.find? root t commit = .ok (some c) →
      text ∈ c.manifest → Writes root t (.checkout (some commit) (some text)) text
  /-- All files of another branch are written when it is checked out. -/
  | branch {name text : String} {theirs : Branch} {c : Commit} :
      Branches.find? root t name = .ok (some theirs) →
      Branches.isCurrent root t theirs.name = .ok false →
      Commits.load root t theirs.tip = .ok c → text ∈ c.manifest →
      Writes root t (.checkout (some name) none) text
  /-- All files of a commit are written when the current branch is reset to it. -/
  | reset {commit text : String} {c : Commit} : Commits.find? root t commit = .ok (some c) →
      text ∈ c.manifest → Writes root t (.reset commit) text
  /-- A merge that goes forward writes all files of the other branch. -/
  | forward {name text : String} {mine theirs : Branch} {head other : Commit} :
      TwoTips root t name mine theirs head other head.id → head.id ≠ other.id →
      text ∈ other.manifest → Writes root t (.merge name) text
  /-- A merge of three snapshots writes what is taken from the other side, and what conflicts. -/
  | merge {name text : String} {mine theirs : Branch} {head other split : Commit}
      {resolution : Resolution} : ThreeWay root t name mine theirs head other split →
      (resolvedNames split head other)[text]? = some resolution → resolution.touches = true →
      resolution ≠ .remove → Writes root t (.merge name) text

/-- The names under which a request may stage something, by what the repository holds. -/
inductive Stages (root : Path) (t : FileTree) : Request → String → Prop
  /-- What is staged already is stored again when a file is staged or dropped. -/
  | kept {request : Request} {staging : Staging} {name : String} :
      (∃ file, request = .add file ∨ request = .rm file) → Staging.load root t = .ok staging →
      name ∈ staging.additions ∨ name ∈ staging.removals → Stages root t request name
  /-- A working file that is there is staged. -/
  | added {file : String} : Worktree.contains root t file = true → Stages root t (.add file) file
  /-- A file that the current commit tracks is staged to be dropped. -/
  | dropped {file : String} {b : Branch} {c : Commit} : Branches.current root t = .ok b →
      Commits.load root t b.tip = .ok c → file ∈ c.manifest → Stages root t (.rm file) file

/-- The parts of a repository that a request may write in.  For one that takes files out of
snapshots this is told by what it has found there. -/
inductive Enters (root : Path) (t : FileTree) : Request → String → Prop
  | freely {request : Request} {part : String} : ¬request.TakesOut → Enters root t request part
  /-- `HEAD` or the current branch is moved. -/
  | moved {request : Request} {b : Branch} {part : String} : Branches.current root t = .ok b →
      part = "HEAD" ∨ part = "branches" → Enters root t request part
  /-- What was staged is cleared. -/
  | cleared {request : Request} {staging : Staging} : Staging.load root t = .ok staging →
      staging.clear.changed = true → Enters root t request "index"
  /-- A merge of three snapshots stores a commit. -/
  | merged {name : String} {mine theirs : Branch} {head other split : Commit} :
      ThreeWay root t name mine theirs head other split →
      Enters root t (.merge name) (storeName .commit)
  /-- A merge of three snapshots that stages something stores and clears it. -/
  | staged {name : String} {mine theirs : Branch} {head other split : Commit}
      {steps : List MergeStep} : ThreeWay root t name mine theirs head other split →
      MergeStep.plan root t head other (resolvedNames split head other) = .ok steps → steps ≠ [] →
      Enters root t (.merge name) "index"
  /-- A merge of three snapshots that writes a file stores its contents. -/
  | stored {name : String} {mine theirs : Branch} {head other split : Commit}
      {steps : List MergeStep} {text : String} {content : Bytes} :
      ThreeWay root t name mine theirs head other split →
      MergeStep.plan root t head other (resolvedNames split head other) = .ok steps →
      .write text content ∈ steps → Enters root t (.merge name) (storeName .blob)

/-- What a request may come to, by what the repository holds. -/
def scope (root : Path) (t : FileTree) (request : Request) : Scope :=
  ⟨request.Writes root t, request.Stages root t, request.Enters root t⟩

end Request

/-! ## 2. Careful actions -/

namespace Action

variable {α β : Type} {a : Action α} {f : α → Action β} {scope : Scope}

/-- From a world an action does nothing but edits in a scope; where it meets an early fault, and no
links are about, it has not done any. -/
def Careful (root : Path) (scope : Scope) (a : Action α) (w : World) : Prop :=
  a.Leads w fun r w' => Edits root scope w.tree w'.tree ∧
    (w.tree.LinkFree root → ∀ fault, r = .error fault → fault.IsEarly → w' = w)

theorem Writes.careful (h : a.Writes root scope w) : a.Careful root scope w :=
  Leads.mono h fun _ _ ⟨edits, late⟩ =>
    ⟨edits, fun _ fault hfault early => absurd early (late fault hfault)⟩

/-- **An early fault leaves the world as it is.** -/
theorem Careful.unchanged (h : a.Careful root scope w) (free : w.tree.LinkFree root) {fault : Fault}
    (early : fault.IsEarly) {w' : World} (hrun : a w = (.error fault, w')) : w' = w := by
  rw [Careful, Leads, hrun] at h
  exact h.2 free fault rfl early

/-- An action that has ended where it began. -/
theorem careful_here {r : Except Fault α} :
    Edits root scope w.tree w.tree ∧
      (w.tree.LinkFree root → ∀ fault, r = .error fault → fault.IsEarly → w = w) :=
  ⟨.refl _ _ _, fun _ _ _ _ => rfl⟩

theorem careful_fail {error : UserError} : (fail error : Action α).Careful root scope w :=
  careful_here

theorem careful_fail_bind {error : UserError} :
    ((fail error : Action α) >>= f).Careful root scope w :=
  leads_fail_bind careful_here

theorem careful_read_bind {view : FileTree → Except Fault α}
    (next : ∀ x, view w.tree = .ok x → (f x).Careful root scope w) :
    (read view >>= f).Careful root scope w :=
  leads_read_bind next fun _ _ => careful_here

theorem Careful.bind (h : a.Careful root scope w) (next : ∀ x w', (f x).Writes root scope w') :
    (a >>= f).Careful root scope w :=
  Leads.bind h
    (fun x w' ⟨before, _⟩ => (next x w').mono fun _ _ ⟨after, late⟩ =>
      ⟨before.trans after, fun _ fault hfault early => absurd early (late fault hfault)⟩)
    fun _ _ ⟨edits, same⟩ => ⟨edits, fun free met hmet =>
      same free met (congrArg Except.error (Except.error.inj hmet))⟩

end Action

/-! ## 3. What a merge reads again -/

namespace UserEdit

theorem refl (free : t.LinkFree root) : UserEdit root t t := ⟨fun _ _ => rfl, free⟩

theorem trans {t'' : FileTree} (h : UserEdit root t t') (h' : UserEdit root t' t'') :
    UserEdit root t t'' :=
  ⟨fun p inside => (h'.within p inside).trans (h.within p inside), h'.free⟩

/-- The same commits can be loaded. -/
theorem load_eq (h : UserEdit root t t') (free : t.LinkFree root) (id : ObjectId) :
    Commits.load root t' id = Commits.load root t id :=
  Commits.load_congr free h.free (h.at?_eq Area.holds_object (by simp))

end UserEdit

/-- **What is done to working files is what the user might do to them**: it stays outside the
repository's own directory, whatever the tree is like, as long as there are no links in it. -/
theorem Edits.userEdit {writes : String → Prop}
    (h : Edits root ⟨writes, fun _ => False, fun _ => False⟩ t t') (free : t.LinkFree root) :
    UserEdit root t t' := by
  refine h.closed (R := fun t t' => t.LinkFree root → UserEdit root t t')
    (I := fun t => t.LinkFree root) (fun _ => .refl) (fun first next free => ?_)
    (fun edit free => (edit free).free) (fun free edit _ => ?_) free free
  · exact (first free).trans (next (first free).free)
  · cases edit with
    | headDir enters | head enters | dirs enters | put enters | drop enters | stage enters =>
      exact enters.elim
    | write _ named h =>
      have hplace := Worktree.place?_of_write? named
        (fun target => free _ target (List.suffix_cons _ _)) h
      exact .of_workEdit (.of_place? hplace (List.suffix_refl _) (by simp))
        (Worktree.names_of_fileName? named).notMeta free
    | clear _ named h =>
      exact Worktree.eq_cut_of_removeAll? h ▸ .of_workEdit .of_cut
        (Worktree.names_of_fileName? named).notMeta free
    | delete named h =>
      exact (Worktree.eq_cut_of_removeFile? h).1 ▸ .of_workEdit .of_cut
        (Worktree.names_of_fileName? named).notMeta free

/-! ## 4. Steps of a merge -/

namespace MergeStep

/-- Only where the other side's contents are taken, or both conflict, is a file written. -/
theorem touches_of_write {head other : Commit} {text : String} {content : Bytes}
    {resolution : Resolution}
    (h : ofResolution root t head other text resolution = .ok (some (write text content))) :
    resolution.touches = true ∧ resolution ≠ .remove := by
  cases resolution with
  | takeOther blob => exact ⟨rfl, by simp⟩
  | conflict => exact ⟨rfl, by simp⟩
  | remove =>
    simp only [ofResolution, bind, Except.bind, pure, Except.pure] at h
    split at h
    · cases h
    · rename_i mine _
      cases mine <;> cases h
  | keepHead => cases h
  | unchanged => cases h

/-- A step is that of a resolved name. -/
theorem exists_resolution_of_mem {head other : Commit} {resolved : NameMap Resolution}
    {steps : List MergeStep} (hplan : plan root t head other resolved = .ok steps)
    {step : MergeStep}
    (hstep : step ∈ steps) : ∃ resolution, resolved[step.name]? = some resolution ∧
      ofResolution root t head other step.name resolution = .ok (some step) := by
  simp only [plan, bind, Except.bind] at hplan
  split at hplan
  · cases hplan
  · rename_i results hresults
    obtain rfl := Except.ok.inj hplan
    obtain ⟨result, hresult, hsome⟩ := List.mem_filterMap.mp hstep
    obtain rfl : result = some step := hsome
    obtain ⟨⟨n, resolution⟩, hentry, hof⟩ := exists_of_mem_mapM hresults hresult
    obtain rfl : step.name = n := name_of_ofResolution hof
    exact ⟨resolution, Std.ExtTreeMap.mem_toList_iff_getElem?_eq_some.mp hentry, hof⟩

/-- A step that writes a file is that of a name that is resolved so. -/
theorem exists_resolution_of_write {head other : Commit} {resolved : NameMap Resolution}
    {steps : List MergeStep} (hplan : plan root t head other resolved = .ok steps) {text : String}
    {content : Bytes} (hstep : write text content ∈ steps) :
    ∃ resolution, resolved[text]? = some resolution ∧ resolution.touches = true ∧
      resolution ≠ .remove := by
  obtain ⟨resolution, hresolved, hof⟩ := exists_resolution_of_mem hplan hstep
  exact ⟨resolution, hresolved, touches_of_write hof⟩

/-- Where no step writes a file, none is staged to be recorded. -/
theorem mem_additions_of_applyAll {steps : List MergeStep} {staging staged : Staging} {w w' : World}
    (h : applyAll root steps staging w = (.ok staged, w')) {name : String}
    (hname : name ∈ staged.additions) :
    name ∈ staging.additions ∨ ∃ content, write name content ∈ steps := by
  induction steps generalizing staging w with
  | nil =>
    obtain rfl : staging = staged := Except.ok.inj (Prod.mk.inj h).1
    exact Or.inl hname
  | cons step rest ih =>
    cases step with
    | write text content =>
      obtain ⟨_, w₁, -, hrest⟩ := of_bind_ok h
      rcases ih hrest with hadded | ⟨content', hstep⟩
      · rcases NameMap.mem_insert.mp hadded with rfl | hadded
        · exact Or.inr ⟨content, List.mem_cons_self⟩
        · exact Or.inl hadded
      · exact Or.inr ⟨content', List.mem_cons_of_mem _ hstep⟩
    | remove text content =>
      obtain ⟨_, w₁, -, hrest⟩ := of_bind_ok h
      rcases ih hrest with hadded | ⟨content', hstep⟩
      · exact Or.inl (Std.ExtTreeMap.mem_of_mem_erase hadded)
      · exact Or.inr ⟨content', List.mem_cons_of_mem _ hstep⟩

end MergeStep

/-! ## 5. Commands -/

namespace Command

section Rules

variable {α β : Type} {scope : Scope}

theorem careful_undamaged_bind {load : FileTree → Except Damage α} {f : α → Action β}
    (next : ∀ x, load w.tree = .ok x → (f x).Careful root scope w) :
    (undamaged load >>= f).Careful root scope w :=
  leads_undamaged_bind next fun _ => careful_here

theorem careful_headCommit_bind {f : Commit → Action β}
    (next : ∀ b c, Branches.current root w.tree = .ok b → Commits.load root w.tree b.tip = .ok c →
      (f c).Careful root scope w) : (headCommit root >>= f).Careful root scope w :=
  leads_headCommit_bind next fun _ => careful_here

theorem careful_resolveCommit_bind {text : String} {f : Commit → Action β}
    (next : ∀ c, Commits.find? root w.tree text = .ok (some c) → (f c).Careful root scope w) :
    (resolveCommit root text >>= f).Careful root scope w :=
  leads_resolveCommit_bind next fun _ => careful_here

theorem careful_resolveBranch_bind {missing : UserError} {text : String} {f : Branch → Action β}
    (next : ∀ b, Branches.find? root w.tree text = .ok (some b) → (f b).Careful root scope w) :
    (resolveBranch root missing text >>= f).Careful root scope w :=
  leads_resolveBranch_bind next fun _ => careful_here

end Rules

theorem init_careful (w : World) :
    (init root).Careful root (Request.init.scope root w.tree) w := by
  have enters : ∀ part, Request.init.Enters root w.tree part := fun part => .freely id
  have base : (Layout.metaDir root).Spelled := Route.spelled_metaDir
  refine careful_read_bind fun present _ => ?_
  split
  · exact careful_fail_bind
  · refine Writes.careful ((writes_makeDirs late_refused fun _ =>
      .dirs (enters _) (.store .blob) (base.child _)).bind fun _ w₁ => ?_)
    refine (writes_makeDirs late_refused fun _ =>
      .dirs (enters _) (.store .commit) (base.child _)).bind fun _ w₂ => ?_
    refine (writes_makeDirs late_refused fun _ =>
      .dirs (enters _) .branches (base.child _)).bind fun _ w₃ => ?_
    refine (writes_makeDirs late_refused fun _ =>
      .dirs (enters _) (.staged .addition) ((base.child _).child _)).bind fun _ w₄ => ?_
    refine (writes_makeDirs late_refused fun _ =>
      .dirs (enters _) (.staged .removal) ((base.child _).child _)).bind fun _ w₅ => ?_
    refine (Writes.orFault (Commits.save_writes (enters _) _ w₅) late_refused).bind fun _ w₆ => ?_
    refine (Branches.save_writes (enters _) _ w₆).bind fun _ w₇ => ?_
    exact Writes.orFault (Branches.setHead_writes (enters _) _ w₇) late_refused

theorem add_careful (file : String) (w : World) :
    (add root file).Careful root ((Request.add file).scope root w.tree) w := by
  refine careful_read_bind fun present hpresent => ?_
  split
  · rename_i found
    obtain rfl := Except.ok.inj hpresent
    refine careful_read_bind fun staging hstaging => careful_read_bind fun content _ => ?_
    refine careful_headCommit_bind fun _ head _ _ => Writes.careful ?_
    have index : ((Request.add file).scope root w.tree).enters "index" := Request.Enters.freely id
    have kept : ∀ name, name ∈ staging.additions ∨ name ∈ staging.removals →
        ((Request.add file).scope root w.tree).stages name := fun name held =>
      Request.Stages.kept ⟨file, Or.inl rfl⟩ hstaging held
    refine (Staging.save_writes (fun _ => index) (fun name hname => ?_) (fun name hname =>
      kept name (Or.inr (mem_stageContent.2 name hname))) w).discard
    rcases mem_stageContent.1 name hname with rfl | hname
    · exact Request.Stages.added found
    · exact kept name (Or.inl hname)
  · exact careful_fail_bind

theorem rm_careful (file : String) (w : World) :
    (rm root file).Careful root ((Request.rm file).scope root w.tree) w := by
  refine careful_read_bind fun staging hstaging => careful_headCommit_bind fun b head hb hhead => ?_
  have index : ((Request.rm file).scope root w.tree).enters "index" := Request.Enters.freely id
  have kept : ∀ name, name ∈ staging.additions ∨ name ∈ staging.removals →
      ((Request.rm file).scope root w.tree).stages name := fun name held =>
    Request.Stages.kept ⟨file, Or.inr rfl⟩ hstaging held
  have additions : ∀ name ∈ (staging.unstageAddition file).additions,
      ((Request.rm file).scope root w.tree).stages name := fun name hname =>
    kept name (Or.inl (Std.ExtTreeMap.mem_of_mem_erase hname))
  split
  · rename_i blob htracked
    have held : file ∈ head.manifest := NameMap.mem_iff_exists_getElem?.mpr ⟨blob, htracked⟩
    refine careful_undamaged_bind fun content _ => Writes.careful ?_
    refine (Worktree.remove_writes file w).bind fun _ w' => ?_
    refine (Staging.save_writes (fun _ => index) (fun name hname =>
      additions name (Std.ExtTreeMap.mem_of_mem_erase hname)) (fun name hname => ?_) w').discard
    rcases NameMap.mem_insert.mp hname with rfl | hname
    · exact Request.Stages.dropped hb hhead held
    · exact kept name (Or.inr hname)
  · split
    · exact (Staging.save_writes (fun _ => index) additions
        (fun name hname => kept name (Or.inr hname)) w).discard.careful
    · exact careful_fail_bind

section Recording

variable {scope : Scope} {staging : Staging} (branches : scope.enters "branches")
  (commits : scope.enters (storeName .commit))
  (index : staging.clear.changed = true → scope.enters "index")
  (blobs : ∀ name ∈ staging.additions, scope.enters (storeName .blob))

include branches commits index blobs

theorem storing_writes (branch : BranchName) (c : Commit) (w : World) :
    (storing root staging branch c).Writes root scope w := by
  have listed : ∀ entry ∈ staging.additions.toList, scope.enters (storeName .blob) :=
    fun entry hentry => blobs entry.1 (NameMap.mem_iff_exists_getElem?.mpr
      ⟨entry.2, Std.ExtTreeMap.mem_toList_iff_getElem?_eq_some.mp hentry⟩)
  refine (saveBlobs_writes listed w).bind fun _ w₁ => (Commits.save_writes commits _ w₁).bind
    fun _ w₂ => (Branches.save_writes branches _ w₂).bind fun _ w₃ => ?_
  exact (Staging.clear_save_writes index w₃).discard

/-- **Recording writes only** where there is something to record, and a commit to record it
behind. -/
theorem record_writes {date : Time.Moment} {message : String} {merged : Option ObjectId}
    {b : Branch}
    {parent : Commit} (titled : message ≠ "") (some_ : ¬(staging.isEmpty ∧ merged = none))
    (hcurrent : Branches.current root w.tree = .ok b)
    (hload : Commits.load root w.tree b.tip = .ok parent) :
    (record root date staging message merged).Writes root scope w := by
  obtain ⟨t, printed⟩ := w
  rw [record_accepted titled some_]
  exact leads_bind_of_run (read_run hcurrent) (leads_bind_of_run (loadCommit_run hload)
    (storing_writes branches commits index blobs _ _ _))

theorem record_careful (date : Time.Moment) (message : String) (merged : Option ObjectId)
    (w : World) : (record root date staging message merged).Careful root scope w :=
  leads_record (fun _ => careful_here) fun _ _ _ _ _ _ =>
    (storing_writes branches commits index blobs _ _ w).careful

end Recording

theorem commit_careful (date : Time.Moment) (message : String) (w : World) :
    (commit root date message).Careful root ((Request.commit message).scope root w.tree) w := by
  have enters : ∀ part, (Request.commit message).Enters root w.tree part := fun part => .freely id
  exact careful_read_bind fun staging _ => record_careful (enters _) (enters _) (fun _ => enters _)
    (fun _ _ => enters _) date message none w

section Reports

variable (scope : Scope)

theorem log_careful (zone : Time.Zone) (w : World) : (log root zone).Careful root scope w :=
  careful_headCommit_bind fun _ _ _ _ => careful_undamaged_bind fun _ _ => writes_print.careful

theorem globalLog_careful (zone : Time.Zone) (w : World) :
    (globalLog root zone).Careful root scope w :=
  careful_undamaged_bind fun _ _ => writes_print.careful

theorem find_careful (message : String) (w : World) : (find root message).Careful root scope w := by
  refine careful_undamaged_bind fun commits _ => ?_
  dsimp only
  split
  · exact careful_fail_bind
  · exact writes_print.careful

theorem status_careful (w : World) : (status root).Careful root scope w := by
  refine careful_read_bind fun staging _ => careful_read_bind fun branches _ => ?_
  refine careful_read_bind fun current _ => careful_headCommit_bind fun _ head _ _ => ?_
  exact careful_read_bind fun working _ => writes_print.careful

end Reports

theorem restoreFile_careful {scope : Scope} {c : Commit} {file : String}
    (can : file ∈ c.manifest → scope.writes file) (w : World) :
    (restoreFile root c file).Careful root scope w := by
  unfold restoreFile
  split
  · exact careful_fail
  · rename_i blob htracked
    have held : file ∈ c.manifest := NameMap.mem_iff_exists_getElem?.mpr ⟨blob, htracked⟩
    exact careful_undamaged_bind fun content _ =>
      (Worktree.write_writes (can held) content w).careful

/-- The files that a switch writes are those of its target. -/
theorem writes_of_plan {s : Switch} {current target : Commit} {writes : String → Prop}
    (can : ∀ text ∈ target.manifest, writes text) (h : Switch.plan root t current target = .ok s) :
    ∀ entry ∈ s.writes, writes entry.1 := by
  intro entry hentry
  obtain ⟨blob, held, -⟩ := (Switch.mem_loadFiles (Switch.of_plan h).2).mp hentry
  exact can entry.1 (NameMap.mem_iff_exists_getElem?.mpr ⟨blob, held⟩)

theorem switchTo_careful {scope : Scope} {staging : Staging} {branch : Branch}
    (can : ∀ c, Commits.load root w.tree branch.tip = .ok c →
      ∀ text ∈ c.manifest, scope.writes text)
    (index : staging.clear.changed = true → scope.enters "index")
    (head : ∀ b, Branches.current root w.tree = .ok b → scope.enters "HEAD") :
    (switchTo root staging branch).Careful root scope w := by
  refine careful_headCommit_bind fun b current hb _ =>
    careful_undamaged_bind fun target htarget => ?_
  refine careful_read_bind fun switch hswitch => Writes.careful ?_
  exact (Switch.apply_writes (writes_of_plan (can target htarget) hswitch) index w).bind
    fun _ w' => Branches.setHead_writes (head b hb) _ w'

theorem checkoutBranch_careful (name : String) (w : World) : (checkoutBranch root name).Careful root
    ((Request.checkout (some name) none).scope root w.tree) w := by
  refine careful_resolveBranch_bind fun theirs hfound =>
    careful_read_bind fun isCurrent hcurrent => ?_
  cases isCurrent with
  | true => exact careful_fail_bind
  | false =>
    exact careful_read_bind fun staging hstaging => switchTo_careful
      (fun c hc text held => .branch hfound hcurrent hc held)
      (fun changed => .cleared hstaging changed)
      fun b hb => .moved hb (Or.inl rfl)

theorem reset_careful (commit : String) (w : World) :
    (reset root commit).Careful root ((Request.reset commit).scope root w.tree) w := by
  refine careful_resolveCommit_bind fun target htarget =>
    careful_read_bind fun staging hstaging => ?_
  refine careful_read_bind fun branch hbranch => careful_undamaged_bind fun current _ => ?_
  refine careful_read_bind fun switch hswitch => Writes.careful ?_
  have can : ∀ text ∈ target.manifest, ((Request.reset commit).scope root w.tree).writes text :=
    fun text held => Request.Writes.reset htarget held
  have index : staging.clear.changed = true →
      ((Request.reset commit).scope root w.tree).enters "index" := fun changed =>
    Request.Enters.cleared hstaging changed
  have branches : ((Request.reset commit).scope root w.tree).enters "branches" :=
    Request.Enters.moved hbranch (Or.inr rfl)
  exact (Switch.apply_writes (writes_of_plan can hswitch) index w).bind fun _ w' =>
    Branches.save_writes branches _ w'

theorem branch_careful (text : String) (w : World) :
    (branch root text).Careful root ((Request.branch text).scope root w.tree) w := by
  have branches : ((Request.branch text).scope root w.tree).enters "branches" :=
    Request.Enters.freely id
  unfold branch
  split
  · exact careful_fail
  · refine careful_read_bind fun present _ => ?_
    split
    · exact careful_fail_bind
    · exact careful_read_bind fun current _ => (Branches.save_writes branches _ w).careful

theorem rmBranch_careful (text : String) (w : World) :
    (rmBranch root text).Careful root ((Request.rmBranch text).scope root w.tree) w := by
  have branches : ((Request.rmBranch text).scope root w.tree).enters "branches" :=
    Request.Enters.freely id
  refine careful_resolveBranch_bind fun branch _ => careful_read_bind fun isCurrent _ => ?_
  split
  · exact careful_fail_bind
  · exact (Branches.remove_writes branches _ w).careful

/-- What the steps of a merge stage tells in which parts of the repository it is stored. -/
theorem enters_of_applyAll {name : String} {staging staged : Staging} {mine theirs : Branch}
    {split head other : Commit} {steps : List MergeStep} {w' : World}
    (three : ThreeWay root w.tree name mine theirs head other split)
    (hstaging : Staging.load root w.tree = .ok staging)
    (hplan : MergeStep.plan root w.tree head other (resolvedNames split head other) = .ok steps)
    (hrun : MergeStep.applyAll root steps staging w = (.ok staged, w')) :
    (staged.clear.changed = true → ((Request.merge name).scope root w.tree).enters "index") ∧
      ∀ n ∈ staged.additions,
        ((Request.merge name).scope root w.tree).enters (storeName .blob) := by
  obtain ⟨staging', hstaging', nothing⟩ := three.nothing
  obtain rfl := Except.ok.inj (hstaging'.symm.trans hstaging)
  refine ⟨fun changed => Request.Enters.staged three hplan ?_, fun n hn => ?_⟩
  · -- without a step the staging area is the one that was read, and is not stored again
    rintro rfl
    obtain rfl : staging' = staged := Except.ok.inj (Prod.mk.inj hrun).1
    simp [Staging.clear, (Staging.of_load hstaging).2.2, nothing] at changed
  · rcases MergeStep.mem_additions_of_applyAll hrun hn with held | ⟨content, hstep⟩
    · rw [Staging.isEmpty, Bool.and_eq_true, Std.ExtTreeMap.isEmpty_iff] at nothing
      simp [nothing.1] at held
    · exact Request.Enters.stored three hplan hstep

/-- The steps of a merge leave what is read again for the recording. -/
theorem mergeTips_careful {name message : String} {date : Time.Moment} {staging : Staging}
    {mine theirs : Branch} {split head other : Commit}
    (three : ThreeWay root w.tree name mine theirs head other split)
    (hstaging : Staging.load root w.tree = .ok staging) (titled : message ≠ "") :
    (mergeTips root date staging message split head other).Careful root
      ((Request.merge name).scope root w.tree) w := by
  refine careful_read_bind fun working _ => ?_
  dsimp only
  split
  · exact careful_fail_bind
  · refine careful_undamaged_bind fun steps hplan => ?_
    have can : ∀ text content, MergeStep.write text content ∈ steps →
        (Request.merge name).Writes root w.tree text := by
      intro text content hstep
      obtain ⟨resolution, hresolved, touched, stays⟩ :=
        MergeStep.exists_resolution_of_write hplan hstep
      exact .merge three hresolved touched stays
    -- while the steps are carried out, working files are all that is edited
    have working : (MergeStep.applyAll root steps staging).Writes root
        ⟨(Request.merge name).Writes root w.tree, fun _ => False, fun _ => False⟩ w :=
      MergeStep.applyAll_writes can staging w
    have applied : (MergeStep.applyAll root steps staging).Writes root
        ((Request.merge name).scope root w.tree) w := MergeStep.applyAll_writes can staging w
    have run : (MergeStep.applyAll root steps staging).Leads w fun r w' =>
        MergeStep.applyAll root steps staging w = (r, w') := rfl
    refine ((applied.and working).and run).bind ?_ ?_
    · rintro staged w' ⟨⟨⟨edits, -⟩, ⟨worked, -⟩⟩, hrun⟩
      obtain ⟨index, blobs⟩ := enters_of_applyAll three hstaging hplan hrun
      have branches : ((Request.merge name).scope root w.tree).enters "branches" :=
        Request.Enters.moved three.current (Or.inr rfl)
      have commits : ((Request.merge name).scope root w.tree).enters (storeName .commit) :=
        Request.Enters.merged three
      have last (w'' : World) :
          (if (Resolution.plan split.manifest head.manifest other.manifest).toList.any
            fun entry => entry.2 = .conflict then Action.print "Encountered a merge conflict.\n"
            else pure ()).Writes root ((Request.merge name).scope root w.tree) w'' :=
        writes_print_if
      have records := (record_careful branches commits index blobs date message (some other.id)
        w').bind fun _ => last
      refine ⟨edits.trans records.1, fun free fault hfault early => ?_⟩
      have user := worked.userEdit free
      have recorded : (record root date staged message (some other.id)).Writes root
          ((Request.merge name).scope root w.tree) w' :=
        record_writes branches commits index blobs titled (by simp)
          ((user.current_eq free).trans three.current) ((user.load_eq free _).trans three.loadHead)
      exact absurd early ((recorded.bind fun _ => last).2 fault hfault)
    · rintro fault w' ⟨⟨⟨edits, late⟩, -⟩, -⟩
      exact ⟨edits, fun _ met hmet early =>
        absurd early (late met (congrArg Except.error (Except.error.inj hmet)))⟩

theorem merge_careful (date : Time.Moment) (name : String) (w : World) :
    (merge root date name).Careful root ((Request.merge name).scope root w.tree) w := by
  obtain ⟨t, printed⟩ := w
  refine leads_merge (fun _ => careful_here)
    (fun _ _ _ _ _ => ⟨.refl _ _ _, by rintro _ _ ⟨⟩⟩) ?_ ?_
  · intro staging mine theirs head other hstaging tips notBehind
    refine Careful.bind (switchTo_careful (w := ⟨t, printed⟩) (fun c hc text held => ?_)
      (fun changed => .cleared hstaging changed) fun b hb => .moved hb (Or.inl rfl))
        fun _ _ => writes_print
    obtain rfl := Except.ok.inj (tips.loadOther.symm.trans hc)
    exact .forward tips notBehind held
  · intro staging mine theirs head other split hstaging three
    exact mergeTips_careful (w := ⟨t, printed⟩) three hstaging (by simp [mergeMessage])

end Command

/-! ## 6. Requests -/

namespace Request

theorem run_careful (request : Request) (zone : Time.Zone) (date : Time.Moment) (w : World) :
    (request.run root zone date).Careful root (request.scope root w.tree) w := by
  cases request with
  | init => exact Command.init_careful w
  | add file => exact Command.add_careful file w
  | commit message => exact Command.commit_careful date message w
  | rm file => exact Command.rm_careful file w
  | log => exact Command.log_careful _ zone w
  | globalLog => exact Command.globalLog_careful _ zone w
  | find message => exact Command.find_careful _ message w
  | status => exact Command.status_careful _ w
  | checkout target file =>
    cases target with
    | none =>
      cases file with
      | none => exact careful_fail
      | some file =>
        refine Command.careful_headCommit_bind fun b c hb hc => ?_
        have can : file ∈ c.manifest →
            ((Request.checkout none (some file)).scope root w.tree).writes file :=
          Request.Writes.file hb hc
        exact Command.restoreFile_careful can w
    | some target =>
      cases file with
      | none => exact Command.checkoutBranch_careful target w
      | some file =>
        refine Command.careful_resolveCommit_bind fun c hfound => ?_
        have can : file ∈ c.manifest →
            ((Request.checkout (some target) (some file)).scope root w.tree).writes file :=
          Request.Writes.fileAt hfound
        exact Command.restoreFile_careful can w
  | branch name => exact Command.branch_careful name w
  | rmBranch name => exact Command.rmBranch_careful name w
  | reset target => exact Command.reset_careful target w
  | merge name => exact Command.merge_careful date name w

/-- **All requests are careful.** -/
theorem perform_careful (settings : Settings) (guarded : Bool) (request : Request) (w : World) :
    (request.perform settings guarded).Careful settings.root
      (request.scope settings.root w.tree) w :=
  leads_perform_of_run (fun _ => careful_here) fun date => request.run_careful settings.zone date w

end Request

end LocalVcs
