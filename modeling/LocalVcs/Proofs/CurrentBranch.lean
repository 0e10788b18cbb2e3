/-
# Removing branches beside the current one

A branch that is current is not removed.  The names are compared as texts there, while it is by
their files that branches are told apart otherwise; and two names have one file where they differ in
doubled slashes only, such as `a/b` and `a//b`.  So the current branch is removed by such another
name of it, and `HEAD` names no branch then.  Every other request to remove a branch spares it.

* `Branches.Alias`: another name of a branch.
* `Branches.Alias.doubled`: one of the two has doubled slashes.
* `Command.rmBranch_current`: what becomes of the current branch.
-/
import LocalVcs.Proofs.Progress

namespace LocalVcs

open FileTree Layout

variable {root : Path} {t t' : FileTree} {b : Branch} {name other : BranchName}

namespace Branches

/-! ## 1. Reading where links are about outside -/

/-- Where the current branch can be read, the repository's own directory is there. -/
theorem sealed_of_current (noLink : t.LinkFree (metaPath root))
    (hcurrent : current root t = .ok b) : Sealed root t := by
  refine ⟨?_, noLink⟩
  obtain ⟨hhead, -⟩ := of_current hcurrent
  cases hlocate : t.locate (Layout.head root) with
  | none => simp [head, FileTree.text?, FileTree.bytes?, contents?, lookup?, hlocate] at hhead
  | some q =>
    exact dir_of_locate (by decide) (by decide) (fun target => noLink _ target (List.suffix_refl _))
      (List.cons_ne_nil (FileName.text "HEAD") []) hlocate

/-- A name that is found can be told, and has a file. -/
theorem contains_iff (h : Sealed root t) : contains root t name = true ↔
    (route root name).CanTell ∧ ∃ content, t.at? (branchPath root name) = some (.file content) := by
  by_cases tell : (route root name).CanTell
  · rw [contains, FileTree.isFile, lookup?_route h tell]
    rcases t.at? (branchPath root name) with _ | content | _ | _ <;> simp [tell]
  · simp [contains, FileTree.isFile, lookup?, locate_eq_none tell, tell]

theorem contains_of_get? (hget : get? root t name = .ok (some b)) : contains root t name = true :=
  (get?_eq_some_iff.mp hget).2.1

section Same

variable (h : Sealed root t) (h' : Sealed root t')

include h h'

theorem head_of_same (same : t'.at? (headPath root) = t.at? (headPath root)) :
    head root t' = head root t := by
  have path : (Route.mk root (metaName :: ["HEAD"])).path = headPath root := path_head root
  rw [← path] at same
  exact head_congr_of_lookup? (h.lookup?_congr h' ⟨[], "HEAD", rfl, by decide⟩ (by decide) same)

theorem load_of_same {id : ObjectId}
    (same : t'.at? (objectPath root .commit id) = t.at? (objectPath root .commit id)) :
    Commits.load root t' id = Commits.load root t id := by
  rw [← path_object root .commit id] at same
  have level : (".." : FileName) ∉
      [.text (storeName .commit), .text id.directory, .text id.fileName] :=
    level_of_names (by simp [validName_storeName, id.validName_directory, id.validName_fileName])
  exact Commits.load_congr_of_lookup? (h.lookup?_congr h'
    ⟨[storeName .commit, id.directory], id.fileName, rfl,
      Route.goes_of_validName id.validName_fileName⟩ level same)

/-- A branch whose file is as before is read as before. -/
theorem get?_of_same (same : t'.at? (branchPath root name) = t.at? (branchPath root name)) :
    get? root t' name = get? root t name := by
  obtain ⟨front, last, hsegments, goes⟩ := name.exists_last
  have hroute : route root name = ⟨root, metaName :: ("branches" :: segmentsOf name.text)⟩ :=
    route_eq root name
  have level := level_route root name
  have path := path_route root name
  refine get?_congr_of_lookup? ?_
  rw [hroute] at level path ⊢
  refine h.lookup?_congr h' ⟨"branches" :: front, last, by rw [hsegments]; rfl, goes⟩
    (fun hup => level (List.mem_cons_of_mem _ hup)) ?_
  rw [path, same]

end Same

theorem head_of_touches (h : Sealed root t) {areas : List Area} (touch : Touches root areas t t')
    (away : Area.head ∉ areas) : head root t' = head root t :=
  head_of_same h (h.of_touches touch) (touch.at?_eq Area.holds_head away)

theorem load_of_touches (h : Sealed root t) {areas : List Area} (touch : Touches root areas t t')
    (away : Area.store .commit ∉ areas) (id : ObjectId) :
    Commits.load root t' id = Commits.load root t id :=
  load_of_same h (h.of_touches touch) (touch.at?_eq Area.holds_object away)

theorem get?_of_touches (h : Sealed root t) {areas : List Area} (touch : Touches root areas t t')
    (same : t'.at? (branchPath root name) = t.at? (branchPath root name)) :
    get? root t' name = get? root t name := get?_of_same h (h.of_touches touch) same

/-- Without the file of the branch that `HEAD` names no branch is current. -/
theorem current_of_gone (h : Sealed root t) (hhead : head root t = .ok name)
    (gone : ∀ content, t.at? (branchPath root name) ≠ some (.file content)) :
    current root t = .error (.refused (.findHeadBranch name)) := by
  have missing : ¬contains root t name = true := fun found => by
    obtain ⟨-, content, hat⟩ := (contains_iff h).mp found
    exact gone content hat
  have hget : get? root t name = .ok none := if_neg missing
  simp [current, hhead, hget, bind, Except.bind]
  rfl

/-! ## 2. Other names of a branch -/

/-- Another name of a branch: it is not the same text, and it leads to the same file. -/
structure Alias (root : Path) (t : FileTree) (name other : BranchName) : Prop where
  differs : other ≠ name
  samePath : branchPath root other = branchPath root name
  found : contains root t other = true

namespace Alias

/-- **Names of one file differ in doubled slashes.** -/
theorem doubled (h : Alias root t name other) :
    ['/', '/'] <:+: name.text.toList ∨ ['/', '/'] <:+: other.text.toList := by
  by_contra hno
  obtain ⟨plain, plainOther⟩ := not_or.mp hno
  exact h.differs (branchPath_injective_of_noDouble plainOther plain h.samePath)

/-- The branch is found by its other name. -/
theorem find?_eq (h : Alias root t b.name other) (sealed_ : Sealed root t)
    (hget : get? root t b.name = .ok (some b)) :
    find? root t other.text = .ok (some ⟨other, b.tip⟩) := by
  obtain ⟨-, found, text, htext, htip⟩ := get?_eq_some_iff.mp hget
  have tell := ((contains_iff sealed_).mp found).1
  have tellOther := ((contains_iff sealed_).mp h.found).1
  have looked : t.lookup? (route root other) = t.lookup? (route root b.name) := by
    rw [lookup?_route sealed_ tell, lookup?_route sealed_ tellOther, h.samePath]
  rw [find?_text, get?_eq_some_iff]
  exact ⟨rfl, h.found, text, by rw [text?_congr looked, htext], htip⟩

end Alias

end Branches

/-! ## 3. Removing a branch -/

namespace Command

open LocalVcs.Action Branches

theorem isCurrent_eq (hcurrent : current root t = .ok b) (name : BranchName) :
    isCurrent root t name = .ok (decide (b.name = name)) := by
  rw [isCurrent, (of_current hcurrent).1]; rfl

/-- A branch that is found and not current is removed. -/
theorem rmBranch_run (h : Sealed root t) (hcurrent : current root t = .ok b) {found : Branch}
    (hfind : find? root t other.text = .ok (some found)) (differs : other ≠ b.name)
    (printed : String) :
    ∃ t', rmBranch root other.text ⟨t, printed⟩ = (.ok (), ⟨t', printed⟩) ∧
      Touches root [.branches] t t' ∧ ∀ p content, t'.at? p = some (.file content) ↔
        p ≠ branchPath root other ∧ t.at? p = some (.file content) := by
  have hget := hfind
  rw [find?_text] at hget
  obtain rfl : found.name = other := (get?_eq_some_iff.mp hget).1
  obtain ⟨tell, content, hat⟩ := (contains_iff h).mp (contains_of_get? hget)
  obtain ⟨t', hrun, touch, files⟩ := remove_run h tell hat printed
  have notCurrent : Action.read (fun t => isCurrent root t found.name) ⟨t, printed⟩ =
      (.ok false, ⟨t, printed⟩) :=
    read_run (by rw [isCurrent_eq hcurrent, decide_eq_false (Ne.symm differs)])
  refine ⟨t', ?_, touch, files⟩
  rw [rmBranch, bind_run_ok (resolveBranch_run hfind), bind_run_ok notCurrent,
    if_neg Bool.false_ne_true]
  exact hrun

/-- By another name of it the current branch is removed, and none is current then. -/
theorem rmBranch_of_alias (h : Sealed root t) (hcurrent : current root t = .ok b)
    (other_ : Alias root t b.name other) (printed : String) :
    ∃ t', rmBranch root other.text ⟨t, printed⟩ = (.ok (), ⟨t', printed⟩) ∧
      current root t' = .error (.refused (.findHeadBranch b.name)) := by
  obtain ⟨hhead, hget⟩ := of_current hcurrent
  obtain ⟨t', hrun, touch, files⟩ :=
    rmBranch_run h hcurrent (other_.find?_eq h hget) other_.differs printed
  refine ⟨t', hrun, current_of_gone (h.of_touches touch) ?_ fun content hat => ?_⟩
  · rw [head_of_touches h touch (by simp), hhead]
  · exact ((files _ content).mp hat).1 other_.samePath.symm

/-- Any other request leaves the current branch as it is. -/
theorem rmBranch_spares (h : Sealed root t) (hcurrent : current root t = .ok b) {text : String}
    (spared : ∀ other : BranchName, other.text = text → ¬Alias root t b.name other)
    (printed : String) :
    (rmBranch root text).Leads ⟨t, printed⟩ fun _ w' => current root w'.tree = .ok b ∧
      ∀ id, Commits.load root w'.tree id = Commits.load root t id := by
  have unchanged : current root t = .ok b ∧
      ∀ id, Commits.load root t id = Commits.load root t id := ⟨hcurrent, fun _ => rfl⟩
  refine leads_resolveBranch_bind ?_ fun _ => unchanged
  intro found hfind
  obtain ⟨other, rfl, hget⟩ := of_find? hfind
  by_cases differs : other = b.name
  · -- the request is refused
    obtain rfl : found.name = other := (get?_eq_some_iff.mp hget).1
    refine leads_read_bind_ok (isCurrent_eq hcurrent found.name) ?_
    rw [decide_eq_true differs.symm, if_pos rfl]
    exact leads_fail_bind unchanged
  · obtain ⟨hhead, hgetCurrent⟩ := of_current hcurrent
    obtain ⟨-, content, hat⟩ := (contains_iff h).mp (contains_of_get? hgetCurrent)
    have otherPath : branchPath root other ≠ branchPath root b.name := fun samePath =>
      spared other rfl ⟨differs, samePath, contains_of_get? hget⟩
    obtain ⟨t', hrun, touch, files⟩ := rmBranch_run h hcurrent hfind differs printed
    rw [rmBranch, bind_run_ok (resolveBranch_run hfind)] at hrun
    have hhead' : head root t' = .ok b.name := by rw [head_of_touches h touch (by simp), hhead]
    have same : t'.at? (branchPath root b.name) = t.at? (branchPath root b.name) := by
      rw [hat, (files _ content).mpr ⟨otherPath.symm, hat⟩]
    refine Leads.of_run hrun ⟨current_of_head hhead' ?_, load_of_touches h touch (by simp)⟩
    rw [get?_of_touches h touch same, hgetCurrent]

/-- **What becomes of the current branch when a branch is removed.**  By another name of it, it is
removed, and then none is current.  After any other request, whether it succeeds or not, it is
current as before and its tip can be loaded as before. -/
theorem rmBranch_current (noLink : t.LinkFree (metaPath root)) {c : Commit}
    (hcurrent : current root t = .ok b) (hload : Commits.load root t b.tip = .ok c)
    (text printed : String) :
    (rmBranch root text).Leads ⟨t, printed⟩ fun r w' =>
      (∀ other : BranchName, other.text = text → Alias root t b.name other →
        r = .ok () ∧ current root w'.tree = .error (.refused (.findHeadBranch b.name))) ∧
      ((∀ other : BranchName, other.text = text → ¬Alias root t b.name other) →
        current root w'.tree = .ok b ∧ Commits.load root w'.tree b.tip = .ok c) := by
  have sealed_ := sealed_of_current noLink hcurrent
  refine Leads.and ?_ ?_
  · by_cases aliased : ∃ other : BranchName, other.text = text ∧ Alias root t b.name other
    · obtain ⟨other, rfl, other_⟩ := aliased
      obtain ⟨t', hrun, gone⟩ := rmBranch_of_alias sealed_ hcurrent other_ printed
      exact Leads.of_run hrun fun _ _ _ => ⟨rfl, gone⟩
    · exact fun other htext other_ => absurd ⟨other, htext, other_⟩ aliased
  · intro spared
    obtain ⟨hcurrent', hsame⟩ := rmBranch_spares sealed_ hcurrent spared printed
    exact ⟨hcurrent', by rw [hsame, hload]⟩

end Command

/-! ## 4. A current branch that is lost -/

namespace Doubled

/-- A name with a doubled slash. -/
def twice : BranchName := ⟨"a//b", by decide⟩

/-- Another name of the same branch. -/
def once : BranchName := ⟨"a/b", by decide⟩

theorem branchPath_twice : branchPath [] twice = .text "b" :: .text "a" :: branchesPath [] := by
  decide

theorem branchPath_once : branchPath [] once = .text "b" :: .text "a" :: branchesPath [] := by
  decide

theorem distinct : branchPath [] twice ≠ branchPath [] BranchName.master := by
  rw [branchPath_twice, branchPath_master]
  decide

theorem tell_twice : (Branches.route [] twice).CanTell := by
  rw [Branches.route_eq]
  decide

theorem tell_once : (Branches.route [] once).CanTell := by
  rw [Branches.route_eq]
  decide

theorem valid : ∀ s ∈ segmentsOf twice.text, Route.goes s = true → ValidName s := by decide

theorem trimmed : Text.trimmed twice.text = twice.text := by
  have all : (twice.text.toList.all fun c => !Text.isBlank c) = true := by decide
  exact Text.trimmed_of_noBlank fun c hc => by simpa using List.all_eq_true.mp all c hc

/-- There is a run in which the branch comes about, behind the first commit. -/
theorem exists_made : ∃ t, Run [] (fun _ => True) Settings.Dates [] t ∧
    Commits.load [] t Commit.initial.id = .ok Commit.initial ∧
    Branches.get? [] t twice = .ok (some ⟨twice, Commit.initial.id⟩) ∧
    Branches.current [] t = .ok ⟨BranchName.master, Commit.initial.id⟩ := by
  obtain ⟨t₁, hrun₁, begun⟩ := Command.init_run Apart.startable ""
  have run₁ : Run [] (fun _ => True) Settings.Dates [] t₁ := Run.start Apart.startable.free hrun₁
  -- nothing but `master` is among the branches
  have absent : ∀ p, branchesPath [] <:+ p → p <:+ branchPath [] twice → p ≠ branchesPath [] →
      t₁.at? p = none := by
    intro p below onWay inside
    cases hat : t₁.at? p with
    | none => rfl
    | some e =>
      obtain rfl := (begun.branches p e below hat).resolve_left inside
      rw [branchPath_twice, branchPath_master] at onWay
      exact absurd onWay (by decide)
  obtain ⟨t₂, hrun₂, touch₂, h₂, hget₂, hcurrent₂⟩ :=
    Command.branch_makes begun.intact tell_twice valid
      (fun p below onWay _ => by
        by_cases inside : p = branchesPath []
        · exact Or.inr (inside ▸ begun.intact.housed.at?_branches)
        · exact Or.inl (absent p below onWay inside))
      (absent _ (Branches.below_branchPath [] twice) (List.suffix_refl _)
        (by rw [branchPath_twice]; decide))
      begun.current ""
  have hmade : (Request.branch twice.text).run [] Apart.settings.zone Apart.settings.now ⟨t₁, ""⟩ =
      (.ok (), ⟨t₂, ""⟩) := hrun₂
  exact ⟨t₂, run₁.next Apart.here rfl trivial hmade trivial (by rintro _ _ ⟨⟩),
    h₂.load_iff.mpr ⟨rfl, begun.stored.mono (touch₂.sameObjects (by simp)).grows⟩, hget₂, hcurrent₂⟩

/-- There is a run in which it becomes current. -/
theorem exists_current : ∃ t, Run [] (fun _ => True) Settings.Dates [] t ∧
    Commits.load [] t Commit.initial.id = .ok Commit.initial ∧
    Branches.current [] t = .ok ⟨twice, Commit.initial.id⟩ := by
  obtain ⟨t₂, run₂, hload₂, hget₂, hcurrent₂⟩ := exists_made
  have h₂ := run₂.intact
  have hfind₂ : Branches.find? [] t₂ twice.text = .ok (some ⟨twice, Commit.initial.id⟩) := by
    rw [Branches.find?_text, hget₂]
  have different : twice ≠ BranchName.master := by decide
  obtain ⟨t₃, hrun₃, switched, moved⟩ := Switches.run_of_clear
    (Command.checkoutBranch_leads h₂ hcurrent₂ hload₂ hfind₂ different hload₂ "")
    (by simp [Switch.Blocked, Commit.initial])
  have hchecked : (Request.checkout (some twice.text) none).run [] Apart.settings.zone
      Apart.settings.now ⟨t₂, ""⟩ = (.ok (), ⟨t₃, ""⟩) := hrun₃
  have run₃ : Run [] (fun _ => True) Settings.Dates [] t₃ :=
    run₂.next Apart.here rfl trivial hchecked trivial (by rintro _ _ ⟨⟩)
  have h₃ := run₃.intact
  refine ⟨t₃, run₃, ?_, moved.current_of_trimmed h₂ h₃ hget₂ trimmed⟩
  rw [← hload₂]
  exact Commits.load_congr h₂.housed.free h₃.housed.free
    (switched.objects .commit _ ⟨[Commit.initial.id.fileName, Commit.initial.id.directory], rfl⟩)

/-- The other name is one of this branch where it is current. -/
theorem alias_once (h : Intact [] t) {tip : ObjectId}
    (hcurrent : Branches.current [] t = .ok ⟨twice, tip⟩) : Branches.Alias [] t twice once := by
  have samePath : branchPath [] once = branchPath [] twice :=
    branchPath_once.trans branchPath_twice.symm
  obtain ⟨c, -, -, -, hat⟩ := h.of_current hcurrent
  exact ⟨by decide, samePath,
    (Branches.contains_iff h.housed.sealed).mpr ⟨tell_once, _, samePath ▸ hat⟩⟩

/-- **The current branch is lost** by a request that names it with one slash less and succeeds. -/
theorem rmBranch_loses_current : ∃ b t t', Run [] (fun _ => True) Settings.Dates [] t ∧
    Branches.current [] t = .ok b ∧ Commits.load [] t b.tip = .ok Commit.initial ∧
    Command.rmBranch [] once.text ⟨t, ""⟩ = (.ok (), ⟨t', ""⟩) ∧
    Branches.current [] t' = .error (.refused (.findHeadBranch twice)) := by
  obtain ⟨t, run, hload, hcurrent⟩ := exists_current
  have h := run.intact
  obtain ⟨t', hrun, gone⟩ :=
    Command.rmBranch_of_alias h.housed.sealed hcurrent (alias_once h hcurrent) ""
  exact ⟨_, t, t', run, hcurrent, hload, hrun, gone⟩

/-- By the one request it is lost, and by one to remove `master` it is spared. -/
theorem rmBranch_current_twice : ∃ t, t.LinkFree (metaPath []) ∧
    Branches.current [] t = .ok ⟨twice, Commit.initial.id⟩ ∧
    Commits.load [] t Commit.initial.id = .ok Commit.initial ∧
    ((Command.rmBranch [] once.text).Leads ⟨t, ""⟩ fun r w' => r = .ok () ∧
      Branches.current [] w'.tree = .error (.refused (.findHeadBranch twice))) ∧
    (Command.rmBranch [] BranchName.master.text).Leads ⟨t, ""⟩ fun _ w' =>
      Branches.current [] w'.tree = .ok ⟨twice, Commit.initial.id⟩ ∧
        Commits.load [] w'.tree Commit.initial.id = .ok Commit.initial := by
  obtain ⟨t, run, hload, hcurrent⟩ := exists_current
  have noLink := run.intact.housed.sealed.free
  have outcome := fun text => Command.rmBranch_current noLink hcurrent hload text ""
  refine ⟨t, noLink, hcurrent, hload,
    (outcome once.text).1 once rfl (alias_once run.intact hcurrent),
    (outcome BranchName.master.text).2 ?_⟩
  rintro other htext ⟨-, samePath, -⟩
  obtain rfl : other = BranchName.master := BranchName.ext htext
  exact distinct samePath.symm

end Doubled

end LocalVcs
