/-
# Who moves which pointer

Branches stand for commits, and `HEAD` names one of them.  A request that succeeds moves at most one
of these pointers: a commit, a merge of two branches that have gone apart and a reset move the
current branch; making and removing a branch leave all the others where they are; checking out and
catching up with another branch move `HEAD`.  All else moves none, and a request that fails moves
none either.

* `Branches.tips`: the map of branches to tips, read off the list of all branches.
* `Branches.tips_of_repointed`: what becomes of it when one file of a branch changes.
* `Steers`: what each request may do to the pointers.
* `Run.steers`: this for every request in every state of a run.
-/
import LocalVcs.Proofs.Effects
import LocalVcs.Proofs.WellFormed

namespace LocalVcs

open FileTree Layout History

variable {root : Path} {t t' : FileTree} {mine : Branch} {head : Commit} {staging : Staging}
  {date : Time.Moment}

/-! ## 1. The map of branches to tips -/

namespace Branches

/-- The commit that the list of all branches gives for a name. -/
def tips (root : Path) (t : FileTree) (name : BranchName) : Option ObjectId :=
  match all root t with
  | .ok bs => (bs.find? fun b => b.name = name).map Branch.tip
  | .error _ => none

variable {name : BranchName} {id : ObjectId}

theorem tips_eq_some_iff_listed {bs : List Branch} (hall : all root t = .ok bs) :
    tips root t name = some id ↔
      name ∈ names root t ∧ get? root t name = .ok (some ⟨name, id⟩) := by
  have listed := mem_all_iff hall (b := ⟨name, id⟩)
  rw [← listed, tips, hall, Option.map_eq_some_iff]
  constructor
  · rintro ⟨b, hfind, rfl⟩
    obtain rfl : b.name = name := by simpa using List.find?_some hfind
    exact List.mem_of_find?_eq_some hfind
  · intro hmem
    cases hfind : bs.find? fun b => b.name = name with
    | none => simpa using List.find?_eq_none.mp hfind _ hmem
    | some b =>
      obtain rfl : b.name = name := by simpa using List.find?_some hfind
      have hb := ((mem_all_iff hall).mp (List.mem_of_find?_eq_some hfind)).2
      have same : b = ⟨b.name, id⟩ :=
        Option.some.inj (Except.ok.inj (hb.symm.trans (listed.mp hmem).2))
      exact ⟨b, rfl, by rw [same]⟩

/-- **A tip is what the file holds** whose names spell the branch. -/
theorem tips_eq_some_iff (h : Intact root t) : tips root t name = some id ↔
    t.at? ((segmentsOf name.text).reverse ++ branchesPath root) =
      some (.file (.plain (Bytes.ofText id.text))) := by
  obtain ⟨bs, hall⟩ := all_run h.housed h.refs
  rw [tips_eq_some_iff_listed hall, mem_names_iff h.housed h.refs]
  constructor
  · rintro ⟨⟨content, hat⟩, hget⟩
    obtain ⟨c, -, hget', rfl⟩ := get?_of_spelled h.housed h.refs hat
    rw [hget] at hget'
    cases hget'
    exact hat
  · intro hat
    obtain ⟨c, -, hget, hcontent⟩ := get?_of_spelled h.housed h.refs hat
    obtain rfl : c.id = id := by
      have same : Bytes.ofText id.text = Bytes.ofText c.id.text := by simpa using hcontent
      exact (ObjectId.ext (Bytes.ofText_injective same)).symm
    exact ⟨⟨_, hat⟩, hget⟩

/-- Reading one branch gives its tip, where the name has no doubled slashes. -/
theorem get?_eq_tips (h : Intact root t) (noDouble : ¬['/', '/'] <:+: name.text.toList) :
    get? root t name = .ok ((tips root t name).map fun id => ⟨name, id⟩) := by
  have spelled := BranchName.branchPath_eq noDouble root
  rcases get?_cases h.housed h.refs name with ⟨c, -, hget, -, hat⟩ | ⟨hget, hnone⟩
  · rw [spelled] at hat
    rw [hget, (tips_eq_some_iff h).mpr hat]
    rfl
  · cases htip : tips root t name with
    | none => exact hget
    | some id =>
      have hat := (tips_eq_some_iff h).mp htip
      rw [← spelled] at hat
      exact absurd hat (hnone (tell_of_spelled h.refs spelled hat) _)

theorem tips_eq_some_of_get? (h : Intact root t) (noDouble : ¬['/', '/'] <:+: name.text.toList)
    {b : Branch} (hget : get? root t name = .ok (some b)) : tips root t name = some b.tip := by
  rw [get?_eq_tips h noDouble] at hget
  obtain ⟨id, hid, rfl⟩ := Option.map_eq_some_iff.mp (Except.ok.inj hget)
  exact hid

/-- As long as no file of a branch changes, the tips are the same. -/
theorem tips_of_sameFiles (h : Intact root t) (h' : Intact root t') (same : SameFiles root t t') :
    tips root t' = tips root t := by
  funext name
  refine Option.ext fun id => ?_
  rw [tips_eq_some_iff h', tips_eq_some_iff h]
  exact same _ _ (List.suffix_append _ _)

/-- **One tip changes** where the file of one branch does. -/
theorem tips_of_repointed (h : Intact root t) (h' : Intact root t') {tip : Option ObjectId}
    (noDouble : ¬['/', '/'] <:+: name.text.toList) (repointed : Repointed root name tip t t') :
    tips root t' = Function.update (tips root t) name tip := by
  funext other
  refine Option.ext fun id => ?_
  rw [tips_eq_some_iff h', repointed _ _ (List.suffix_append _ _),
    BranchName.branchPath_eq noDouble]
  by_cases same : other = name
  · subst same
    rw [if_pos rfl, Function.update_self]
    cases tip with
    | none => simp
    | some tip =>
      simp only [Option.map_some, Option.some.injEq, Content.plain.injEq]
      exact ⟨fun heq => ObjectId.ext (Bytes.ofText_injective heq), fun heq => heq ▸ rfl⟩
  · have apart : (segmentsOf other.text).reverse ++ branchesPath root ≠
        (segmentsOf name.text).reverse ++ branchesPath root := fun heq => same
      (BranchName.ext (segmentsOf_injective (List.reverse_inj.mp (List.append_cancel_right heq))))
    rw [if_neg apart, Function.update_of_ne same, tips_eq_some_iff h]

/-- Where the file of `HEAD` and the tip of the current branch stay as they are, the branch stays
current. -/
theorem current_of_tips (h : Intact root t) (h' : Intact root t') (plain : PlainName mine.name.text)
    (hcurrent : current root t = .ok mine)
    (same : t'.at? (headPath root) = t.at? (headPath root))
    (tip : tips root t' mine.name = tips root t mine.name) : current root t' = .ok mine := by
  obtain ⟨hhead, hget⟩ := of_current hcurrent
  refine current_of_head (head_congr h.housed.free h'.housed.free same |>.trans hhead) ?_
  rw [get?_eq_tips h' plain.1, tip, tips_eq_some_of_get? h plain.1 hget]
  rfl

end Branches

theorem SameFiles.of_at? (same : ∀ p, branchesPath root <:+ p → t'.at? p = t.at? p) :
    SameFiles root t t' := fun p content below => by rw [same p below]

theorem Touches.sameFiles {areas : List Area} (touch : Touches root areas t t')
    (away : .branches ∉ areas) : SameFiles root t t' :=
  SameFiles.of_at? fun _ below => touch.at?_below_branches away below

/-! ## 2. What requests may do -/

/-- Whether a request may move a pointer. -/
def Request.Moves : Request → Prop
  | .commit _ | .merge _ | .reset _ | .branch _ | .rmBranch _ | .checkout (some _) none => True
  | _ => False

/-- A commit can be loaded by its id, unless another commit with this id was stored before. -/
def Lands (root : Path) (t t' : FileTree) (c : Commit) : Prop :=
  Commits.load root t' c.id = .ok c ∨ ∃ before, before ≠ c ∧ Commits.load root t c.id = .ok before

/-- From `t` to `t'`, what a request with its result does to the pointers: to the branch `n` that
`HEAD` names, with its tip, and to the map `B` of branches to tips. -/
inductive Steers (root : Path) (t t' : FileTree) (n : BranchName) (tip : ObjectId)
    (B : BranchName → Option ObjectId) :
    Request → Except Fault Unit → BranchName → (BranchName → Option ObjectId) → Prop
  | failed {request : Request} {fault : Fault} : Steers root t t' n tip B request (.error fault) n B
  | other {request : Request} : ¬request.Moves → Steers root t t' n tip B request (.ok ()) n B
  | commit {message : String} {c : Commit} : c.parents = [tip] → Lands root t t' c →
      Steers root t t' n tip B (.commit message) (.ok ()) n (Function.update B n (some c.id))
  | reset {text : String} {c : Commit} : Commits.find? root t text = .ok (some c) →
      Steers root t t' n tip B (.reset text) (.ok ()) n (Function.update B n (some c.id))
  | branch {x : BranchName} : B x = none →
      Steers root t t' n tip B (.branch x.text) (.ok ()) n (Function.update B x (some tip))
  | rmBranch {x : BranchName} : x ≠ n → B x ≠ none →
      Steers root t t' n tip B (.rmBranch x.text) (.ok ()) n (Function.update B x none)
  | checkout {x : BranchName} : x ≠ n → B x ≠ none →
      Steers root t t' n tip B (.checkout (some x.text) none) (.ok ()) x B
  /-- The tip of the other branch is an ancestor of the current commit. -/
  | behind {x : BranchName} {other : ObjectId} : B x = some other →
      Ancestor (Commits.load root t) other tip →
      Steers root t t' n tip B (.merge x.text) (.ok ()) n B
  /-- The histories part at the current commit. -/
  | forward {x : BranchName} {other : ObjectId} : x ≠ n → B x = some other →
      ¬Ancestor (Commits.load root t) other tip →
      splitPoint (Commits.load root t) (Commits.walkBound t) tip other = .ok (some tip) →
      Steers root t t' n tip B (.merge x.text) (.ok ()) x B
  /-- The histories part at a third commit. -/
  | merge {x : BranchName} {other split : ObjectId} {c : Commit} : x ≠ n → B x = some other →
      ¬Ancestor (Commits.load root t) other tip →
      splitPoint (Commits.load root t) (Commits.walkBound t) tip other = .ok (some split) →
      split ≠ tip → c.parents = [tip, other] → Lands root t t' c →
      Steers root t t' n tip B (.merge x.text) (.ok ()) n (Function.update B n (some c.id))

/-! ## 3. What they do -/

/-- What is recorded can be loaded, unless another commit with its id was stored before. -/
theorem Recorded.lands {b : Branch} {r : Recording} {t₁ : FileTree}
    (recorded : Recorded root b r t₁ t') (h : Intact root t) (same : SameObjects root t t₁) :
    Lands root t t' r.made := by
  obtain ⟨c, stored, hid, hc⟩ := recorded.stored
  by_cases own : c = r.made
  · subst own
    exact Or.inl (recorded.intact.load_commit stored)
  · have before := hc.resolve_left own
    exact Or.inr ⟨c, own, h.load_iff.mpr ⟨hid, before.readable, same.stored_iff.mp before.stored⟩⟩

/-- What is recorded is the new tip of its branch. -/
theorem Recorded.tips {b : Branch} {r : Recording} {t₁ : FileTree}
    (recorded : Recorded root b r t₁ t') (h : Intact root t₁) (plain : PlainName b.name.text) :
    Branches.tips root t' = Function.update (Branches.tips root t₁) b.name (some r.made.id) :=
  Branches.tips_of_repointed h recorded.intact plain.1 recorded.moved.repointed

/-- The branch that is found has the name that was asked for, and its tip is in the map. -/
theorem Branches.tips_of_find? (h : Intact root t) {text : String} {b : Branch}
    (plain : PlainName text) (hfind : find? root t text = .ok (some b)) :
    b.name.text = text ∧ tips root t b.name = some b.tip := by
  obtain ⟨name, rfl, hget⟩ := of_find? hfind
  obtain rfl : b.name = name := (get?_eq_some_iff.mp hget).1
  exact ⟨rfl, tips_eq_some_of_get? h plain.1 hget⟩

/-- The pointers go from `t`, where `mine` is current, to `t'` where a request may steer them. -/
def Steered (root : Path) (mine : Branch) (t t' : FileTree) (request : Request)
    (r : Except Fault Unit) : Prop :=
  ∃ n', Branches.head root t' = .ok n' ∧
    Steers root t t' mine.name mine.tip (Branches.tips root t) request r n' (Branches.tips root t')

namespace Finds

open Branches

variable (finds : Finds root t mine head staging) (h' : Intact root t')

include finds

theorem tip_eq : head.id = mine.tip := Commits.id_of_load finds.load

include h'

theorem head_of_held (same : t'.at? (headPath root) = t.at? (headPath root)) :
    Branches.head root t' = .ok mine.name := by
  rw [head_congr finds.intact.housed.free h'.housed.free same]
  exact (of_current finds.current).1

/-- Where neither `HEAD` nor the file of a branch changes, no pointer moves. -/
theorem steered_of_still {request : Request} {r : Except Fault Unit}
    (same : t'.at? (headPath root) = t.at? (headPath root)) (files : SameFiles root t t')
    (still : (∃ fault, r = .error fault) ∨ r = .ok () ∧ ¬request.Moves) :
    Steered root mine t t' request r := by
  refine ⟨mine.name, finds.head_of_held h' same, ?_⟩
  rw [tips_of_sameFiles finds.intact h' files]
  rcases still with ⟨fault, rfl⟩ | ⟨rfl, still⟩
  · exact .failed
  · exact .other still

/-- Where `HEAD` moves, the tips stay. -/
theorem pointers_of_headMoved {x : BranchName} (hx : PlainName x.text)
    (moved : HeadMoved root x t t') :
    Branches.head root t' = .ok x ∧ tips root t' = tips root t :=
  ⟨HeadStands.head_eq h'.housed hx moved.head,
    tips_of_sameFiles finds.intact h' (SameFiles.of_at? moved.branches)⟩

/-- A commit moves the current branch. -/
theorem steered_of_recorded {message : String} (plain : PlainName mine.name.text)
    (recorded : Recorded root mine ⟨message, date, head, staging, none⟩ t t') :
    Steered root mine t t' (.commit message) (.ok ()) := by
  refine ⟨mine.name, finds.head_of_held h' (recorded.touch.at?_eq Area.holds_head (by simp)), ?_⟩
  rw [recorded.tips finds.intact plain]
  have parents : [head.id] = [mine.tip] := by rw [finds.tip_eq]
  exact .commit parents (recorded.lands finds.intact (SameObjects.refl root t))

/-- Catching up with another branch moves `HEAD`. -/
theorem steered_of_forwarded {text : String} {theirs : Branch} {other : Commit}
    (hplain : PlainName text) (tips : TwoTips root t text mine theirs head other head.id)
    (ahead : head.id ≠ other.id) (moved : HeadMoved root theirs.name t t') :
    Steered root mine t t' (.merge text) (.ok ()) := by
  obtain ⟨rfl, htip⟩ := tips_of_find? finds.intact hplain tips.found
  obtain ⟨hhead', same⟩ := finds.pointers_of_headMoved h' hplain moved
  obtain ⟨meet, behind⟩ := finds.intact.meet_of_tips finds.load tips.loadOther tips.meet
  rw [Commits.id_of_load tips.loadOther] at ahead
  rw [finds.tip_eq] at meet
  refine ⟨_, hhead', ?_⟩
  rw [same]
  exact .forward tips.distinct htip (fun hanc => ahead (behind.mpr hanc)) meet

/-- A merge of two branches that have gone apart moves the current one. -/
theorem steered_of_merged {text : String} {theirs : Branch} {other split : Commit}
    {steps : List MergeStep} {t₁ : FileTree} (plain : PlainName mine.name.text)
    (hplain : PlainName text) (three : ThreeWay root t text mine theirs head other split)
    (merged : Merged root date mine theirs head other split steps t t₁ t') :
    Steered root mine t t' (.merge text) (.ok ()) := by
  obtain ⟨rfl, htip⟩ := tips_of_find? finds.intact hplain three.found
  obtain ⟨meet, behind⟩ := finds.intact.meet_of_tips finds.load three.loadOther three.meet
  have theirTip := Commits.id_of_load three.loadOther
  have kept : Kept False root t t₁ := Kept.of_work finds.intact merged.work
  have held : t'.at? (headPath root) = t.at? (headPath root) := by
    rw [merged.recorded.touch.at?_eq Area.holds_head (by simp),
      merged.work.at?_eq Area.holds_head (by simp)]
  have parents : [head.id, other.id] = [mine.tip, theirs.tip] := by rw [finds.tip_eq, theirTip]
  refine ⟨mine.name, finds.head_of_held h' held, ?_⟩
  rw [merged.recorded.tips kept.intact plain,
    tips_of_sameFiles finds.intact kept.intact (merged.work.sameFiles (by simp))]
  exact .merge (three.distinct finds.intact) htip
    (fun hanc => three.behind ((behind.mpr hanc).trans theirTip.symm)) meet
    (finds.tip_eq ▸ three.ahead) parents (merged.recorded.lands finds.intact kept.objects)

end Finds

namespace Effect

variable {request : Request} {r : Except Fault Unit}

open Branches in
/-- **What a request does to the pointers.** -/
theorem steered (effect : Effect root t mine head staging date request r t')
    (finds : Finds root t mine head staging) (plain : PlainName mine.name.text)
    (hplain : request.Plain) (h' : Intact root t') : Steered root mine t t' request r := by
  have h := finds.intact
  cases effect with
  | refused => exact finds.steered_of_still h' rfl (.of_at? fun _ _ => rfl) (.inl ⟨_, rfl⟩)
  | reported reports =>
    refine finds.steered_of_still h' rfl (.of_at? fun _ _ => rfl) (.inr ⟨rfl, ?_⟩)
    cases request <;> simp_all [Request.Moves, Request.Reports]
  | staged _ _ touch | dropped _ _ touch | unstaged _ _ touch =>
    exact finds.steered_of_still h' (touch.at?_eq Area.holds_head (by simp))
      (touch.sameFiles (by simp)) (.inr ⟨rfl, id⟩)
  | @restored target file _ _ _ _ _ _ _ trackable edit =>
    have touch := edit.touches trackable.notMeta
    refine finds.steered_of_still h' (touch.at?_eq Area.holds_head (by simp))
      (touch.sameFiles (by simp)) (.inr ⟨rfl, ?_⟩)
    cases target <;> exact id
  | committed _ _ recorded => exact finds.steered_of_recorded h' plain recorded
  | switched other _ moved =>
    obtain ⟨rfl, htip⟩ := tips_of_find? h hplain other.found
    obtain ⟨hhead', same⟩ := finds.pointers_of_headMoved h' hplain moved
    exact ⟨_, hhead', by rw [same]; exact .checkout other.distinct (by simp [htip])⟩
  | reset hfind _ moved =>
    refine ⟨mine.name, finds.head_of_held h' moved.head, ?_⟩
    rw [tips_of_repointed h h' plain.1 moved.moved.repointed]
    exact .reset hfind
  | branched absent _ touch repointed =>
    refine ⟨mine.name, finds.head_of_held h' (touch.at?_eq Area.holds_head (by simp)), ?_⟩
    rw [tips_of_repointed h h' hplain.1 repointed]
    rw [get?_eq_tips h hplain.1] at absent
    exact .branch (by simpa using absent)
  | halted touch same =>
    exact finds.steered_of_still h' (touch.at?_eq Area.holds_head (by simp)) same (.inl ⟨_, rfl⟩)
  | removed hname hget other touch repointed =>
    subst hname
    refine ⟨mine.name, finds.head_of_held h' (touch.at?_eq Area.holds_head (by simp)), ?_⟩
    rw [tips_of_repointed h h' hplain.1 repointed]
    exact .rmBranch other (by simp [tips_eq_some_of_get? h hplain.1 hget])
  | behind tips =>
    obtain ⟨rfl, htip⟩ := tips_of_find? h hplain tips.found
    obtain ⟨-, behind⟩ := h.meet_of_tips finds.load tips.loadOther tips.meet
    exact ⟨mine.name, finds.head_of_held h' rfl,
      .behind htip (behind.mp (Commits.id_of_load tips.loadOther))⟩
  | forwarded tips ahead _ moved => exact finds.steered_of_forwarded h' hplain tips ahead moved
  | merged three merged => exact finds.steered_of_merged h' plain hplain three merged

end Effect

/-! ## 4. In a run -/

/-- **What every request does to the pointers**, in any state of a run, whether it succeeds or
not. -/
theorem Run.steers {past : List Recording} (run : Run root Request.Plain Settings.Dates past t)
    {settings : Settings} {request : Request} (here : settings.root = root)
    (dates : settings.Dates request) (plain : request.Plain) {guarded : Bool} {printed : String}
    {r : Except Fault Unit} {w' : World}
    (hrun : request.perform settings guarded ⟨t, printed⟩ = (r, w')) :
    ∃ n tip n', Branches.head root t = .ok n ∧ Branches.tips root t n = some tip ∧
      Branches.head root w'.tree = .ok n' ∧
      Steers root t w'.tree n tip (Branches.tips root t) request r n'
        (Branches.tips root w'.tree) := by
  obtain ⟨past', -, run'⟩ := run.performs here dates plain hrun
  obtain ⟨mine, head, staging, date, finds, plainMine, effect⟩ := run.exists_effect here dates hrun
  obtain ⟨hhead, hget⟩ := Branches.of_current finds.current
  obtain ⟨n', hhead', steers⟩ := effect.steered finds plainMine plain run'.intact
  exact ⟨mine.name, mine.tip, n', hhead,
    Branches.tips_eq_some_of_get? finds.intact plainMine.1 hget, hhead', steers⟩

/-- The branch that is left is removed. -/
theorem Apart.steers_apart : ∃ t w',
    Run [] Request.Plain Settings.Dates [Apart.right, Apart.left] t ∧
    Apart.settings.root = [] ∧ Apart.settings.Dates (.rmBranch Apart.other.text) ∧
    Request.Plain (.rmBranch Apart.other.text) ∧
    (Request.rmBranch Apart.other.text).perform Apart.settings true ⟨t, ""⟩ = (.ok (), w') ∧
    Branches.head [] t = .ok BranchName.master ∧
    Branches.tips [] t Apart.other = some Apart.left.made.id ∧
    Branches.head [] w'.tree = .ok BranchName.master ∧
    Branches.tips [] w'.tree = Function.update (Branches.tips [] t) Apart.other none := by
  obtain ⟨t, run, -, hcurrent, hfind, -⟩ := Apart.exists_run
  have h := run.intact
  have distinct : Apart.other ≠ BranchName.master := by decide
  obtain ⟨t', hrm, -⟩ := Command.rmBranch_run h.housed.sealed hcurrent hfind distinct ""
  have hrun : (Request.rmBranch Apart.other.text).perform Apart.settings true ⟨t, ""⟩ =
      (.ok (), ⟨t', ""⟩) := (Request.perform_run h Apart.here rfl true "").trans hrm
  have plain : Request.Plain (.rmBranch Apart.other.text) := Apart.plain_other
  have dates : Apart.settings.Dates (.rmBranch Apart.other.text) := fun _ _ => trivial
  obtain ⟨n, tip, n', hhead, -, hhead', steers⟩ := run.steers Apart.here dates plain hrun
  obtain rfl : n = BranchName.master :=
    Except.ok.inj (hhead.symm.trans (Branches.of_current hcurrent).1)
  have htip := (Branches.tips_of_find? h Apart.plain_other hfind).2
  refine ⟨t, ⟨t', ""⟩, run, Apart.here, dates, plain, hrun, hhead, htip, ?_⟩
  generalize htext : Apart.other.text = text at steers
  generalize hB : Branches.tips [] (World.mk t' "").tree = B at steers ⊢
  cases steers with
  | other none_ => exact absurd trivial none_
  | rmBranch =>
    rw [BranchName.ext htext]
    exact ⟨hhead', rfl⟩

end LocalVcs
