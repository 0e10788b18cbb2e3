/-
# Branches and HEAD on disk

Every file below the directory of the branches holds the id of a stored commit, so reading a branch
never fails, and a branch that is there stands for a commit that can be loaded.  Moving a branch
that is there succeeds, and so does removing it; making a new one changes nothing but files and
directories of branches, also where it stops half way.

* `SoundRefs`, `Branches.get?_cases`: what reading a branch gives.
* `Branches.save_leads`, `Branches.save_run`: making a branch, and moving one.
* `Branches.remove_run`: removing one.
* `Branches.all_run`, `Branches.mem_all_iff`: listing all of them.
* `Moved`, `Repointed`: what is read of branches when one of them has moved, come or gone.
* `HeadStands`, `HeadStands.current_eq`: the branch that `HEAD` names.
-/
import LocalVcs.Proofs.BranchPaths
import LocalVcs.Proofs.Index
import LocalVcs.Proofs.Objects

namespace LocalVcs

open FileTree Layout

variable {root : Path} {t t' : FileTree}

/-! ## 1. The directory of a file -/

theorem filter_dropWhile_not {α : Type} (p : α → Bool) (l : List α) :
    (l.dropWhile fun s => !p s).filter p = l.filter p := by
  induction l with
  | nil => rfl
  | cons s l ih => cases hp : p s <;> simp [hp, ih]

/-- The route to the directory of what a route ends in. -/
theorem Route.parent_spec {r : Route} {front : List FileName} {last : FileName}
    (h : r.segments = front ++ [last]) (goes : Route.goes last = true) :
    r.parent.start = r.start ∧ r.parent.segments <+: r.segments ∧
      r.path = last :: r.parent.path := by
  have hparent : r.parent =
      ⟨r.start, (front.reverse.dropWhile fun s => !Route.goes s).reverse⟩ := by
    simp [Route.parent, h, goes]
  have starts : (front.reverse.dropWhile fun s => !Route.goes s).reverse <+: front := by
    have := List.reverse_prefix.mpr
      (List.dropWhile_suffix (l := front.reverse) fun s => !Route.goes s)
    rwa [List.reverse_reverse] at this
  refine ⟨by rw [hparent], by rw [hparent, h]; exact starts.trans (List.prefix_append _ _), ?_⟩
  have same : (front.reverse.dropWhile fun s => !Route.goes s).reverse.filter Route.goes =
      front.filter Route.goes := by
    rw [List.filter_reverse, filter_dropWhile_not, List.filter_reverse, List.reverse_reverse]
  have hpath : r.parent.path = (front.filter Route.goes).reverse ++ r.start := by
    rw [hparent, Route.path_mk, same]
  rw [hpath, Route.path, Route.steps, h]
  simp [List.filter_append, goes]

theorem text?_eq {r : Route} (h : Straight t r) {text : String}
    (hat : t.at? r.path = some (.file (.plain (Bytes.ofText text)))) : t.text? r = some text := by
  rw [FileTree.text?, bytes?, h.contents?_eq_some_iff.mpr hat]
  exact Bytes.text?_ofText text

/-! ## 2. Sound branches -/

/-- The names on the way from one path to another one below it are texts. -/
def TextsTo (top p : Path) : Prop :=
  ∀ words, p = words ++ top → ∀ word ∈ words, ∃ text, word = .text text

/-- The files of branches hold ids of stored commits, and the ways to them are texts and can be
told. -/
def SoundRefs (root : Path) (t : FileTree) : Prop :=
  ∀ p content, branchesPath root <:+ p → t.at? p = some (.file content) →
    ∃ c, CommitStored root t c ∧ content = .plain (Bytes.ofText c.id.text) ∧
      Route.bytesOf p ≤ Route.longest ∧ TextsTo (branchesPath root) p

theorem SoundRefs.mono (h : SoundRefs root t) (grows : Grows root t t')
    (files : ∀ p content, branchesPath root <:+ p → t'.at? p = some (.file content) →
      t.at? p = some (.file content)) : SoundRefs root t' := by
  intro p content below hat
  obtain ⟨c, stored, hcontent, room⟩ := h p content below (files p content below hat)
  exact ⟨c, stored.mono grows, hcontent, room⟩

/-- Outside the area of the branches nothing lies below their directory. -/
theorem Touches.at?_below_branches {areas : List Area} (h : Touches root areas t t')
    (away : Area.branches ∉ areas) {p : Path} (below : branchesPath root <:+ p) :
    t'.at? p = t.at? p :=
  h.at?_below .branches (by simp) away below

theorem SoundRefs.of_touches (h : SoundRefs root t) {areas : List Area}
    (touch : Touches root areas t t') (grows : Grows root t t') (away : Area.branches ∉ areas) :
    SoundRefs root t' :=
  h.mono grows fun p content below hat => by rwa [touch.at?_below_branches away below] at hat

/-- Where a branch has a file, there is still one afterwards. -/
def FilesStay (root : Path) (t t' : FileTree) : Prop :=
  ∀ p content, branchesPath root <:+ p → t.at? p = some (.file content) →
    ∃ content', t'.at? p = some (.file content')

theorem Touches.filesStay {areas : List Area} (h : Touches root areas t t')
    (away : Area.branches ∉ areas) : FilesStay root t t' := fun p content below hat =>
  ⟨content, by rw [h.at?_below_branches away below]; exact hat⟩

namespace Branches

theorem below_branchPath (root : Path) (name : BranchName) :
    branchesPath root <:+ branchPath root name := List.suffix_append _ _

theorem textsTo_branchPath (root : Path) (name : BranchName) :
    TextsTo (branchesPath root) (branchPath root name) := by
  intro words hwords word hword
  rw [← List.append_cancel_right hwords, List.mem_reverse] at hword
  exact exists_text_of_mem_segmentsOf (List.mem_filter.mp hword).1

/-! ## 3. Reading -/

/-- **Reading a branch never fails.**  It is there exactly when it has a file, and then stands for a
stored commit. -/
theorem get?_cases (h : Housed root t) (refs : SoundRefs root t) (name : BranchName) :
    (∃ c, CommitStored root t c ∧ get? root t name = .ok (some ⟨name, c.id⟩) ∧
      (route root name).CanTell ∧
      t.at? (branchPath root name) = some (.file (.plain (Bytes.ofText c.id.text)))) ∨
    (get? root t name = .ok none ∧ ((route root name).CanTell →
      ∀ content, t.at? (branchPath root name) ≠ some (.file content))) := by
  by_cases tell : (route root name).CanTell
  · have straight := straight_route h.free tell
    have found := straight.isFile_iff
    rw [path_route] at found
    by_cases hfile : t.isFile (route root name) = true
    · obtain ⟨content, hat⟩ := found.mp hfile
      obtain ⟨c, stored, rfl, -⟩ := refs _ _ (below_branchPath root name) hat
      refine Or.inl ⟨c, stored, ?_, tell, hat⟩
      have htext := text?_eq straight (by rw [path_route]; exact hat)
      rw [get?, if_pos hfile, htext]
      simp only [c.id.trimmed_text, ObjectId.ofText?_text]
    · refine Or.inr ⟨by rw [get?, if_neg hfile], ?_⟩
      intro _ content hat
      exact hfile (found.mpr ⟨content, hat⟩)
  · refine Or.inr ⟨?_, fun h => absurd h tell⟩
    simp [get?, FileTree.isFile, lookup?, locate_eq_none tell]

/-- What a branch that is there is like. -/
theorem of_get? (h : Housed root t) (refs : SoundRefs root t) {name : BranchName} {b : Branch}
    (hget : get? root t name = .ok (some b)) :
    ∃ c, CommitStored root t c ∧ b = ⟨name, c.id⟩ ∧ (route root name).CanTell ∧
      t.at? (branchPath root name) = some (.file (.plain (Bytes.ofText c.id.text))) := by
  rcases get?_cases h refs name with ⟨c, stored, hfound, tell, hat⟩ | ⟨hnone, -⟩
  · refine ⟨c, stored, ?_, tell, hat⟩
    simpa using hget.symm.trans hfound
  · simp [hnone] at hget

theorem get?_of_file (h : Housed root t) (refs : SoundRefs root t) {name : BranchName}
    {tip : ObjectId} (tell : (route root name).CanTell)
    (hat : t.at? (branchPath root name) = some (.file (.plain (Bytes.ofText tip.text)))) :
    get? root t name = .ok (some ⟨name, tip⟩) := by
  rcases get?_cases h refs name with ⟨c, -, hget, -, hat'⟩ | ⟨-, hnone⟩
  · have same : Bytes.ofText c.id.text = Bytes.ofText tip.text := by
      simpa using hat'.symm.trans hat
    rw [hget, ObjectId.ext (Bytes.ofText_injective same)]
  · exact absurd hat (hnone tell _)

theorem ofText?_eq_some {text : String} {name : BranchName}
    (h : BranchName.ofText? text = some name) : name.text = text := by
  unfold BranchName.ofText? at h
  split at h
  · rw [← Option.some.inj h]
  · cases h

theorem of_find? {text : String} {b : Branch} (hfind : find? root t text = .ok (some b)) :
    ∃ name : BranchName, name.text = text ∧ get? root t name = .ok (some b) := by
  unfold find? at hfind
  split at hfind
  · rename_i name hname
    exact ⟨name, ofText?_eq_some hname, hfind⟩
  · simp at hfind

theorem find?_text (name : BranchName) : find? root t name.text = get? root t name := by
  rw [find?, BranchName.ofText?_text]

/-- What is read of a branch that is there. -/
theorem get?_eq_some_iff {name : BranchName} {b : Branch} :
    get? root t name = .ok (some b) ↔ b.name = name ∧ t.isFile (route root name) = true ∧
      ∃ text, t.text? (route root name) = some text ∧
        ObjectId.ofText? (Text.trimmed text) = .ok b.tip := by
  rw [get?]
  by_cases found : t.isFile (route root name) = true
  · rw [if_pos found]
    rcases htext : t.text? (route root name) with _ | text
    · simp [found]
    · rcases hid : ObjectId.ofText? (Text.trimmed text) with _ | tip
      · simp [found, hid]
      · cases b
        simp [found, hid, eq_comm]
  · simp [found]

theorem of_current {b : Branch} (hcurrent : current root t = .ok b) :
    head root t = .ok b.name ∧ get? root t b.name = .ok (some b) := by
  simp only [current, bind, Except.bind] at hcurrent
  split at hcurrent
  · cases hcurrent
  · rename_i name hhead
    split at hcurrent
    · cases hcurrent
    · rename_i found hget
      cases found with
      | none => cases hcurrent
      | some branch =>
        obtain rfl := Except.ok.inj hcurrent
        obtain rfl := (get?_eq_some_iff.mp hget).1
        exact ⟨hhead, hget⟩

theorem current_of_head {name : BranchName} {b : Branch} (hhead : head root t = .ok name)
    (hget : get? root t name = .ok (some b)) : current root t = .ok b := by
  simp [current, hhead, hget, bind, Except.bind, pure, Except.pure]

theorem text?_congr {r r' : Route} (h : t'.lookup? r' = t.lookup? r) : t'.text? r' = t.text? r := by
  simp only [FileTree.text?, FileTree.bytes?, FileTree.contents?, h]

theorem get?_congr_of_lookup? {name : BranchName}
    (looked : t'.lookup? (route root name) = t.lookup? (route root name)) :
    get? root t' name = get? root t name := by
  have file : t'.isFile (route root name) = t.isFile (route root name) := by
    rw [FileTree.isFile, looked]; rfl
  rw [get?, get?, file, text?_congr looked]

theorem head_congr_of_lookup?
    (looked : t'.lookup? (Layout.head root) = t.lookup? (Layout.head root)) :
    head root t' = head root t := by
  rw [head, head, text?_congr looked]

/-- What is read of a branch depends on its file only. -/
theorem get?_congr (free : t.LinkFree root) (free' : t'.LinkFree root) {name : BranchName}
    (same : t'.at? (branchPath root name) = t.at? (branchPath root name)) :
    get? root t' name = get? root t name :=
  get?_congr_of_lookup? (Straight.lookup?_congr (straight_route free) (straight_route free')
    (by rwa [path_route]))

theorem head_congr (free : t.LinkFree root) (free' : t'.LinkFree root)
    (same : t'.at? (headPath root) = t.at? (headPath root)) : head root t' = head root t := by
  have straight : ∀ {s : FileTree}, s.LinkFree root → (Layout.head root).CanTell →
      Straight s (Layout.head root) := fun free tell =>
    straight_of_names [FileName.text metaName, "HEAD"] free (by decide) (by simp) tell.1
  exact head_congr_of_lookup?
    (Straight.lookup?_congr (straight free) (straight free') (by rwa [path_head]))

/-- What is current depends on `HEAD` and the files of the branches only. -/
theorem current_congr_of_at? (free : t.LinkFree root) (free' : t'.LinkFree root)
    (head : t'.at? (headPath root) = t.at? (headPath root))
    (branches : ∀ name, t'.at? (branchPath root name) = t.at? (branchPath root name)) :
    current root t' = current root t := by
  have gets : get? root t' = get? root t := funext fun name => get?_congr free free' (branches name)
  rw [current, current, head_congr free free' head, gets]

theorem current_congr (h : Housed root t) (h' : Housed root t') {areas : List Area}
    (touch : Touches root areas t t') (head : Area.head ∉ areas)
    (branches : Area.branches ∉ areas) : current root t' = current root t :=
  current_congr_of_at? h.free h'.free (touch.at?_eq Area.holds_head head)
    fun name => touch.at?_eq (holds_branchPath root name) branches

end Branches

/-- From `t` to `t'` no file of a branch has come, gone or changed. -/
def SameFiles (root : Path) (t t' : FileTree) : Prop :=
  ∀ p content, branchesPath root <:+ p →
    (t'.at? p = some (.file content) ↔ t.at? p = some (.file content))

/-- From `t` to `t'` one branch has come to stand for a commit, or has gone, and no other file of a
branch has changed; directories may have come and gone. -/
def Repointed (root : Path) (name : BranchName) (tip : Option ObjectId) (t t' : FileTree) : Prop :=
  ∀ p content, branchesPath root <:+ p → (t'.at? p = some (.file content) ↔
    if p = branchPath root name then
      (tip.map fun id => .plain (Bytes.ofText id.text)) = some content
    else t.at? p = some (.file content))

namespace Repointed

variable {name : BranchName} {tip : ObjectId}

theorem filesStay (h : Repointed root name (some tip) t t') : FilesStay root t t' := by
  intro p content below hat
  by_cases hp : p = branchPath root name
  · exact ⟨.plain (Bytes.ofText tip.text), (h p _ below).mpr (by rw [if_pos hp]; rfl)⟩
  · exact ⟨content, (h p content below).mpr (by rwa [if_neg hp])⟩

/-- Branches stay sound when one has come to stand for a stored commit. -/
theorem soundRefs {c : Commit} (h : Repointed root name (some c.id) t t') (refs : SoundRefs root t)
    (grows : Grows root t t') (stored : CommitStored root t' c)
    (tell : (Branches.route root name).CanTell) : SoundRefs root t' := by
  intro p content below hat
  have hat := (h p content below).mp hat
  split at hat
  · rename_i hp
    refine ⟨c, stored, by simpa using hat.symm, ?_⟩
    rw [hp]
    refine ⟨?_, Branches.textsTo_branchPath root name⟩
    rw [← Branches.path_route]
    exact tell.bytesOf_path
  · obtain ⟨c', stored', hcontent, room⟩ := refs p content below hat
    exact ⟨c', stored'.mono grows, hcontent, room⟩

end Repointed

/-- From `t` to `t'` one branch has come to stand for a commit, and nothing else has changed among
the branches. -/
def Moved (root : Path) (name : BranchName) (tip : ObjectId) (t t' : FileTree) : Prop :=
  ∀ p, branchesPath root <:+ p → t'.at? p =
    if p = branchPath root name then some (.file (.plain (Bytes.ofText tip.text))) else t.at? p

namespace Moved

variable {name other : BranchName} {tip : ObjectId}

theorem repointed (h : Moved root name tip t t') : Repointed root name (some tip) t t' := by
  intro p content below
  rw [h p below]
  split <;> simp

theorem filesStay (h : Moved root name tip t t') : FilesStay root t t' := h.repointed.filesStay

theorem get?_self (h : Moved root name tip t t') (h' : Housed root t') (refs' : SoundRefs root t')
    (tell : (Branches.route root name).CanTell) :
    Branches.get? root t' name = .ok (some ⟨name, tip⟩) :=
  Branches.get?_of_file h' refs' tell (by
    rw [h _ (Branches.below_branchPath root name), if_pos rfl])

theorem get?_eq (h : Moved root name tip t t') (free : t.LinkFree root) (free' : t'.LinkFree root)
    (distinct : branchPath root other ≠ branchPath root name) :
    Branches.get? root t' other = Branches.get? root t other :=
  Branches.get?_congr free free' (by
    rw [h _ (Branches.below_branchPath root other), if_neg distinct])

/-- Branches stay sound when one has moved to a stored commit. -/
theorem soundRefs {c : Commit} (h : Moved root name c.id t t') (refs : SoundRefs root t)
    (grows : Grows root t t') (stored : CommitStored root t' c)
    (tell : (Branches.route root name).CanTell) : SoundRefs root t' :=
  h.repointed.soundRefs refs grows stored tell

end Moved

namespace Branches

/-! ## 4. Writing -/

/-- Where the directory of a branch's file lies. -/
theorem parent_route (root : Path) (name : BranchName) :
    ∃ word, (route root name).parent.start = root ∧
      (".." : FileName) ∉ (route root name).parent.segments ∧
      branchPath root name = word :: (route root name).parent.path ∧
      branchesPath root <:+ (route root name).parent.path ∧
      (word ∈ segmentsOf name.text ∧ Route.goes word = true) ∧
      (route root name).parent.segments.Sublist (route root name).segments := by
  obtain ⟨front, last, hsegments, goes⟩ := name.exists_last
  have hends :
      (route root name).segments = ([FileName.text metaName, "branches"] ++ front) ++ [last] := by
    rw [route_eq, hsegments]; simp
  obtain ⟨hstart, hsub, hparent⟩ := Route.parent_spec hends goes
  rw [path_route] at hparent
  obtain ⟨word, above, hpath, below⟩ := branchPath_below root name
  obtain ⟨rfl, rfl⟩ := List.cons.inj (hpath.symm.trans hparent)
  exact ⟨word, by rw [hstart, route_eq], fun hup => level_route root name (hsub.subset hup), hpath,
    below, ⟨by simp [hsegments], goes⟩, hsub.sublist⟩

/-- The directories above a branch's file are made, as far as they are missing. -/
theorem makeDirs_parent (h : Housed root t) (name : BranchName) :
    MadeDirs root (route root name).parent.path t (t.makeDirs (route root name).parent).2 ∧
      Touches root [.branches] t (t.makeDirs (route root name).parent).2 := by
  obtain ⟨word, hstart, level, -, below, -⟩ := parent_route root name
  have made := makeDirs_spec (t := t) (by rw [hstart]; exact h.free) level
  rw [hstart] at made
  refine ⟨made, Touches.of_madeDirs made (fun p hp hnone => ?_)
    (List.mem_singleton_self Area.branches)⟩
  have standing := h.at?_branches
  rcases List.suffix_or_suffix_of_suffix hp below with hshort | hlong
  · have := mem_listings.mp (mem_listings_of_suffix (mem_listings.mpr standing) hshort)
    simp [this] at hnone
  · have hne : p ≠ branchesPath root := by
      rintro rfl
      simp [standing] at hnone
    exact Area.holds_of_below (a := .branches) hlong hne (by simp)

/-- **What making a branch leads to**, whether it succeeds or not: only branches are touched.  Where
it fails, no file has come or gone; else the file of the branch is the only one that has. -/
theorem save_repoints (h : Housed root t) (name : BranchName) (tip : ObjectId) (printed : String) :
    (save root ⟨name, tip⟩).Leads ⟨t, printed⟩ fun r w' =>
      w'.printed = printed ∧ Touches root [.branches] t w'.tree ∧
        ((∃ fault, r = .error fault) ∧ SameFiles root t w'.tree ∨
          r = .ok () ∧ (route root name).CanTell ∧ Repointed root name (some tip) t w'.tree) := by
  -- first the directories above the file are made
  obtain ⟨made, touch₁⟩ := makeDirs_parent h name
  generalize hrun : t.makeDirs (route root name).parent = result at made touch₁
  obtain ⟨done, t₁⟩ := result
  have same₁ : SameFiles root t t₁ := fun p content _ =>
    ⟨fun hat => made.at?_of_not_dir hat (by simp), made.at?_of_some⟩
  rw [save, write]
  cases done with
  | false =>
    rw [Action.Leads, Action.bind_run_error (Action.makeDirs_run_error hrun)]
    exact ⟨rfl, touch₁, Or.inl ⟨⟨_, rfl⟩, same₁⟩⟩
  | true =>
    refine Action.leads_bind_of_run (Action.makeDirs_run_ok hrun) ?_
    -- then the file is written
    cases hwrite : t₁.write? (route root name) (.plain (Bytes.ofText tip.text)) with
    | none =>
      rw [Action.Leads, Action.edit_run_none hwrite]
      exact ⟨rfl, touch₁, Or.inl ⟨⟨_, rfl⟩, same₁⟩⟩
    | some t₂ =>
      have tell : (route root name).CanTell := by
        by_contra hno
        simp [write?, locate_eq_none hno] at hwrite
      have hplace : t₁.place? (branchPath root name) (.file (.plain (Bytes.ofText tip.text))) =
          some t₂ := by
        rw [← hwrite, (straight_route (touch₁.linkFree h.free) tell).write?_eq, path_route]
      have touch₂ : Touches root [.branches] t₁ t₂ :=
        Touches.of_place? hplace (holds_branchPath root name) (by simp) (by simp)
      rw [Action.Leads, Action.edit_run_some hwrite]
      refine ⟨rfl, touch₁.trans touch₂, Or.inr ⟨rfl, tell, fun p content below => ?_⟩⟩
      rw [at?_place? hplace]
      split
      · simp
      · exact same₁ p content below

/-- Making a branch keeps the branches sound, and no file of a branch goes. -/
theorem save_leads (h : Housed root t) (refs : SoundRefs root t) {c : Commit}
    (stored : CommitStored root t c) (name : BranchName) (printed : String) :
    (save root ⟨name, c.id⟩).Leads ⟨t, printed⟩ fun _ w' =>
      w'.printed = printed ∧ Touches root [.branches] t w'.tree ∧ SoundRefs root w'.tree ∧
        FilesStay root t w'.tree := by
  refine (save_repoints h name c.id printed).mono ?_
  rintro r w' ⟨hprinted, touch, outcome⟩
  have grows := (touch.sameObjects (by simp)).grows
  refine ⟨hprinted, touch, ?_⟩
  obtain ⟨-, same⟩ | ⟨-, tell, repointed⟩ := outcome
  · exact ⟨refs.mono grows fun p content below => (same p content below).mp,
      fun p content below hat => ⟨content, (same p content below).mpr hat⟩⟩
  · exact ⟨repointed.soundRefs refs grows (stored.mono grows) tell, repointed.filesStay⟩

/-- Where a file can stand, it is written behind its directory. -/
theorem write_run {r : Route} (straight : Straight t r) {front : List FileName} {last : FileName}
    (hends : r.segments = front ++ [last]) (goes : Route.goes last = true)
    (can : t.CanPlace r.path) (place text printed : String) :
    ∃ t', write r place text ⟨t, printed⟩ = (.ok (), ⟨t', printed⟩) ∧
      t.place? r.path (.file (.plain (Bytes.ofText text))) = some t' := by
  obtain ⟨hstart, hsub, hparent⟩ := Route.parent_spec hends goes
  have inDir : t.at? r.parent.path = some .dir := by
    rw [hparent] at can
    exact can.2.1
  have made : t.makeDirs r.parent = (true, t) := by
    refine makeDirs_of_dir (by rw [hstart]; exact straight.free)
      (fun hup => straight.level (hsub.subset hup)) ?_ inDir
    have := straight.tell.of_sublist hsub.sublist
    rwa [← hstart] at this
  refine ⟨t.place _ (.file (.plain (Bytes.ofText text))) can, ?_, dif_pos can⟩
  have hwrite : t.write? r (.plain (Bytes.ofText text)) =
      some (t.place _ (.file (.plain (Bytes.ofText text))) can) := by
    rw [straight.write?_eq]; exact dif_pos can
  rw [write, Action.bind_run_ok (Action.makeDirs_run_ok made)]
  exact Action.edit_run_some hwrite

/-- **Moving a branch succeeds** where its file can stand, and changes that file alone. -/
theorem save_run (h : Housed root t) {name : BranchName} (tell : (route root name).CanTell)
    (can : t.CanPlace (branchPath root name)) (tip : ObjectId) (printed : String) :
    ∃ t', save root ⟨name, tip⟩ ⟨t, printed⟩ = (.ok (), ⟨t', printed⟩) ∧
      Touches root [.branches] t t' ∧ ∀ p, t'.at? p =
        if p = branchPath root name then some (.file (.plain (Bytes.ofText tip.text)))
        else t.at? p := by
  obtain ⟨front, last, hsegments, goes⟩ := name.exists_last
  have hends :
      (route root name).segments = ([FileName.text metaName, "branches"] ++ front) ++ [last] := by
    rw [route_eq, hsegments]; simp
  obtain ⟨t', hrun, hplace⟩ := write_run (straight_route h.free tell) hends goes
    (by rw [path_route]; exact can) (place name) tip.text printed
  rw [path_route] at hplace
  exact ⟨t', hrun, Touches.of_place? hplace (holds_branchPath root name) (by simp) (by simp),
    at?_place? hplace⟩

/-- **Making a branch succeeds** where no file is in the way of its directories and none of them is
in the way of its file; no other file comes or goes. -/
theorem save_makes (h : Housed root t) {name : BranchName} (tell : (route root name).CanTell)
    (valid : ∀ s ∈ segmentsOf name.text, Route.goes s = true → ValidName s)
    (room : ∀ p, branchesPath root <:+ p → p <:+ branchPath root name → p ≠ branchPath root name →
      t.at? p = none ∨ t.at? p = some .dir)
    (noDir : t.at? (branchPath root name) ≠ some .dir) (tip : ObjectId) (printed : String) :
    ∃ t', save root ⟨name, tip⟩ ⟨t, printed⟩ = (.ok (), ⟨t', printed⟩) ∧
      Touches root [.branches] t t' ∧
      t'.at? (branchPath root name) = some (.file (.plain (Bytes.ofText tip.text))) ∧
      ∀ p c, p ≠ branchPath root name →
        (t'.at? p = some (.file c) ↔ t.at? p = some (.file c)) := by
  obtain ⟨word, hstart, level, hpath, below, ⟨hword, goes⟩, hsub⟩ := parent_route root name
  have shorter : ¬branchPath root name <:+ (route root name).parent.path := fun hs =>
    absurd hs.length_le (by rw [hpath]; simp)
  have tellParent : (route root name).parent.CanTell := tell.of_sublist hsub
  have validParent : ∀ s ∈ (route root name).parent.steps, ValidName s := by
    intro s hs
    obtain ⟨hmem, hgoes⟩ := List.mem_filter.mp hs
    have hmem := hsub.subset hmem
    rw [route_eq] at hmem
    rcases List.mem_append.mp hmem with hfront | hname
    · have front : ∀ n ∈ [FileName.text metaName, "branches"], ValidName n := by decide
      exact front s hfront
    · exact valid s hname hgoes
  have free_ : ∀ p, (route root name).parent.start <:+ p → p <:+ (route root name).parent.path →
      t.at? p = none ∨ t.at? p = some .dir := by
    intro p _ hp
    rcases List.suffix_or_suffix_of_suffix hp below with hshort | hlong
    · right
      exact mem_listings.mp (mem_listings_of_suffix (mem_listings.mpr h.at?_branches) hshort)
    · refine room p hlong (by rw [hpath]; exact hp.trans (List.suffix_cons _ _)) ?_
      rintro rfl
      exact shorter hp
  obtain ⟨done, dir⟩ := makeDirs_succeeds (t := t) (by rw [hstart]; exact h.free) level tellParent
    (by rw [hstart]; exact h.at?_root) validParent free_
  obtain ⟨made, touch₁⟩ := makeDirs_parent h name
  generalize hrun : t.makeDirs (route root name).parent = result at done dir made touch₁
  obtain ⟨_, t₁⟩ := result
  obtain rfl := done
  -- the file is not among the directories that were made
  have same : t₁.at? (branchPath root name) = t.at? (branchPath root name) :=
    (made _).resolve_right fun hnew => shorter hnew.2.2.2.2
  have can : t₁.CanPlace (branchPath root name) := by
    rw [← same] at noDir
    rw [hpath] at noDir ⊢
    exact ⟨valid word hword goes, dir, noDir⟩
  obtain ⟨t₂, hplace⟩ : ∃ t₂, t₁.place? (branchPath root name)
      (.file (.plain (Bytes.ofText tip.text))) = some t₂ := ⟨_, dif_pos can⟩
  have hwrite : t₁.write? (route root name) (.plain (Bytes.ofText tip.text)) = some t₂ := by
    rw [(straight_route (touch₁.linkFree h.free) tell).write?_eq, path_route, hplace]
  have placed := at?_place? hplace
  have touch₂ : Touches root [.branches] t₁ t₂ :=
    Touches.of_place? hplace (holds_branchPath root name) (by simp) (by simp)
  refine ⟨t₂, ?_, touch₁.trans touch₂, by rw [placed, if_pos rfl], ?_⟩
  · rw [save, write, Action.bind_run_ok (Action.makeDirs_run_ok hrun)]
    exact Action.edit_run_some hwrite
  · intro p c other
    rw [placed, if_neg other]
    exact ⟨fun hat => made.at?_of_not_dir hat (by simp), made.at?_of_some⟩

/-- **Making a branch the current one succeeds**, and changes `HEAD` alone. -/
theorem setHead_run (h : Housed root t) (noDir : t.at? (headPath root) ≠ some .dir)
    (name : BranchName) (printed : String) :
    ∃ t', setHead root name ⟨t, printed⟩ = (.ok (), ⟨t', printed⟩) ∧
      Touches root [.head] t t' ∧ ∀ p, t'.at? p =
        if p = headPath root then some (.file (.plain (Bytes.ofText name.text))) else t.at? p := by
  have can : t.CanPlace (headPath root) := ⟨by decide, h.at?_meta, noDir⟩
  have ends :
      (Layout.head root).segments = [FileName.text metaName] ++ [FileName.text "HEAD"] := rfl
  obtain ⟨t', hrun, hplace⟩ := write_run h.straight_head ends (by decide)
    (by rw [path_head]; exact can) headPlace name.text printed
  rw [path_head] at hplace
  exact ⟨t', hrun, Touches.of_place? hplace Area.holds_head (by simp) (by simp),
    at?_place? hplace⟩

/-! ## 5. Removing -/

theorem at?_below_empty {path p : Path} (empty : t.children path = []) (below : path <:+ p)
    (other : p ≠ path) : t.at? p = none := by
  obtain ⟨names, rfl⟩ := below
  obtain ⟨front, name, rfl⟩ := (List.eq_nil_or_concat names).resolve_left
    (fun hnil => other (by simp [hnil]))
  cases hat : t.at? (front.concat name ++ path) with
  | none => rfl
  | some e =>
    -- the entry on the way that stands right in the directory would be one of its children
    have hchild : ∃ e', t.at? (name :: path) = some e' := by
      cases front with
      | nil => exact ⟨e, by simpa using hat⟩
      | cons first front =>
        have whole : t.at? ((first :: front) ++ name :: path) = some e := by
          rw [← hat]; simp
        exact ⟨.dir, at?_above whole (by simp)⟩
    obtain ⟨e', he'⟩ := hchild
    simpa [empty] using mem_children.mpr he'

theorem at?_cut_of_empty {path : Path} (top : path ≠ []) (empty : t.children path = []) (p : Path) :
    (t.cut path).at? p = if p = path then none else t.at? p :=
  at?_cut_of_bare top (fun _ => at?_below_empty empty) p

theorem touches_cut {word : FileName} {above : Path} (below : branchesPath root <:+ above) :
    Touches root [.branches] t (t.cut (word :: above)) := by
  refine Touches.of_cut .branches (List.cons_ne_nil _ _) (fun p inside => ?_) (by simp)
  exact Area.holds_of_below (a := .branches)
    ((below.trans (List.suffix_cons word above)).trans inside)
    (Area.ne_of_longer (Nat.lt_of_lt_of_le (Nat.lt_succ_of_le below.length_le) inside.length_le))
    (by simp)

/-- From `t` to `t'` nothing but directories without entries is gone. -/
def OnlyDirsGone (t t' : FileTree) : Prop :=
  ∀ p, t'.at? p = t.at? p ∨ (t.at? p = some .dir ∧ t'.at? p = none)

theorem OnlyDirsGone.refl (t : FileTree) : OnlyDirsGone t t := fun _ => Or.inl rfl

theorem OnlyDirsGone.trans {t'' : FileTree} (h : OnlyDirsGone t t') (h' : OnlyDirsGone t' t'') :
    OnlyDirsGone t t'' := by
  intro p
  rcases h p with same | ⟨hdir, hnone⟩
  · rw [← same]; exact h' p
  · refine Or.inr ⟨hdir, ?_⟩
    rcases h' p with same | ⟨hdir', -⟩
    · rw [same, hnone]
    · simp [hnone] at hdir'

theorem tell_of_locateEntry {r : Route} {q : Path} (h : t.locateEntry r = some q) : r.CanTell := by
  unfold locateEntry at h
  split at h
  · cases h
  · split at h
    · rename_i htell
      exact htell.1
    · cases h

theorem exists?_of_not_tell {r : Route} (h : ¬r.CanTell) : t.exists? r = false := by
  rw [FileTree.exists?, lookup?, locate_eq_none h]; rfl

/-- An empty directory of branches is removed. -/
theorem touches_cut_dir {word : FileName} {above : Path} (below : branchesPath root <:+ above)
    (hdir : t.at? (word :: above) = some .dir) (empty : t.children (word :: above) = []) :
    Touches root [.branches] t (t.cut (word :: above)) ∧
      OnlyDirsGone t (t.cut (word :: above)) := by
  refine ⟨touches_cut below, fun p => ?_⟩
  rw [at?_cut_of_empty (List.cons_ne_nil word above) empty]
  split
  · rename_i hp
    exact Or.inr ⟨hp ▸ hdir, rfl⟩
  · exact Or.inl rfl

/-- A route to a directory of branches: how it is told, and where it leads. -/
theorem straight_dir (h : Sealed root t) {segment : FileName} {above : List FileName}
    (goes : Route.goes segment = true) (level : (".." : FileName) ∉ segment :: above)
    (tell : (Route.mk root
      ([FileName.text metaName, "branches"] ++ (segment :: above).reverse)).CanTell) :
    Straight t ⟨metaPath root, "branches" :: (segment :: above).reverse⟩ ∧
      (Route.mk (metaPath root) ("branches" :: (segment :: above).reverse)).path =
        segment :: (above.filter Route.goes ++ branchesPath root) := by
  refine ⟨h.straight ⟨"branches" :: above.reverse, segment, by simp, goes⟩ ?_ tell, ?_⟩
  · intro hup
    rcases List.mem_cons.mp hup with hup | hup
    · exact absurd hup (by decide)
    · exact level (List.mem_reverse.mp hup)
  · have front : Route.goes "branches" = true := by decide
    simp [Route.path_mk, List.filter_append, goes, front, branchesPath]

section Prune

variable {segment : FileName} {above : List FileName} {es : List (FileName × Entry)}

/-- A directory with something in it ends the pruning. -/
theorem prune_full (goes : Route.goes segment = true)
    (listed : t.list? ⟨root, (Layout.branches root).segments ++ (segment :: above).reverse⟩ =
      some es)
    (full : es ≠ []) (printed : String) :
    prune root (segment :: above) ⟨t, printed⟩ = (.ok (), ⟨t, printed⟩) := by
  rw [prune, if_pos goes, Action.bind_run_ok (Action.read_run (by rw [listed]; rfl)),
    List.isEmpty_eq_false_iff.mpr full]
  rfl

/-- An empty directory is removed, and those above it are pruned. -/
theorem prune_empty (goes : Route.goes segment = true)
    (listed : t.list? ⟨root, (Layout.branches root).segments ++ (segment :: above).reverse⟩ =
      some [])
    (removed : t.removeEmptyDir?
      ⟨root, (Layout.branches root).segments ++ (segment :: above).reverse⟩ = some t')
    (printed : String) :
    prune root (segment :: above) ⟨t, printed⟩ = prune root above ⟨t', printed⟩ := by
  rw [prune, if_pos goes, Action.bind_run_ok (Action.read_run (by rw [listed]; rfl)),
    List.isEmpty_nil,
    if_pos rfl, Action.bind_run_ok (Action.edit_run_some removed)]

end Prune

/-- **Pruning succeeds** where the innermost directory stands, and removes nothing but empty
directories of branches. -/
theorem prune_run {segments : List FileName} (h : Sealed root t)
    (level : (".." : FileName) ∉ segments)
    (tell : (Route.mk root ([FileName.text metaName, "branches"] ++ segments.reverse)).CanTell)
    (standing : t.at? (segments.filter Route.goes ++ branchesPath root) = some .dir)
    (printed : String) :
    ∃ t', prune root segments ⟨t, printed⟩ = (.ok (), ⟨t', printed⟩) ∧
      Touches root [.branches] t t' ∧ OnlyDirsGone t t' := by
  induction segments generalizing t with
  | nil => exact ⟨t, rfl, Touches.refl root t, OnlyDirsGone.refl t⟩
  | cons segment above ih =>
    have levelAbove : (".." : FileName) ∉ above := fun hup => level (List.mem_cons_of_mem _ hup)
    have tellAbove :
        (Route.mk root ([FileName.text metaName, "branches"] ++ above.reverse)).CanTell :=
      tell.of_sublist (List.Sublist.append_left (by simp) _)
    by_cases goes : Route.goes segment = true
    · rw [List.filter_cons_of_pos goes, List.cons_append] at standing
      obtain ⟨straight, hpath⟩ := straight_dir h goes level tell
      generalize hdir : above.filter Route.goes ++ branchesPath root = dir at standing hpath ih
      have below : branchesPath root <:+ dir := hdir ▸ List.suffix_append _ _
      have listed : t.list? ⟨root, (Layout.branches root).segments ++ (segment :: above).reverse⟩ =
          some (t.children (segment :: dir)) := by
        rw [← hpath, ← FileTree.list?_eq straight.tell straight.level
          (by rw [hpath]; exact standing)]
        exact h.list?_eq
      by_cases none_ : t.children (segment :: dir) = []
      · rw [none_] at listed
        obtain ⟨touch₁, gone₁⟩ := touches_cut_dir below standing none_
        have hremove : t.removeEmptyDir? ⟨root, (Layout.branches root).segments ++
            (segment :: above).reverse⟩ = some (t.cut (segment :: dir)) := by
          rw [← hpath, ← straight.removeEmptyDir?_of_empty (by rw [hpath]; exact standing)
            (by rw [hpath]; exact none_)]
          exact h.removeEmptyDir?_eq (by simp)
        -- what is above it still stands
        have standing₁ : (t.cut (segment :: dir)).at? dir = some .dir := by
          rw [at?_cut (List.cons_ne_nil _ _), if_neg fun hs => absurd hs.length_le (by simp)]
          exact (at?_of_cons standing).2
        obtain ⟨t', hrun', touch, gone⟩ := ih (h.of_touches touch₁) levelAbove tellAbove standing₁
        exact ⟨t', (prune_empty goes listed hremove printed).trans hrun', touch₁.trans touch,
          gone₁.trans gone⟩
      · exact ⟨t, prune_full goes listed none_ printed, Touches.refl root t, OnlyDirsGone.refl t⟩
    · rw [prune, if_neg goes]
      rw [List.filter_cons_of_neg goes] at standing
      exact ih h levelAbove tellAbove standing

/-- A branch's file is found at its path, whatever links are about outside. -/
theorem lookup?_route (h : Sealed root t) {name : BranchName} (tell : (route root name).CanTell) :
    t.lookup? (route root name) = t.at? (branchPath root name) := by
  obtain ⟨front, last, hsegments, goes⟩ := name.exists_last
  rw [← path_route, route_eq]
  rw [route_eq] at tell
  refine h.lookup?_eq ⟨"branches" :: front, last, by rw [hsegments]; rfl, goes⟩ ?_ tell
  exact fun hup => level_route root name (by rw [route_eq]; exact List.mem_cons_of_mem _ hup)

/-- **A branch with a file can be removed.**  Only branches are touched, and its file is the only
one that goes. -/
theorem remove_run (h : Sealed root t) {name : BranchName} (tell : (route root name).CanTell)
    {content : Content} (hat : t.at? (branchPath root name) = some (.file content))
    (printed : String) :
    ∃ t', remove root name ⟨t, printed⟩ = (.ok (), ⟨t', printed⟩) ∧ Touches root [.branches] t t' ∧
      ∀ p c, t'.at? p = some (.file c) ↔ p ≠ branchPath root name ∧ t.at? p = some (.file c) := by
  obtain ⟨front, last, hsegments, goes⟩ := name.exists_last
  have level : (".." : FileName) ∉ last :: front.reverse := fun hup =>
    (name.segment_ne (s := "..") (by rw [hsegments]; simpa [or_comm] using hup)).2 rfl
  have tellDir : (Route.mk root
      ([FileName.text metaName, "branches"] ++ (last :: front.reverse).reverse)).CanTell := by
    rw [route_eq, hsegments] at tell
    simpa using tell
  have hpath : branchPath root name =
      last :: (front.reverse.filter Route.goes ++ branchesPath root) := by
    simp [branchPath, hsegments, List.filter_append, goes]
  obtain ⟨straight, hstraight⟩ := straight_dir h goes level tellDir
  generalize hdir : front.reverse.filter Route.goes ++ branchesPath root = dir at hpath hstraight
  have touch₁ : Touches root [.branches] t (t.cut (last :: dir)) :=
    touches_cut (hdir ▸ List.suffix_append _ _)
  rw [hpath] at hat ⊢
  have cutAt := at?_cut_of_file hat
  -- the directory of the file still stands
  have standing : (t.cut (last :: dir)).at? dir = some .dir := by
    rw [cutAt, if_neg (List.cons_ne_self last dir).symm]
    exact (at?_of_cons hat).2
  have levelDir : (".." : FileName) ∉ front.reverse := fun hup => level (List.mem_cons_of_mem _ hup)
  obtain ⟨t', hprune, touch, gone⟩ := prune_run (h.of_touches touch₁) levelDir
    (tellDir.of_sublist (List.Sublist.append_left (by simp) _))
    (by rw [hdir]; exact standing) printed
  have hremove : t.removeFile? (route root name) = some (t.cut (last :: dir)) := by
    have segments : segmentsOf name.text = (last :: front.reverse).reverse := by simp [hsegments]
    rw [route_eq, segments, ← hstraight,
      ← straight.removeFile?_of_file (by rw [hstraight]; exact hat)]
    exact h.removeFile?_eq (by simp)
  refine ⟨t', ?_, touch₁.trans touch, fun p c => ?_⟩
  · have present : Action.read (fun t => .ok (t.exists? (route root name))) ⟨t, printed⟩ =
        (.ok true, ⟨t, printed⟩) :=
      Action.read_run (by rw [FileTree.exists?, lookup?_route h tell, hpath, hat]; rfl)
    have tail : (segmentsOf name.text).reverse.tail = front.reverse := by simp [hsegments]
    rw [remove, Action.bind_run_ok present, if_pos rfl,
      Action.bind_run_ok (Action.edit_run_some hremove), tail, hprune]
  · -- nothing else lies at the path of the file or below it
    have cut_file : (t.cut (last :: dir)).at? p = some (.file c) ↔
        p ≠ last :: dir ∧ t.at? p = some (.file c) := by
      rw [cutAt]
      split <;> simp_all
    rw [← cut_file]
    rcases gone p with same | ⟨hdir, hnone⟩
    · rw [same]
    · simp [hdir, hnone]

/-! ## 6. Listing -/

/-- The way to a branch with a file can be told where the segments of the name spell it. -/
theorem tell_of_spelled (refs : SoundRefs root t) {name : BranchName}
    (spelled : branchPath root name = (segmentsOf name.text).reverse ++ branchesPath root)
    {content : Content} (hat : t.at? (branchPath root name) = some (.file content)) :
    (route root name).CanTell := by
  obtain ⟨-, -, -, room, -⟩ := refs _ _ (below_branchPath root name) hat
  have valid : ∀ s ∈ segmentsOf name.text, ValidName s := by
    intro s hs
    rw [spelled] at hat
    obtain ⟨before, after, hsplit⟩ := List.append_of_mem (List.mem_reverse.mpr hs)
    rw [hsplit, List.append_assoc] at hat
    exact validName_of_at? hat
  have front : ∀ n ∈ [FileName.text metaName, "branches"], ValidName n := by decide
  rw [route_eq]
  refine tell_of_names ?_ ?_
  · intro n hn
    rcases List.mem_append.mp hn with hn | hn
    · exact front n hn
    · exact valid n hn
  · rw [spelled] at room
    simp only [branchesPath, metaPath, Route.bytesOf_append, Route.bytesOf_reverse,
      Route.bytesOf] at room ⊢
    omega

/-- A file whose names spell a branch is the file of this branch. -/
theorem branchPath_of_spelled {name : BranchName} {e : Entry}
    (hat : t.at? ((segmentsOf name.text).reverse ++ branchesPath root) = some e) :
    branchPath root name = (segmentsOf name.text).reverse ++ branchesPath root := by
  have goes : ∀ s ∈ segmentsOf name.text, Route.goes s = true := by
    intro s hs
    obtain ⟨before, after, hsplit⟩ := List.append_of_mem (List.mem_reverse.mpr hs)
    rw [hsplit, List.append_assoc] at hat
    exact Route.goes_of_validName (validName_of_at? hat)
  rw [branchPath, List.filter_eq_self.mpr goes]

/-- The branch that a file below the directory of the branches spells is there. -/
theorem get?_of_spelled (h : Housed root t) (refs : SoundRefs root t) {name : BranchName}
    {content : Content}
    (hat : t.at? ((segmentsOf name.text).reverse ++ branchesPath root) = some (.file content)) :
    ∃ c, CommitStored root t c ∧ get? root t name = .ok (some ⟨name, c.id⟩) ∧
      content = .plain (Bytes.ofText c.id.text) := by
  have spelled := branchPath_of_spelled hat
  rw [← spelled] at hat
  rcases get?_cases h refs name with ⟨c, stored, hget, -, hfile⟩ | ⟨-, hnone⟩
  · exact ⟨c, stored, hget, by simpa using hat.symm.trans hfile⟩
  · exact absurd hat (hnone (tell_of_spelled refs spelled hat) content)

/-- The names on the way to a file are the segments of the text that they are joined to. -/
theorem segmentsOf_of_mem_filesBelow {path : Path} (top : t.at? path = some .dir)
    (texts : ∀ p content, path <:+ p → t.at? p = some (.file content) → TextsTo path p)
    {words : List FileName} (h : words ∈ t.filesBelow path) :
    segmentsOf ("/".intercalate (words.map FileName.shown)) = words := by
  obtain ⟨content, hat⟩ := mem_filesBelow.mp h
  have some_ : words ≠ [] := by
    rintro rfl
    simp [top] at hat
  have noSlash : ∀ word ∈ words, '/' ∉ word.chars := by
    intro word hword
    obtain ⟨before, after, hsplit⟩ := List.append_of_mem (List.mem_reverse.mpr hword)
    rw [hsplit, List.append_assoc] at hat
    exact (validName_of_at? hat).2.2.2.1
  exact segmentsOf_intercalate (fun word hword => texts _ content (List.suffix_append _ _) hat _ rfl
    word (List.mem_reverse.mpr hword)) noSlash some_

/-- The names that are listed are those that the files below the directory of the branches spell. -/
theorem mem_names_of_locate (hlocate : t.locate (Layout.branches root) = some (branchesPath root))
    (top : t.at? (branchesPath root) = some .dir)
    (texts : ∀ p content, branchesPath root <:+ p → t.at? p = some (.file content) →
      TextsTo (branchesPath root) p) {name : BranchName} : name ∈ names root t ↔
    ∃ content,
      t.at? ((segmentsOf name.text).reverse ++ branchesPath root) = some (.file content) := by
  unfold names
  rw [hlocate]
  simp only [List.mem_mergeSort, List.mem_filterMap]
  constructor
  · rintro ⟨words, hwords, htext⟩
    rw [ofText?_eq_some htext, segmentsOf_of_mem_filesBelow top texts hwords]
    exact mem_filesBelow.mp hwords
  · rintro ⟨content, hat⟩
    refine ⟨segmentsOf name.text, mem_filesBelow.mpr ⟨content, hat⟩, ?_⟩
    have whole : "/".intercalate ((segmentsOf name.text).map FileName.shown) = name.text := by
      apply String.toList_injective
      rw [String.toList_intercalate, toList_eq_intercalate_segmentsOf name.text, List.map_map]
      have same : ∀ s ∈ segmentsOf name.text, (String.toList ∘ FileName.shown) s = s.chars := by
        intro s hs
        obtain ⟨word, rfl⟩ := exists_text_of_mem_segmentsOf hs
        rfl
      rw [List.map_congr_left same]
      rfl
    rw [whole, BranchName.ofText?_text]

theorem mem_names_iff (h : Housed root t) (refs : SoundRefs root t) {name : BranchName} :
    name ∈ names root t ↔ ∃ content,
      t.at? ((segmentsOf name.text).reverse ++ branchesPath root) = some (.file content) := by
  have straight := h.straight_branches
  have hlocate : t.locate (Layout.branches root) = some (branchesPath root) := by
    rw [locate_of_dir straight.tell straight.level (by rw [path_branches]; exact h.at?_branches),
      path_branches]
  refine mem_names_of_locate hlocate h.at?_branches fun p content below hat => ?_
  obtain ⟨-, -, -, -, texts⟩ := refs p content below hat
  exact texts

/-- **Listing the branches never fails.** -/
theorem all_run (h : Housed root t) (refs : SoundRefs root t) : ∃ bs, all root t = .ok bs := by
  unfold all
  refine mapM_succeeds fun name hname => ?_
  obtain ⟨content, hat⟩ := (mem_names_iff h refs).mp hname
  obtain ⟨c, -, hget, -⟩ := get?_of_spelled h refs hat
  exact ⟨_, by rw [hget]; rfl⟩

/-- A branch is listed exactly when its name is, and then as it is read. -/
theorem mem_all_iff {bs : List Branch} (hall : all root t = .ok bs) {b : Branch} :
    b ∈ bs ↔ b.name ∈ names root t ∧ get? root t b.name = .ok (some b) := by
  constructor
  · intro hb
    obtain ⟨name, hname, h⟩ := exists_of_mem_mapM hall hb
    cases hget : get? root t name with
    | error fault => rw [hget] at h; cases h
    | ok found =>
      rw [hget] at h
      cases found with
      | none => cases h
      | some branch =>
        obtain rfl : branch = b := Except.ok.inj h
        obtain rfl : branch.name = name := (get?_eq_some_iff.mp hget).1
        exact ⟨hname, hget⟩
  · rintro ⟨hname, hget⟩
    obtain ⟨b', hb', h⟩ := exists_mem_of_mapM hall hname
    rw [hget] at h
    obtain rfl : b = b' := Except.ok.inj h
    exact hb'

/-! ## 7. The branch that HEAD names -/

end Branches

/-- `HEAD` names a branch that has a file; the name is plain. -/
def HeadStands (root : Path) (t : FileTree) : Prop :=
  ∃ name : BranchName, PlainName name.text ∧
    t.at? (headPath root) = some (.file (.plain (Bytes.ofText name.text))) ∧
    ∃ content, t.at? (branchPath root name) = some (.file content)

namespace HeadStands

theorem of_stay (h : HeadStands root t) (head : t'.at? (headPath root) = t.at? (headPath root))
    (stay : FilesStay root t t') : HeadStands root t' := by
  obtain ⟨name, plain, hhead, content, hfile⟩ := h
  exact ⟨name, plain, by rw [head, hhead], stay _ content (Branches.below_branchPath root name)
    hfile⟩

/-- The name that `HEAD` holds. -/
theorem head_of_trimmed (h : Housed root t) {name : BranchName}
    (trimmed : Text.trimmed name.text = name.text)
    (hhead : t.at? (headPath root) = some (.file (.plain (Bytes.ofText name.text)))) :
    Branches.head root t = .ok name := by
  have htext := text?_eq h.straight_head (by rw [path_head]; exact hhead)
  rw [Branches.head, htext]
  simp only [trimmed, BranchName.ofText?_text]

theorem head_eq (h : Housed root t) {name : BranchName} (plain : PlainName name.text)
    (hhead : t.at? (headPath root) = some (.file (.plain (Bytes.ofText name.text)))) :
    Branches.head root t = .ok name := head_of_trimmed h plain.trimmed hhead

/-- The way to a plainly named branch with a file can be told. -/
theorem tell_of_plain (refs : SoundRefs root t) {name : BranchName} (plain : PlainName name.text)
    {content : Content} (hat : t.at? (branchPath root name) = some (.file content)) :
    (Branches.route root name).CanTell :=
  Branches.tell_of_spelled refs (plain.branchPath_eq root) hat

/-- **HEAD names a branch that is there.** -/
theorem current_eq (h : Housed root t) (refs : SoundRefs root t) (stands : HeadStands root t) :
    ∃ b c, Branches.current root t = .ok b ∧ PlainName b.name.text ∧ b.tip = c.id ∧
      CommitStored root t c := by
  obtain ⟨name, plain, hhead, content, hfile⟩ := stands
  have tell := tell_of_plain refs plain hfile
  rcases Branches.get?_cases h refs name with ⟨c, stored, hget, -, -⟩ | ⟨-, hnone⟩
  · refine ⟨⟨name, c.id⟩, c, ?_, plain, rfl, stored⟩
    exact Branches.current_of_head (head_eq h plain hhead) hget
  · exact absurd hfile (hnone tell content)

end HeadStands

end LocalVcs
