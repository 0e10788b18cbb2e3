/-
# Files that have just been added

A file that has been staged with success is neither told as untracked nor as dropped by the report
that follows.  Whether it is told as changed depends on what stands in the working directory: what
is staged are the bytes that its name leads to, and the report knows plain files only.  So a link
whose file has been staged is told as deleted.

* `Staging.load_of_save`: what has been saved is loaded again, wherever links stand outside.
* `Command.of_add_ok`: what a file has been staged on.
* `Reached.added`: the report after staging a file.
-/
import LocalVcs.Proofs.CurrentBranch
import LocalVcs.Proofs.UserLinks
import LocalVcs.Proofs.WorkingIds

namespace LocalVcs

open FileTree Layout

variable {root : Path} {t t₁ t' : FileTree} {what : Staged} {name : String}
  {entries : NameMap Bytes} {printed : String} {w : World}

/-! ## 1. Routes into the staging area -/

namespace Sealed

variable (h : Sealed root t)

include h

theorem lookup?_staged (tell : (Layout.staged root what).CanTell) :
    t.lookup? (Layout.staged root what) = t.at? (stagedPath root what) := by
  rw [← path_staged]
  exact h.lookup?_eq ⟨["index"], stagedName what, rfl, by cases what <;> decide⟩
    (by cases what <;> decide) tell

theorem eq_children_of_list?_staged {listed : List (FileName × Entry)}
    (hlist : t.list? (Layout.staged root what) = some listed) :
    listed = t.children (stagedPath root what) := by
  obtain ⟨path, hlocate, hentries⟩ := Option.bind_eq_some_iff.mp hlist
  have level : (".." : FileName) ∉ [FileName.text metaName, "index", stagedName what] := by
    cases what <;> decide
  obtain rfl : path = stagedPath root what :=
    (path_of_locate_enter h.free (by decide) level hlocate).trans (path_staged root what)
  split at hentries
  · exact (Option.some.inj hentries).symm
  · cases hentries

end Sealed

namespace Staging

/-! ## 2. Reading -/

/-- The files of one directory of the staging area are these entries. -/
def Filed (root : Path) (what : Staged) (entries : NameMap Bytes) (t : FileTree) : Prop :=
  ∀ (name : String) bytes, entries[name]? = some bytes ↔
    ∃ content, t.at? (name :: stagedPath root what) = some (.file content) ∧ content.bytes = bytes

theorem Filed.unique {entries' : NameMap Bytes} (h : Filed root what entries t)
    (h' : Filed root what entries' t) : entries = entries' :=
  HeldIn.unique h h'

/-- **What is read are the files that are there.** -/
theorem filed_of_readEntries (h : Sealed root t) (texts : TextsIn (stagedPath root what) t)
    (tell : (Layout.staged root what).CanTell) (hread : readEntries root t what = .ok entries) :
    Filed root what entries t := by
  intro name bytes
  unfold readEntries at hread
  rw [exists?, h.lookup?_staged tell] at hread
  split at hread
  · split at hread
    · cases hread
    · rename_i listed hlist
      obtain rfl := Except.ok.inj hread
      obtain rfl := h.eq_children_of_list?_staged hlist
      exact getElem?_ofList_filesOf texts
  · rename_i absent
    obtain rfl := Except.ok.inj hread
    simp only [Std.ExtTreeMap.getElem?_empty, reduceCtorEq, false_iff, not_exists, not_and]
    intro content hat
    have standing : t.at? (stagedPath root what) = some .dir := (at?_of_cons hat).2
    exact absurd (by rw [standing]; rfl) absent

/-! ## 3. Writing -/

/-- A name that a file of the staging area has, or that stands for a working file. -/
def Nameable (name : String) : Prop := ValidName name ∨ (Worktree.fileName? name).isSome = true

theorem path_of_locate_staged (h : Sealed root t) {segments : List FileName} {word : FileName}
    (level : (".." : FileName) ∉ segments) (steps : segments.filter Route.goes = [word])
    {path : Path} (hlocate : t.locate
      ⟨root, [FileName.text metaName, "index", stagedName what] ++ segments⟩ = some path) :
    path = word :: stagedPath root what := by
  have hpath :
      (Route.mk root ([FileName.text metaName, "index", stagedName what] ++ segments)).path =
      word :: stagedPath root what := by
    rw [Route.path_mk, List.filter_append, steps]
    cases what <;> rfl
  have noUp : (".." : FileName) ∉ [FileName.text metaName, "index", stagedName what] ++ segments :=
    List.not_mem_append (by cases what <;> decide) level
  exact (path_of_locate_enter h.free (by decide) noUp hlocate).trans hpath

/-- **An entry is written to the file of its name.** -/
theorem place?_of_write? (h : Sealed root t) (nameable : Nameable name) {content : Content}
    (hwrite : t.write? ((Layout.staged root what).join name) content = some t') :
    t.place? (name :: stagedPath root what) (.file content) = some t' := by
  obtain ⟨path, hlocate, hplace⟩ := exists_of_write? hwrite
  rcases nameable with valid | known
  · have valids := validNames_staged valid what
    have relative : isAbsolute name = false := by
      have noSlash := valid.2.2.2.1
      rw [isAbsolute, decide_eq_false_iff_not]
      exact fun first => noSlash (List.mem_of_mem_head? first)
    rw [join_staged relative, segmentsOf_of_noSlash valid.2.2.2.1] at hlocate
    obtain rfl : path = .text name :: stagedPath root what :=
      (path_of_locate_enter h.free (by decide) (level_of_names valids) hlocate).trans
        (path_of_names _ valids)
    exact hplace
  · obtain ⟨word, hword⟩ := Option.isSome_iff_exists.mp known
    have spelled := Worktree.names_of_fileName? hword
    obtain ⟨rest, hsegments, hrest⟩ := spelled.segments
    rw [join_staged spelled.relative] at hlocate
    have noUp : (".." : FileName) ∉ segmentsOf name := by
      intro hup
      have : (".." : FileName) ∈ (segmentsOf name).filter Route.goes :=
        List.mem_filter.mpr ⟨hup, by decide⟩
      rw [spelled.steps, List.mem_singleton] at this
      exact spelled.noUp (FileName.text.inj this).symm
    obtain rfl := path_of_locate_staged h noUp spelled.steps hlocate
    cases rest with
    | nil => exact hrest rfl ▸ hplace
    | cons idle rest =>
      -- what is written behind its name is a directory, in whose place no file is put
      have goes : Route.goes (.text word) = true :=
        (List.mem_filter.mp (spelled.steps ▸ List.mem_singleton_self (FileName.text word))).2
      rw [hsegments] at hlocate
      have hdir : t.isDir
          ⟨root, [FileName.text metaName, "index", stagedName what] ++ [.text word]⟩ = true :=
        isDir_of_locate (by simpa using hlocate) (List.cons_ne_nil idle rest)
      obtain ⟨path, hpath, hat⟩ := Option.bind_eq_some_iff.mp (of_decide_eq_true hdir)
      have level : (".." : FileName) ∉ [FileName.text word] := by simpa using spelled.noUp.symm
      have steps : [FileName.text word].filter Route.goes = [.text word] := by simp [goes]
      obtain rfl := path_of_locate_staged h level steps hpath
      exact absurd hat (not_dir_of_place? hplace)

theorem cut_of_removeFile? (h : Sealed root t) {name : FileName} (valid : ValidName name)
    (hremove : t.removeFile? ((Layout.staged root what).child name) = some t') :
    (∃ content, t.at? (name :: stagedPath root what) = some (.file content)) ∧
      t' = t.cut (name :: stagedPath root what) := by
  obtain ⟨path, e, hpath, hat, noDir, rfl⟩ := exists_of_removeFile? hremove
  have valids := validNames_staged valid what
  obtain rfl : path = name :: stagedPath root what :=
    (path_of_locateEntry_enter h.free (by decide) (level_of_names valids) hpath).trans
      (path_of_names _ valids)
  refine ⟨?_, rfl⟩
  cases e with
  | file content => exact ⟨content, hat⟩
  | dir => exact absurd rfl noDir
  | link target => exact absurd hat (h.free _ target ⟨[_, _, _], rfl⟩)

theorem of_dropStale {names : List FileName} (h : Sealed root t) (valid : ∀ n ∈ names, ValidName n)
    (hrun : dropStale root what entries names ⟨t, printed⟩ = (.ok (), w)) :
    Touches root [.index what] t w.tree ∧
      (∀ p e, w.tree.at? p = some e → t.at? p = some e) ∧
      ∀ n ∈ names, n.shown ∉ entries → w.tree.at? (n :: stagedPath root what) = none := by
  induction names generalizing t printed with
  | nil =>
    obtain ⟨-, rfl⟩ := Prod.mk.inj hrun
    exact ⟨Touches.refl root t, fun _ _ hat => hat, by simp⟩
  | cons name rest ih =>
    have valid' : ∀ n ∈ rest, ValidName n := fun n hn => valid n (by simp [hn])
    rw [dropStale] at hrun
    by_cases kept : name.shown ∈ entries
    · rw [if_pos kept] at hrun
      obtain ⟨touch, fewer, gone⟩ := ih h valid' hrun
      refine ⟨touch, fewer, fun n hn stale => ?_⟩
      rcases List.mem_cons.mp hn with rfl | hn
      · exact absurd kept stale
      · exact gone n hn stale
    · rw [if_neg kept] at hrun
      obtain ⟨_, ⟨t₁, printed₁⟩, hedit, hrun⟩ := Action.of_bind_ok hrun
      obtain ⟨-, rfl⟩ := cut_of_removeFile? h (valid name (by simp)) (Action.of_edit_ok hedit)
      have touch₁ := touches_cut_staged root t what name
      obtain ⟨touch, fewer, gone⟩ := ih (h.of_touches touch₁) valid' hrun
      have cutAt := at?_cut (t := t) (List.cons_ne_nil name (stagedPath root what))
      refine ⟨touch₁.trans touch, fun p e hat => ?_, fun n hn stale => ?_⟩
      · have hat := fewer p e hat
        rw [cutAt] at hat
        split at hat
        · cases hat
        · exact hat
      · rcases List.mem_cons.mp hn with rfl | hn
        · cases hat : w.tree.at? (n :: stagedPath root what) with
          | none => rfl
          | some e =>
            have := fewer _ e hat
            rw [cutAt, if_pos (List.suffix_refl _)] at this
            cases this
        · exact gone n hn stale

theorem of_writeEach {written : List (String × Bytes)} (h : Sealed root t)
    (distinct : NameMap.Distinct written) (nameable : ∀ entry ∈ written, Nameable entry.1)
    (hrun : writeEach root what written ⟨t, printed⟩ = (.ok (), w)) :
    Touches root [.index what] t w.tree ∧
      (∀ (n : String) content, (n, content) ∈ written →
        w.tree.at? (n :: stagedPath root what) = some (.file (.plain content))) ∧
      ∀ n : String, (∀ content, (n, content) ∉ written) →
        w.tree.at? (n :: stagedPath root what) = t.at? (n :: stagedPath root what) := by
  induction written generalizing t printed with
  | nil =>
    obtain ⟨-, rfl⟩ := Prod.mk.inj hrun
    exact ⟨Touches.refl root t, by simp, fun _ _ => rfl⟩
  | cons entry rest ih =>
    obtain ⟨name, content⟩ := entry
    obtain ⟨other, distinct⟩ := List.pairwise_cons.mp distinct
    obtain ⟨_, ⟨t₁, printed₁⟩, hedit, hrun⟩ := Action.of_bind_ok hrun
    have hplace := place?_of_write? h (nameable (name, content) (by simp)) (Action.of_edit_ok hedit)
    have placed := at?_place? hplace
    have touch₁ : Touches root [.index what] t t₁ :=
      Touches.of_place? hplace (holds_staged what name) (by simp) (by simp)
    obtain ⟨touch, hwritten, hkept⟩ := ih (h.of_touches touch₁) distinct
      (fun e he => nameable e (by simp [he])) hrun
    refine ⟨touch₁.trans touch, fun n c hmem => ?_, fun n hno => ?_⟩
    · rcases List.mem_cons.mp hmem with heq | hmem
      · obtain ⟨rfl, rfl⟩ := Prod.mk.inj heq
        rw [hkept n fun c hc => other _ hc rfl, placed, if_pos rfl]
      · exact hwritten n c hmem
    · have hne : n ≠ name := fun heq => hno content (by simp [heq])
      rw [hkept n fun c hc => hno c (by simp [hc]), placed, if_neg (by simpa using hne)]

/-- From `t` to `t'` one of the two directories has come to hold these entries; the other one and
all that is outside the staging area are as they were. -/
structure Wrote (root : Path) (what : Staged) (entries : NameMap Bytes) (t t' : FileTree) :
    Prop where
  sealed_ : Sealed root t'
  tell : (Layout.staged root what).CanTell
  frame : ∀ p : Path, ¬.text "index" :: metaPath root <:+ p → t'.at? p = t.at? p
  others : ∀ what', what' ≠ what → ∀ name : String,
    t'.at? (name :: stagedPath root what') = t.at? (name :: stagedPath root what')
  filed : Filed root what entries t'

/-- Once the directory for entries has been made, it is there, with the entries as they were. -/
theorem of_makeDirs_staged (h : Sealed root t)
    (hmake : t.makeDirs (Layout.staged root what) = (true, t')) :
    (Layout.staged root what).CanTell ∧ t'.at? (stagedPath root what) = some .dir ∧
      Sealed root t' ∧ (∀ p : Path, ¬.text "index" :: metaPath root <:+ p → t'.at? p = t.at? p) ∧
      ∀ what' (name : String), t'.at? (name :: stagedPath root what') =
        t.at? (name :: stagedPath root what') := by
  have hmake : t.makeDirs ⟨metaPath root, ["index", stagedName what]⟩ = (true, t') :=
    (makeDirs_enter h.dir).symm.trans hmake
  have path : (Route.mk (metaPath root) ["index", stagedName what]).path = stagedPath root what :=
    path_of_names [.text "index", .text (stagedName what)] (by cases what <;> decide)
  have level : (".." : FileName) ∉ [FileName.text "index", FileName.text (stagedName what)] := by
    cases what <;> decide
  obtain ⟨tell, hdir⟩ := dir_of_makeDirs h.free level hmake
  have made := makeDirs_spec (r := ⟨metaPath root, ["index", stagedName what]⟩) h.free level
  rw [path] at hdir made
  rw [hmake] at made
  refine ⟨(canTell_enter validName_metaName).mpr tell, hdir,
    ⟨made.at?_of_some h.dir, made.linkFree h.free⟩, fun p outside => ?_, fun what' name => ?_⟩
  · rcases made p with same | ⟨-, -, below, other, way⟩
    · exact same
    · rcases List.suffix_cons_iff.mp way with rfl | way
      · exact absurd (List.suffix_cons _ _) outside
      · rcases List.suffix_cons_iff.mp way with rfl | way
        · exact absurd (List.suffix_refl _) outside
        · exact absurd (way.eq_of_length_le below.length_le) other
  · rcases made (name :: stagedPath root what') with same | ⟨-, -, -, -, way⟩
    · exact same
    · exact absurd way.length_le (by simp [stagedPath])

theorem of_writeEntries (h : Sealed root t) (nameable : ∀ name ∈ entries, Nameable name)
    (hrun : writeEntries root what entries ⟨t, printed⟩ = (.ok (), w)) :
    Wrote root what entries t w.tree := by
  obtain ⟨_, ⟨t₁, printed₁⟩, hmake, hafter⟩ := Action.of_bind_ok hrun
  obtain ⟨tell, standing, h₁, outside, inside⟩ := of_makeDirs_staged h (Action.of_makeDirs_ok hmake)
  obtain ⟨present, w₁, hread, hrest⟩ := Action.of_bind_ok hafter
  obtain ⟨hpresent, rfl⟩ := Prod.mk.inj hread
  obtain ⟨_, ⟨t₂, printed₂⟩, hdrop, hwrite⟩ := Action.of_bind_ok hrest
  dsimp only at hpresent h₁ standing outside inside
  have listed : present = t₁.children (stagedPath root what) := by
    cases hlist : t₁.list? (Layout.staged root what) with
    | none => simp [hlist] at hpresent
    | some found =>
      rw [hlist] at hpresent
      exact (Except.ok.inj hpresent).symm.trans (h₁.eq_children_of_list?_staged hlist)
  subst listed
  have mem_names : ∀ name : FileName, name ∈ (t₁.children (stagedPath root what)).map Prod.fst ↔
      ∃ e, t₁.at? (name :: stagedPath root what) = some e := by
    intro name
    simp only [List.mem_map, Prod.exists, exists_and_right, exists_eq_right, mem_children]
  obtain ⟨touch₂, fewer, gone⟩ := of_dropStale h₁ (fun n hn => by
    obtain ⟨e, hat⟩ := (mem_names n).mp hn
    exact (at?_of_cons hat).1) hdrop
  obtain ⟨touch, written, kept⟩ := of_writeEach (h₁.of_touches touch₂)
    (NameMap.distinct_toList entries) (fun e he => nameable e.1
      (NameMap.mem_iff_exists_getElem?.mpr
        ⟨e.2, Std.ExtTreeMap.mem_toList_iff_getElem?_eq_some.mp he⟩)) hwrite
  have touched := touch₂.trans touch
  have left :
      ∀ name : FileName, name.shown ∉ entries → t₂.at? (name :: stagedPath root what) = none := by
    intro name stale
    cases hat : t₂.at? (name :: stagedPath root what) with
    | none => rfl
    | some e =>
      exact hat.symm.trans (gone name ((mem_names name).mpr ⟨e, fewer _ e hat⟩) stale)
  refine ⟨h₁.of_touches touched, tell, fun p away => ?_, fun what' other name => ?_,
    heldIn_of_written left written kept⟩
  · rw [touched.frame p (by
      rintro _ harea held
      obtain rfl := List.mem_singleton.mp harea
      have below : stagedPath root what <:+ p := held.below
      exact away ((List.suffix_cons _ _).trans below)), outside p away]
  · rw [touched.at?_eq (holds_staged what' name) (by simp [other]), inside]

/-- **What has been saved is loaded again.** -/
theorem load_of_save (h : Sealed root t) (texts : ∀ what, TextsIn (stagedPath root what) w.tree)
    {s s' s'' : Staging} (changed : s.changed = true)
    (additions : ∀ name ∈ s.additions, Nameable name)
    (removals : ∀ name ∈ s.removals, Nameable name)
    (hsave : s.save root ⟨t, printed⟩ = (.ok s', w)) (hload : load root w.tree = .ok s'') :
    s''.additions = s.additions ∧ s''.removals = s.removals ∧ Sealed root w.tree ∧
      ∀ p : Path, ¬.text "index" :: metaPath root <:+ p → w.tree.at? p = t.at? p := by
  rw [save, if_pos changed] at hsave
  obtain ⟨_, ⟨t₁, printed₁⟩, hadded, hsave⟩ := Action.of_bind_ok hsave
  obtain ⟨_, w₂, hremoved, hsave⟩ := Action.of_bind_ok hsave
  obtain ⟨-, rfl⟩ := Prod.mk.inj hsave
  have wrote := of_writeEntries h additions hadded
  have wrote' := of_writeEntries wrote.sealed_ removals hremoved
  obtain ⟨hadditions, hremovals, -⟩ := of_load hload
  have additions : Filed root .addition s.additions w₂.tree := fun name bytes => by
    rw [wrote'.others .addition (by decide)]
    exact wrote.filed name bytes
  refine ⟨(filed_of_readEntries wrote'.sealed_ (texts _) wrote.tell hadditions).unique additions,
    (filed_of_readEntries wrote'.sealed_ (texts _) wrote'.tell hremovals).unique wrote'.filed,
    wrote'.sealed_, fun p outside => ?_⟩
  rw [wrote'.frame p outside, wrote.frame p outside]

/-- The names of the entries that are read are names of files. -/
theorem nameable_of_readEntries (h : Sealed root t) (texts : TextsIn (stagedPath root what) t)
    (hread : readEntries root t what = .ok entries) : ∀ name ∈ entries, Nameable name := by
  intro name hname
  unfold readEntries at hread
  split at hread
  · split at hread
    · cases hread
    · rename_i listed hlist
      obtain rfl := Except.ok.inj hread
      obtain rfl := h.eq_children_of_list?_staged hlist
      obtain ⟨bytes, hbytes⟩ := NameMap.mem_iff_exists_getElem?.mp hname
      obtain ⟨content, hat, -⟩ := (getElem?_ofList_filesOf texts).mp hbytes
      exact Or.inl (at?_of_cons hat).1
  · obtain rfl := Except.ok.inj hread
    simp at hname

end Staging

/-- What lies in another part of the repository does not lie in the staging area. -/
theorem not_below_index {x : String} {p : Path} (below : .text x :: metaPath root <:+ p)
    (other : x ≠ "index") : ¬.text "index" :: metaPath root <:+ p := by
  intro inside
  have same := (List.suffix_of_suffix_length_le below inside (by simp)).eq_of_length (by simp)
  exact other (FileName.text.inj (List.cons.inj same).1)

/-! ## 4. Staging a file -/

namespace Command

open LocalVcs.Action

/-- What a file has been staged on. -/
theorem of_add_ok {file : String} (h : add root file ⟨t, printed⟩ = (.ok (), w)) :
    ∃ s content b head s', Worktree.contains root t file = true ∧ Staging.load root t = .ok s ∧
      Worktree.read root t file = .ok content ∧ Branches.current root t = .ok b ∧
      Commits.load root t b.tip = .ok head ∧
      (stageContent head s file content).save root ⟨t, printed⟩ = (.ok s', w) := by
  have leads : (add root file).Leads ⟨t, printed⟩ fun r w' => r = .ok () →
      ∃ s content b head s', Worktree.contains root t file = true ∧ Staging.load root t = .ok s ∧
        Worktree.read root t file = .ok content ∧ Branches.current root t = .ok b ∧
        Commits.load root t b.tip = .ok head ∧
        (stageContent head s file content).save root ⟨t, printed⟩ = (.ok s', w') := by
    unfold add
    refine leads_read_bind_ok rfl ?_
    dsimp only
    split
    · rename_i present
      refine leads_read_bind (fun s hs => ?_) (by simp)
      refine leads_read_bind (fun content hcontent => ?_) (by simp)
      refine leads_headCommit_bind (fun b head hb hhead => leads_discard ?_) (by simp)
      intro hok
      cases hsave : ((stageContent head s file content).save root ⟨t, printed⟩).1 with
      | error fault => simp [hsave, Except.map] at hok
      | ok s' =>
        exact ⟨s, content, b, head, s', present, hs, hcontent, hb, hhead, Prod.ext hsave rfl⟩
    · exact leads_fail_bind (by simp)
  rw [Leads, h] at leads
  exact leads rfl

/-- **What is staged after staging a file** on a staging area `s` and a commit `head`, wherever
links stand outside; nothing but the staging area has changed. -/
theorem add_stages {file : String} (noLink : t.LinkFree (metaPath root))
    (texts : ∀ what, TextsIn (stagedPath root what) t)
    (texts' : ∀ what, TextsIn (stagedPath root what) w.tree)
    (hadd : add root file ⟨t, printed⟩ = (.ok (), w)) {s' : Staging}
    (hload : Staging.load root w.tree = .ok s') :
    ∃ s content b head, Worktree.read root t file = .ok content ∧
      Worktree.contains root t file = true ∧ Branches.current root w.tree = .ok b ∧
      Commits.load root w.tree b.tip = .ok head ∧
      s'.additions = (stageContent head s file content).additions ∧
      s'.removals = (stageContent head s file content).removals ∧
      ∀ p : Path, ¬.text "index" :: metaPath root <:+ p → w.tree.at? p = t.at? p := by
  obtain ⟨s, content, b, head, saved, present, hs, hcontent, hcurrent, hhead, hsave⟩ :=
    of_add_ok hadd
  have h := Branches.sealed_of_current noLink hcurrent
  refine ⟨s, content, b, head, hcontent, present, ?_⟩
  by_cases changed : (stageContent head s file content).changed = true
  · obtain ⟨hadditions, hremovals, -⟩ := Staging.of_load hs
    obtain ⟨additions, removals, h', frame⟩ := Staging.load_of_save h texts' changed
      (fun name hname => (mem_stageContent.1 name hname).elim
        (fun same => Or.inr (same ▸ fileName?_of_contains present))
        (Staging.nameable_of_readEntries h (texts _) hadditions name))
      (fun name hname => Staging.nameable_of_readEntries h (texts _) hremovals name
        (mem_stageContent.2 name hname)) hsave hload
    obtain ⟨hb, hget⟩ := Branches.of_current hcurrent
    have hb' : Branches.head root w.tree = .ok b.name := by
      rw [Branches.head_of_same h h' (frame _ (not_below_index (List.suffix_refl _) (by decide))),
        hb]
    refine ⟨Branches.current_of_head hb' ?_, ?_, additions, removals, frame⟩
    · rw [Branches.get?_of_same h h'
        (frame _ (not_below_index (Branches.below_branchPath root b.name) (by decide))), hget]
    · have stored : .text (storeName .commit) :: metaPath root <:+ objectPath root .commit b.tip :=
        ⟨[_, _], rfl⟩
      rw [Branches.load_of_same h h' (frame _ (not_below_index stored (by decide))), hhead]
  · have same : stageContent head s file content = s :=
      stageContent_of_unchanged (by simpa using changed)
    rw [same] at hsave ⊢
    rw [Staging.save, if_neg (by rw [← same]; exact changed)] at hsave
    obtain ⟨-, rfl⟩ := Prod.mk.inj hsave
    obtain rfl := Except.ok.inj (hs.symm.trans hload)
    exact ⟨hcurrent, hhead, rfl, rfl, fun _ _ => rfl⟩

/-- A file that is staged is no longer staged to be dropped, and the next commit holds it with what
has been staged. -/
theorem of_stageContent (head : Commit) (s : Staging) (file : String) (content : Bytes) :
    file ∉ (stageContent head s file content).removals ∧
      ((stageContent head s file content).additions[file]? = some content ∨
        (stageContent head s file content).additions[file]? = none ∧
          head.manifest[file]? = some (Object.blobId content)) := by
  unfold stageContent
  split
  · rename_i held
    exact ⟨by simp [Staging.unstageRemoval], Or.inr
      ⟨by simp [Staging.unstageRemoval, Staging.unstageAddition], held⟩⟩
  · exact ⟨by simp [Staging.unstageRemoval], Or.inl (by simp [Staging.unstageRemoval, Staging.add])⟩

end Command

/-- Of a file that the next commit holds under an id, what is told are its changes since then. -/
theorem Status.told_of_held {head additions : NameMap ObjectId} {removals : NameSet} {file : String}
    {id : ObjectId} (working : NameMap ObjectId) (notRemoved : file ∉ removals)
    (held : additions[file]? = some id ∨ additions[file]? = none ∧ head[file]? = some id) :
    file ∉ untrackedFiles head additions removals working ∧
      (unstagedChanges head additions removals working)[file]? = change? id working[file]? := by
  constructor
  · intro untracked
    obtain ⟨-, notAdded, new⟩ := mem_untrackedFiles.mp untracked
    rcases held with hadded | ⟨-, htracked⟩
    · exact notAdded (NameMap.mem_iff_exists_getElem?.mpr ⟨id, hadded⟩)
    · exact new.elim (fun new => new (NameMap.mem_iff_exists_getElem?.mpr ⟨id, htracked⟩))
        notRemoved
  · rw [getElem?_unstagedChanges]
    rcases held with hadded | ⟨hadded, htracked⟩
    · rw [hadded]
    · simp [hadded, htracked, notRemoved]

namespace Command

/-- **What is told of a file after staging it**, where no link is in the repository's own
directory. -/
theorem report_of_add {file : String} (noLink : t.LinkFree (metaPath root))
    (texts : ∀ what, TextsIn (stagedPath root what) t)
    (texts' : ∀ what, TextsIn (stagedPath root what) w.tree)
    (hadd : add root file ⟨t, printed⟩ = (.ok (), w)) {s : Status}
    (hreport : Status.report root w.tree = .ok s) :
    file ∉ s.removed ∧ file ∉ s.untracked ∧
      (s.unstaged[file]? = some .deleted ↔ ¬Worktree.Listed root t file) ∧
      ∀ found, t.at? (file :: root) = some (.file found) → s.unstaged[file]? = none := by
  obtain ⟨staging, branches, name, mine, head, working, hstaging, hmine, hhead, hworking, rfl⟩ :=
    Status.of_report hreport
  obtain ⟨s, content, b, head', hcontent, present, hcurrent, hload, additions, removals, frame⟩ :=
    add_stages noLink texts texts' hadd hstaging
  obtain rfl := Except.ok.inj (hmine.symm.trans hcurrent)
  obtain rfl := Except.ok.inj (hhead.symm.trans hload)
  obtain ⟨notRemoved, held⟩ := of_stageContent head s file content
  rw [← removals] at notRemoved
  rw [← additions] at held
  have notRemoved : file ∉ staging.removedNames := mt Staging.mem_removedNames.mp notRemoved
  have held : staging.additionIds[file]? = some (Object.blobId content) ∨
      staging.additionIds[file]? = none ∧ head.manifest[file]? = some (Object.blobId content) := by
    simpa [Staging.additionIds] using held.imp_left (congrArg (Option.map Object.blobId))
  obtain ⟨notUntracked, told⟩ := Status.told_of_held working notRemoved held
  have same (name : FileName) : w.tree.at? (name :: root) = t.at? (name :: root) :=
    frame _ fun inside => absurd inside.length_le (by simp [metaPath])
  have listed : file ∈ working ↔ Worktree.Listed root t file := by
    obtain ⟨names, hlist, mem_working⟩ := mem_workingIds hworking
    rw [mem_working, Worktree.mem_of_list hlist]
    simp only [Worktree.Listed, same]
  refine ⟨fun removed => notRemoved (Std.ExtTreeSet.mem_toList.mp removed), notUntracked,
    (told ▸ ?_), fun found hat => told.trans ?_⟩
  · rw [← listed, Std.ExtTreeMap.mem_iff_isSome_getElem?]
    cases working[file]? with
    | none => simp [Status.change?]
    | some id => simp only [Status.change?]; split <;> simp
  · -- what has been staged are the bytes of this file
    obtain rfl := Worktree.of_read hcontent hat
    have named := fileName?_of_contains present
    obtain ⟨id, hid⟩ := NameMap.mem_iff_exists_getElem?.mp (listed.mpr (.of_file named hat))
    obtain ⟨-, bytes, hread, rfl⟩ := (getElem?_workingIds hworking).mp hid
    obtain rfl := Worktree.of_read hread ((same file).trans hat)
    rw [hid]
    simp [Status.change?]

end Command

/-! ## 5. In states that are reached -/

/-- What is staged is named by texts. -/
theorem Reached.textsIn_staged (reached : Reached root t) (what : Staged) :
    TextsIn (stagedPath root what) t :=
  reached.textsIn ⟨[_, _], rfl⟩

open LocalVcs.Action in
/-- **The report after staging a file**, in any state that is reached, with links about outside the
repository's own directory: the file is neither told as dropped nor as untracked, and it is told as
deleted exactly where no plain file is listed under its name.  Of a plain file nothing is told. -/
theorem Reached.added (reached : Reached root t) {settings : Settings} (here : settings.root = root)
    {guarded : Bool} {file printed : String} {w : World}
    (hadd : (Request.add file).perform settings guarded ⟨t, printed⟩ = (.ok (), w)) {s : Status}
    (hreport : Status.report root w.tree = .ok s) :
    file ∉ s.removed ∧ file ∉ s.untracked ∧
      (s.unstaged[file]? = some .deleted ↔ ¬Worktree.Listed root t file) ∧
      ∀ found, t.at? (file :: root) = some (.file found) → s.unstaged[file]? = none := by
  subst here
  obtain ⟨_, -, hrun⟩ := Request.of_perform_ok hadd
  exact Command.report_of_add reached.linkFree reached.textsIn_staged
    (reached.request rfl hadd).textsIn_staged hrun hreport

/-! ## 6. A file and a link to it -/

namespace Linked

/-- What starting a repository where nothing was comes to. -/
def begun : Except Fault Unit × World := Command.init [] ⟨FileTree.empty, ""⟩

/-- There the user puts a file, and a link to it. -/
def tree : FileTree :=
  ((begun.2.tree.place? ["t"] (.file (.plain [1]))).bind (·.place? ["l"] (.link "t"))).getD
    begun.2.tree

/-- What staging a file comes to. -/
def added (file : String) : Except Fault Unit × World :=
  (Request.add file).perform Apart.settings false ⟨tree, ""⟩

/-- The parts of a report can be told, with `master` as the only branch. -/
def CanReport (t : FileTree) : Prop :=
  (Staging.load [] t).isOk = true ∧
    (t.locate (Layout.branches [])).map (fun path =>
      (t.filesBelow path).filterMap fun words =>
        BranchName.ofText? ("/".intercalate (words.map FileName.shown))) =
        some [BranchName.master] ∧
    Branches.current [] t = .ok ⟨BranchName.master, Commit.initial.id⟩ ∧
    Commits.load [] t Commit.initial.id = .ok Commit.initial ∧
    (Command.workingIds [] t).isOk = true

instance (t : FileTree) : Decidable (CanReport t) := by unfold CanReport; infer_instance

theorem exists_of_isOk {ε α : Type} {result : Except ε α} (h : result.isOk = true) :
    ∃ a, result = .ok a := by
  cases result with
  | error _ => cases h
  | ok a => exact ⟨a, rfl⟩

theorem CanReport.report {t : FileTree} (h : CanReport t) : ∃ s, Status.report [] t = .ok s := by
  obtain ⟨hstaging, hnames, hcurrent, hload, hworking⟩ := h
  obtain ⟨staging, hstaging⟩ := exists_of_isOk hstaging
  obtain ⟨working, hworking⟩ := exists_of_isOk hworking
  obtain ⟨hhead, hget⟩ := Branches.of_current hcurrent
  obtain ⟨path, hlocate, hfiles⟩ := Option.map_eq_some_iff.mp hnames
  have names : Branches.names [] t = [BranchName.master] := by
    simp only [Branches.names, hlocate, hfiles, List.mergeSort_singleton]
  obtain ⟨branches, hall⟩ : ∃ branches, Branches.all [] t = .ok branches := by
    refine mapM_succeeds fun name hname => ?_
    rw [names, List.mem_singleton] at hname
    exact ⟨_, by rw [hname, hget]; rfl⟩
  exact ⟨_, by simp only [Status.report, hstaging, hall, hhead, hcurrent, hload, hworking, bind,
    Except.bind, Except.mapError]; rfl⟩

theorem evaluated : begun.1 = .ok () ∧
    tree.at? ["t"] = some (.file (.plain [1])) ∧ tree.at? ["l"] = some (.link "t") ∧
    ∀ file ∈ ["t", "l"], (added file).1 = .ok () ∧ CanReport (added file).2.tree := by
  decide +kernel

/-- The user has left all else as it is. -/
theorem at?_tree {p : Path} (noFile : p ≠ [.text "t"]) (noLink : p ≠ [.text "l"]) :
    tree.at? p = begun.2.tree.at? p := by
  rw [tree]
  cases hfile : begun.2.tree.place? ["t"] (.file (.plain [1])) with
  | none => rfl
  | some t₁ =>
    rw [Option.bind_some]
    cases hlink : t₁.place? ["l"] (.link "t") with
    | none => rfl
    | some t₂ =>
      rw [Option.getD_some, at?_place? hlink, at?_place? hfile, if_neg noLink, if_neg noFile]

theorem begun_run : Command.init [] ⟨FileTree.empty, ""⟩ = (.ok (), begun.2) := by
  rw [← evaluated.1]
  exact (Prod.eta begun).symm

theorem reached : Reached [] tree := by
  have start : Reached [] begun.2.tree := Reached.start begun_run
  have ne {p : Path} (below : metaPath [] <:+ p) (name : FileName) (other : name ≠ metaName) :
      p ≠ [name] := by
    rintro rfl
    exact other (List.cons.inj (below.eq_of_length rfl)).1.symm
  exact start.edit fun _ below =>
    at?_tree (ne below "t" (by decide)) (ne below "l" (by decide))

/-- All names in the working directory are texts. -/
theorem textsIn : TextsIn [] tree := by
  intro name e hat
  by_cases file : [name] = [.text "t"]
  · exact ⟨"t", (List.cons.inj file).1⟩
  by_cases link : [name] = [.text "l"]
  · exact ⟨"l", (List.cons.inj link).1⟩
  rw [at?_tree file link] at hat
  obtain ⟨_, old⟩ | ⟨text, _, heq⟩ := (Command.onlyTextsCome_of_init begun_run).told _ e hat
  · cases old
  · exact ⟨text, (List.cons.inj heq).1⟩

theorem added_run (file : String) (h : file ∈ ["t", "l"]) :
    (Request.add file).perform Apart.settings false ⟨tree, ""⟩ = (.ok (), (added file).2) :=
  Prod.ext (evaluated.2.2.2 file h).1 rfl

/-- After the file has been staged, nothing more is told of it. -/
theorem added_file : ∃ s, Reached [] tree ∧ Apart.settings.root = [] ∧
    (Request.add "t").perform Apart.settings false ⟨tree, ""⟩ = (.ok (), (added "t").2) ∧
    Status.report [] (added "t").2.tree = .ok s ∧ tree.at? ["t"] = some (.file (.plain [1])) ∧
    "t" ∉ s.removed ∧ "t" ∉ s.untracked ∧ s.unstaged["t"]? = none := by
  have hrun := added_run "t" (by decide)
  have hat := evaluated.2.1
  obtain ⟨s, hreport⟩ := (evaluated.2.2.2 "t" (by decide)).2.report
  obtain ⟨notRemoved, notUntracked, told⟩ := reached.added rfl hrun hreport
  exact ⟨s, reached, rfl, hrun, hreport, hat, notRemoved, notUntracked, told.2 _ hat⟩

/-- **After the link has been staged, it is told as deleted.** -/
theorem added_link : ∃ s, Reached [] tree ∧ tree.at? ["l"] = some (.link "t") ∧
    (Request.add "l").perform Apart.settings false ⟨tree, ""⟩ = (.ok (), (added "l").2) ∧
    Status.report [] (added "l").2.tree = .ok s ∧ s.unstaged["l"]? = some .deleted := by
  have hrun := added_run "l" (by decide)
  have hat := evaluated.2.2.1
  obtain ⟨s, hreport⟩ := (evaluated.2.2.2 "l" (by decide)).2.report
  obtain ⟨_, -, hadd⟩ := Request.of_perform_ok hrun
  obtain ⟨-, -, told, -⟩ := Command.report_of_add reached.linkFree reached.textsIn_staged
    (reached.request rfl hrun).textsIn_staged hadd hreport
  refine ⟨s, reached, hat, hrun, hreport, told.mpr fun listed => ?_⟩
  obtain ⟨content, file⟩ := listed.exists_file textsIn
  cases hat.symm.trans file

end Linked

end LocalVcs
