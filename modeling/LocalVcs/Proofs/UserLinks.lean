/-
# Links and names that the user alone makes

No request makes a symbolic link, and what a request makes has a text for its name.  The user may
make links anywhere outside the repository's own directory, so a working file may be one, and a
request may write through it; but in the repository's own directory there are none, from the start,
and all names there are texts.

* `FileTree.Told`, `FileTree.Reaches.told`: where a route leads that is told by texts.
* `OnlyTextsCome`: no links come, and what comes has a text for its name.
* `Request.perform_onlyTextsCome`: so it is whatever a request comes to.
* `Reached`: the states that are reached by requests and by edits of whatever kind outside the
  repository's directory.
* `Reached.linkFree`, `Reached.textsIn`: what is known of that directory there.
-/
import LocalVcs.Proofs.FileTree.Growth
import LocalVcs.Proofs.Scopes

namespace LocalVcs

open FileTree Layout

variable {t t' t'' : FileTree} {root : Path}

/-! ## 1. Routes that are told by texts -/

theorem Route.Spelled.join {r : Route} (h : r.Spelled) (text : String) : (r.join text).Spelled := by
  unfold Route.join
  split
  · exact fun _ hs => exists_text_of_mem_segmentsOf (List.mem_of_mem_tail hs)
  · intro s hs
    rcases List.mem_append.mp hs with hs | hs
    · exact h s hs
    · exact exists_text_of_mem_segmentsOf hs

namespace FileTree

/-- Something stands at a path, or the last name of the path is a text. -/
def Told (t : FileTree) (p : Path) : Prop :=
  (∃ e, t.at? p = some e) ∨ ∃ text parent, p = .text text :: parent

/-- Where texts lead, the last name is a text if nothing stands there; the targets of links are
texts too. -/
theorem Reaches.told {links : Nat} {here q : Path} {segments : List FileName}
    (h : Reaches t links here segments q) (spelled : ∀ s ∈ segments, ∃ text, s = .text text)
    (start : ∃ e, t.at? here = some e) : t.Told q := by
  induction h with
  | done => exact Or.inl start
  | idle _ _ _ ih => exact ih (fun s hs => spelled s (List.mem_cons_of_mem _ hs)) start
  | up dir _ ih =>
    exact ih (fun s hs => spelled s (List.mem_cons_of_mem _ hs)) ⟨.dir, at?_tail dir⟩
  | link dir _ _ _ ih =>
    refine ih (fun s hs => ?_) ⟨.dir, ?_⟩
    · rcases List.mem_append.mp hs with hs | hs
      · exact exists_text_of_mem_segmentsOf hs
      · exact spelled s (List.mem_cons_of_mem _ hs)
    · split
      · exact t.at?_nil
      · exact dir
  | enter _ _ hat _ _ ih => exact ih (fun s hs => spelled s (List.mem_cons_of_mem _ hs)) ⟨_, hat⟩
  | fresh =>
    obtain ⟨text, rfl⟩ := spelled _ List.mem_cons_self
    exact Or.inr ⟨text, _, rfl⟩

theorem told_of_locate {r : Route} {q : Path} (h : t.locate r = some q)
    (begins : r.segments ≠ [] ∨ r.start = []) (spelled : r.Spelled) : t.Told q := by
  obtain ⟨-, reaches⟩ := locate_iff_reaches.mp h
  refine reaches.told spelled ⟨.dir, ?_⟩
  rcases begins with some_ | top
  · exact reaches.start_dir some_
  · rw [top, at?_nil]

theorem told_of_locateEntry {r : Route} {q : Path} (h : t.locateEntry r = some q)
    (spelled : r.Spelled) : t.Told q := by
  obtain ⟨front, last, parent, hsegments, -, -, rfl⟩ := exists_of_locateEntry h
  obtain ⟨text, rfl⟩ := spelled last (by simp [hsegments])
  exact Or.inr ⟨text, parent, rfl⟩

end FileTree

/-! ## 2. Trees in which only texts come -/

/-- From `t` to `t'` no link has come, and what has come has a text for its name. -/
structure OnlyTextsCome (t t' : FileTree) : Prop where
  noLink : ∀ p target, t'.at? p = some (.link target) → t.at? p = some (.link target)
  told : ∀ p e, t'.at? p = some e → t.Told p

namespace OnlyTextsCome

theorem refl (t : FileTree) : OnlyTextsCome t t := ⟨fun _ _ h => h, fun _ e h => Or.inl ⟨e, h⟩⟩

theorem trans (h : OnlyTextsCome t t') (h' : OnlyTextsCome t' t'') : OnlyTextsCome t t'' where
  noLink p target hat := h.noLink p target (h'.noLink p target hat)
  told p e hat := (h'.told p e hat).elim (fun ⟨e', hat'⟩ => h.told p e' hat') Or.inr

theorem of_place? {path : Path} {e : Entry} (h : t.place? path e = some t') (told : t.Told path)
    (noLink : ∀ target, e ≠ .link target) : OnlyTextsCome t t' where
  noLink p target hat := by
    rw [at?_place? h] at hat
    split at hat
    · exact absurd (Option.some.inj hat) (noLink target)
    · exact hat
  told p e' hat := by
    rw [at?_place? h] at hat
    split at hat
    · rename_i here
      exact here ▸ told
    · exact Or.inl ⟨e', hat⟩

theorem of_cut (t : FileTree) (path : Path) : OnlyTextsCome t (t.cut path) := by
  have stood : ∀ p e, (t.cut path).at? p = some e → t.at? p = some e := by
    intro p e hat
    by_cases top : path = []
    · subst top; exact hat
    · rw [at?_cut top] at hat
      split at hat
      · cases hat
      · exact hat
  exact ⟨fun p target => stood p _, fun p e hat => Or.inl ⟨e, stood p e hat⟩⟩

section Requests

variable {r : Route} {content : Content}

theorem of_write? (begins : r.segments ≠ [] ∨ r.start = []) (spelled : r.Spelled)
    (h : t.write? r content = some t') : OnlyTextsCome t t' := by
  obtain ⟨path, hpath, hplace⟩ := exists_of_write? h
  exact of_place? hplace (told_of_locate hpath begins spelled) (by simp)

theorem of_replace? (spelled : r.Spelled) (h : t.replace? r content = some t') :
    OnlyTextsCome t t' := by
  obtain ⟨path, hpath, hplace⟩ := exists_of_replace? h
  exact of_place? hplace (told_of_locateEntry hpath spelled) (by simp)

theorem of_makeDir? (spelled : r.Spelled) (h : t.makeDir? r = some t') : OnlyTextsCome t t' := by
  obtain ⟨path, hpath, -, hplace⟩ := exists_of_makeDir? h
  exact of_place? hplace (told_of_locateEntry hpath spelled) (by simp)

theorem of_makeDirsFrom {names : List FileName} (spelled : r.Spelled)
    (texts : ∀ s ∈ names, ∃ text, s = .text text) :
    OnlyTextsCome t (t.makeDirsFrom r names).2 := by
  induction names generalizing t r with
  | nil => exact refl t
  | cons name rest ih =>
    obtain ⟨text, rfl⟩ := texts name List.mem_cons_self
    have textsRest : ∀ s ∈ rest, ∃ text, s = .text text := fun s hs =>
      texts s (List.mem_cons_of_mem _ hs)
    rw [makeDirsFrom]
    split
    · exact ih (spelled.child text) textsRest
    · split
      · rename_i t₁ hmake
        exact (of_makeDir? (spelled.child text) hmake).trans (ih (spelled.child text) textsRest)
      · exact refl t

theorem of_makeDirs (spelled : r.Spelled) : OnlyTextsCome t (t.makeDirs r).2 := by
  unfold makeDirs
  split
  · exact of_makeDirsFrom (by simp [Route.Spelled]) fun s hs =>
    spelled s (List.mem_of_mem_filter hs)
  · exact refl t

theorem of_removeFile? (h : t.removeFile? r = some t') : OnlyTextsCome t t' := by
  obtain ⟨path, -, -, -, -, rfl⟩ := exists_of_removeFile? h
  exact of_cut t path

theorem of_removeEmptyDir? (h : t.removeEmptyDir? r = some t') : OnlyTextsCome t t' := by
  obtain ⟨path, -, rfl⟩ := exists_of_removeEmptyDir? h
  exact of_cut t path

end Requests

theorem of_edit {scope : Scope} (h : Edit root scope t t') : OnlyTextsCome t t' := by
  have working : ∀ name : String, (Route.mk root [name]).Spelled := fun name _ hs =>
    ⟨name, List.mem_singleton.mp hs⟩
  cases h with
  | headDir => exact of_makeDirs Route.spelled_metaDir
  | head _ h => exact of_write? (Or.inl (List.cons_ne_nil _ _)) (Route.spelled_metaDir.child _) h
  | dirs _ _ spelled => exact of_makeDirs spelled
  | put _ below spelled h =>
    obtain ⟨segments, rfl, -⟩ := below.inside
    exact h.elim (of_write? (Or.inl (by simp)) spelled) (of_replace? spelled)
  | drop _ _ h => exact h.elim of_removeFile? of_removeEmptyDir?
  | @stage what name _ _ _ _ h =>
    have spelled : (Layout.staged root what).Spelled := (Route.spelled_metaDir.child _).child _
    refine of_write? ?_ (spelled.join name) h
    unfold Route.join
    split
    · exact Or.inr rfl
    · exact Or.inl (by simp [Layout.staged, Route.child])
  | write _ _ h => exact of_write? (Or.inl (by simp)) (working _) h
  | clear _ _ h => exact Worktree.eq_cut_of_removeAll? h ▸ of_cut t _
  | delete _ h => exact of_removeFile? h

end OnlyTextsCome

/-! ## 3. No request makes a link -/

theorem Edits.onlyTextsCome {scope : Scope} (h : Edits root scope t t') : OnlyTextsCome t t' :=
  h.closed (I := fun _ => True) .refl .trans (fun _ _ => trivial) (fun _ => .of_edit) trivial

/-- **No request makes a link**, and what it makes has a text for its name, whatever it comes to. -/
theorem Request.perform_onlyTextsCome (settings : Settings) (guarded : Bool) (request : Request)
    (w : World) : (request.perform settings guarded).Leads w fun _ w' =>
      OnlyTextsCome w.tree w'.tree :=
  (Request.perform_careful settings guarded request w).mono fun _ _ outcome =>
    outcome.1.onlyTextsCome

open LocalVcs.Action

/-! ## 4. States that are reached with links about -/

/-- **A repository is started only where nothing stands in its place.** -/
theorem Command.fresh_of_init {printed : String} {w' : World}
    (h : init root ⟨t, printed⟩ = (.ok (), w')) : t.at? (metaPath root) = none := by
  unfold init at h
  dsimp only at h
  obtain ⟨answer, w₀, hanswer, h⟩ := of_bind_ok h
  obtain ⟨hans, rfl⟩ := Prod.mk.inj hanswer
  cases answer with
  | true => cases h
  | false =>
    rw [if_neg Bool.false_ne_true] at h
    obtain ⟨_, w₁, hmake, -⟩ := of_bind_ok h
    have noDir : t.isDir ((Route.mk root []).child metaName) = false := Except.ok.inj hans
    have made := of_makeDirs_ok hmake
    have steps : (Layout.store root .blob).steps = [.text metaName, .text (storeName .blob)] := rfl
    have start : (Layout.store root .blob).start = root := rfl
    rw [FileTree.makeDirs, steps, start] at made
    split at made
    · rw [makeDirsFrom, noDir, if_neg Bool.false_ne_true] at made
      split at made
      · rename_i hdir
        exact fresh_of_makeDir? hdir
      · cases made
    · cases made

/-- Starting a repository makes no link either. -/
theorem Command.onlyTextsCome_of_init {printed : String} {r : Except Fault Unit} {w' : World}
    (h : init root ⟨t, printed⟩ = (r, w')) : OnlyTextsCome t w'.tree := by
  have come : OnlyTextsCome t (init root ⟨t, printed⟩).2.tree :=
    (init_careful ⟨t, printed⟩).1.onlyTextsCome
  rwa [h] at come

/-- The states that are reached from a repository just started by requests, whatever comes of them,
and by edits that leave the repository's own directory as it is.  There may be links outside. -/
inductive Reached (root : Path) : FileTree → Prop
  | start {t : FileTree} {printed : String} {w' : World} :
      Command.init root ⟨t, printed⟩ = (.ok (), w') → Reached root w'.tree
  | edit {t t' : FileTree} : Reached root t → (∀ p, metaPath root <:+ p → t'.at? p = t.at? p) →
      Reached root t'
  | request {t : FileTree} {settings : Settings} {guarded : Bool} {request : Request}
      {printed : String} {r : Except Fault Unit} {w' : World} : Reached root t →
      settings.root = root → request.perform settings guarded ⟨t, printed⟩ = (r, w') →
      Reached root w'.tree

/-- **In the repository's own directory there are no links, and all names are texts.** -/
theorem Reached.plain (h : Reached root t) : t.LinkFree (metaPath root) ∧
    ∀ dir, metaPath root <:+ dir → TextsIn dir t := by
  induction h with
  | @start t printed w' hinit =>
    have fresh := Command.fresh_of_init hinit
    have nothing : ∀ p, metaPath root <:+ p → t.at? p = none := by
      intro p below
      by_cases hp : metaPath root = p
      · exact hp ▸ fresh
      · cases hat : t.at? p with
        | none => rfl
        | some e => cases fresh.symm.trans (at?_eq_dir_of_suffix hat below hp)
    have come := Command.onlyTextsCome_of_init hinit
    refine ⟨fun p target below hat => ?_, fun dir below name e hat => ?_⟩
    · cases (nothing p below).symm.trans (come.noLink p target hat)
    · obtain ⟨e', hat'⟩ | ⟨text, parent, heq⟩ := come.told _ e hat
      · cases (nothing _ (below.trans (List.suffix_cons name dir))).symm.trans hat'
      · exact ⟨text, (List.cons.inj heq).1⟩
  | edit _ same ih =>
    refine ⟨fun p target below => ?_, fun dir below name e hat => ?_⟩
    · rw [same p below]
      exact ih.1 p target below
    · rw [same _ (below.trans (List.suffix_cons name dir))] at hat
      exact ih.2 dir below name e hat
  | @request t settings guarded request printed r w' _ _ hrun ih =>
    have come := Request.perform_onlyTextsCome settings guarded request ⟨t, printed⟩
    rw [Leads, hrun] at come
    refine ⟨fun p target below hat => ih.1 p target below (come.noLink p target hat),
      fun dir below name e hat => ?_⟩
    obtain ⟨e', hat'⟩ | ⟨text, parent, heq⟩ := come.told _ e hat
    · exact ih.2 dir below name e' hat'
    · exact ⟨text, (List.cons.inj heq).1⟩

theorem Reached.linkFree (h : Reached root t) : t.LinkFree (metaPath root) := h.plain.1

theorem Reached.textsIn (h : Reached root t) {dir : Path} (below : metaPath root <:+ dir) :
    TextsIn dir t := h.plain.2 dir below

end LocalVcs
