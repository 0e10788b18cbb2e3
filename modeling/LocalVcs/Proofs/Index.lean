/-
# The staging area on disk

Each staged entry is a file in the directory of its kind.  Reading gives back what is there; writing
makes it what is staged, and where a name can have no file it fails before anything untrackable is
written.

* `SoundIndex`: only files lie there, each under a name that can be tracked.
* `Shows`, `Staging.load_eq`: a staging area shows what is stored, and that is what is loaded.
* `Staging.save_leads`: what saving leads to, whether it succeeds or not.
* `Staging.save_run`, `Staging.clear_save_run`: saving what can be tracked, and saving nothing.
* `Staging.save_stops`: saving one more name, which cannot be tracked.
-/
import LocalVcs.Proofs.FileTree.Entries
import LocalVcs.Proofs.NameMap
import LocalVcs.Proofs.WorkingFiles
import LocalVcs.Staging

namespace LocalVcs

open FileTree Layout

variable {root : Path} {t t' : FileTree}

/-! ## 1. What the names of staged files are like -/

/-- A text that stands for a working file is its name, then segments that go nowhere. -/
theorem Worktree.Names.segments {text name : String} (h : Names text name) :
    ∃ rest, segmentsOf text = .text name :: rest ∧ (rest = [] → text = name) := by
  have whole := toList_eq_intercalate_segmentsOf text
  cases hsegments : segmentsOf text with
  | nil => have := h.steps; simp [hsegments] at this
  | cons s rest =>
    have steps := h.steps
    rw [hsegments] at steps whole
    have noDot : s ≠ "." := fun hs => h.noDot (by simp [hsegments, hs])
    have some_ : s ≠ "" := by
      rintro rfl
      cases rest with
      | nil => simp [Route.goes] at steps
      | cons r rest =>
        have := h.relative
        simp [isAbsolute, whole] at this
    have goes : Route.goes s = true := by simp [Route.goes, noDot, some_]
    rw [List.filter_cons, if_pos goes] at steps
    obtain ⟨rfl, -⟩ := List.cons.inj steps
    refine ⟨rest, rfl, ?_⟩
    rintro rfl
    exact String.toList_injective (by simpa using whole)

/-! ## 2. A sound staging area -/

/-- What lies in the staging area are files, each under a name that can be tracked. -/
def SoundIndex (root : Path) (t : FileTree) : Prop :=
  ∀ what name e, t.at? (name :: stagedPath root what) = some e →
    ∃ bytes text, e = .file (.plain bytes) ∧ name = .text text ∧ Trackable root text

theorem holds_staged (what : Staged) (name : FileName) :
    (Area.index what).Holds root (name :: stagedPath root what) :=
  Area.holds_of_below (List.suffix_cons _ _)
    (Area.ne_of_longer (by simp [Area.names, stagedPath, metaPath])) (by simp)

/-- Taking an entry away changes its directory only. -/
theorem touches_cut_staged (root : Path) (t : FileTree) (what : Staged) (name : FileName) :
    Touches root [.index what] t (t.cut (name :: stagedPath root what)) :=
  Touches.of_cut (.index what) (List.cons_ne_nil _ _)
    (fun p below => Area.holds_of_below ((List.suffix_cons _ _).trans below)
      (Area.ne_of_longer (Nat.lt_of_lt_of_le (Nat.lt_succ_self _) below.length_le)) (by simp))
    (by simp)

theorem SoundIndex.of_touches (h : SoundIndex root t) {areas : List Area}
    (touch : Touches root areas t t') (away : ∀ what, Area.index what ∉ areas) :
    SoundIndex root t' := fun what name e hat => by
  rw [touch.at?_eq (holds_staged what name) (away what)] at hat
  exact h what name e hat

theorem SoundIndex.textsIn (sound : SoundIndex root t) (what : Staged) :
    TextsIn (stagedPath root what) t := fun name e hat => by
  obtain ⟨-, text, -, hname, -⟩ := sound what name e hat
  exact ⟨text, hname⟩

/-- A staging area shows what is stored. -/
structure Shows (root : Path) (t : FileTree) (s : Staging) : Prop where
  additions : ∀ (name : String) bytes, s.additions[name]? = some bytes ↔
    t.at? (name :: stagedPath root .addition) = some (.file (.plain bytes))
  removals : ∀ (name : String) bytes, s.removals[name]? = some bytes ↔
    t.at? (name :: stagedPath root .removal) = some (.file (.plain bytes))

theorem Shows.congr {s : Staging} (h : Shows root t s)
    (same : ∀ what name,
      t'.at? (name :: stagedPath root what) = t.at? (name :: stagedPath root what)) :
    Shows root t' s where
  additions name bytes := by rw [same]; exact h.additions name bytes
  removals name bytes := by rw [same]; exact h.removals name bytes

theorem Shows.of_touches {s : Staging} (h : Shows root t s) {areas : List Area}
    (touch : Touches root areas t t') (away : ∀ what, Area.index what ∉ areas) :
    Shows root t' s :=
  h.congr fun what name => touch.at?_eq (holds_staged what name) (away what)

theorem Shows.unique {s s' : Staging} (h : Shows root t s) (h' : Shows root t s')
    (heq : s.changed = s'.changed) : s = s' := by
  have additions : s.additions = s'.additions := Std.ExtTreeMap.ext_getElem? fun name =>
    Option.ext fun bytes => (h.additions name bytes).trans (h'.additions name bytes).symm
  have removals : s.removals = s'.removals := Std.ExtTreeMap.ext_getElem? fun name =>
    Option.ext fun bytes => (h.removals name bytes).trans (h'.removals name bytes).symm
  cases s; cases s'; simp_all

theorem Shows.trackable {s : Staging} (h : Shows root t s) (sound : SoundIndex root t) :
    (∀ name ∈ s.additions, Trackable root name) ∧ (∀ name ∈ s.removals, Trackable root name) := by
  constructor
  · intro name hname
    obtain ⟨bytes, hbytes⟩ := NameMap.mem_iff_exists_getElem?.mp hname
    obtain ⟨-, _, -, hname, trackable⟩ := sound _ _ _ ((h.additions name bytes).mp hbytes)
    exact FileName.text.inj hname ▸ trackable
  · intro name hname
    obtain ⟨bytes, hbytes⟩ := NameMap.mem_iff_exists_getElem?.mp hname
    obtain ⟨-, _, -, hname, trackable⟩ := sound _ _ _ ((h.removals name bytes).mp hbytes)
    exact FileName.text.inj hname ▸ trackable

namespace Staging

/-! ## 3. Reading -/

/-- The bytes of the plain files right in a directory, by their names. -/
theorem getElem?_ofList_filesOf {path : Path} (texts : TextsIn path t) {name : String}
    {bytes : Bytes} :
    (Std.ExtTreeMap.ofList ((filesOf (t.children path)).map fun (name, content) =>
      (name.shown, content.bytes)) compare : NameMap Bytes)[name]? = some bytes ↔
      ∃ content, t.at? (name :: path) = some (.file content) ∧ content.bytes = bytes := by
  refine (NameMap.getElem?_ofList_eq_some_iff ?_).trans ?_
  · -- texts are shown as they are
    refine List.Pairwise.map _ (fun _ _ h => h) ?_
    refine (distinct_filesOf (distinct_children t path)).imp_of_mem ?_
    rintro ⟨n, c⟩ ⟨n', c'⟩ hmem hmem' hne
    obtain ⟨text, rfl⟩ := texts n _ (mem_children.mp (Worktree.mem_filesOf.mp hmem))
    obtain ⟨text', rfl⟩ := texts n' _ (mem_children.mp (Worktree.mem_filesOf.mp hmem'))
    exact fun same => hne (congrArg FileName.text same)
  simp only [List.mem_map, Prod.mk.injEq, Prod.exists, Worktree.mem_filesOf, mem_children]
  constructor
  · rintro ⟨n, content, hat, rfl, rfl⟩
    obtain ⟨text, rfl⟩ := texts n _ hat
    exact ⟨content, hat, rfl⟩
  · rintro ⟨content, hat, rfl⟩
    exact ⟨name, content, hat, rfl, rfl⟩

/-- The files right in a directory are these entries. -/
def HeldIn (dir : Path) (entries : NameMap Bytes) (t : FileTree) : Prop :=
  ∀ (name : String) bytes, entries[name]? = some bytes ↔
    ∃ content, t.at? (name :: dir) = some (.file content) ∧ content.bytes = bytes

theorem HeldIn.unique {dir : Path} {entries entries' : NameMap Bytes} (h : HeldIn dir entries t)
    (h' : HeldIn dir entries' t) : entries = entries' :=
  Std.ExtTreeMap.ext_getElem? fun name => Option.ext fun bytes =>
    (h name bytes).trans (h' name bytes).symm

theorem list?_staged (h : Housed root t) (what : Staged) :
    t.list? (Layout.staged root what) = some (t.children (stagedPath root what)) := by
  have straight := h.straight_staged what
  rw [list?_eq straight.tell straight.level (by rw [path_staged]; exact h.at?_staged what),
    path_staged]

theorem readEntries_eq (h : Housed root t) (sound : SoundIndex root t) (what : Staged) :
    ∃ entries, readEntries root t what = .ok entries ∧ ∀ (name : String) bytes,
      entries[name]? = some bytes ↔
        t.at? (name :: stagedPath root what) = some (.file (.plain bytes)) := by
  have present : t.exists? (Layout.staged root what) = true := by
    rw [(h.straight_staged what).exists?_eq, path_staged, h.at?_staged what]; rfl
  refine ⟨_, by rw [readEntries, if_pos present, list?_staged h what], fun name bytes => ?_⟩
  refine (getElem?_ofList_filesOf (sound.textsIn what)).trans ⟨?_, fun hat => ⟨_, hat, rfl⟩⟩
  rintro ⟨content, hat, rfl⟩
  obtain ⟨bytes, _, hfile, -⟩ := sound what name _ hat
  obtain rfl : content = .plain bytes := by simpa using hfile
  exact hat

/-- **Loading gives what is stored.** -/
theorem load_eq (h : Housed root t) (sound : SoundIndex root t) :
    ∃ s, load root t = .ok s ∧ s.changed = false ∧ Shows root t s := by
  obtain ⟨additions, hadditions, showsAdditions⟩ := readEntries_eq h sound .addition
  obtain ⟨removals, hremovals, showsRemovals⟩ := readEntries_eq h sound .removal
  refine ⟨⟨additions, removals, false⟩, ?_, rfl, showsAdditions, showsRemovals⟩
  rw [load, reload, hadditions]
  simp only [hremovals]

theorem load_spec (h : Housed root t) (sound : SoundIndex root t) {s : Staging}
    (hload : load root t = .ok s) : s.changed = false ∧ Shows root t s := by
  obtain ⟨s', hload', changed, shows_⟩ := load_eq h sound
  obtain rfl := Except.ok.inj (hload'.symm.trans hload)
  exact ⟨changed, shows_⟩

theorem load_of_shows (h : Housed root t) (sound : SoundIndex root t) {s : Staging}
    (shows_ : Shows root t s) : load root t = .ok { s with changed := false } := by
  obtain ⟨s', hload, changed, shows'⟩ := load_eq h sound
  have same : Shows root t { s with changed := false } := ⟨shows_.additions, shows_.removals⟩
  rw [hload, shows'.unique same changed]

/-! ## 4. Writing one entry -/

/-- A name under which something is staged: the working tree knows it, and what is staged for
removal is tracked. -/
structure Stageable (root : Path) (what : Staged) (name : String) : Prop where
  known : (Worktree.fileName? name).isSome = true
  removal : what = .removal → Trackable root name

theorem stageable_of_trackable {name : String} (h : Trackable root name) (what : Staged) :
    Stageable root what name := ⟨by rw [h.names]; rfl, fun _ => h⟩

theorem join_staged {name : String} (relative : isAbsolute name = false) (what : Staged) :
    (Layout.staged root what).join name =
      ⟨root, [FileName.text metaName, "index", FileName.text (stagedName what)] ++
        segmentsOf name⟩ := by
  rw [Route.join, if_neg (by simp [relative])]; rfl

/-- The names on the way to an entry. -/
theorem validNames_staged {name : FileName} (valid : ValidName name) (what : Staged) :
    ∀ n ∈ [FileName.text metaName, "index", FileName.text (stagedName what), name],
      ValidName n := by
  simp only [List.mem_cons, List.not_mem_nil, or_false]
  rintro n (rfl | rfl | rfl | rfl)
  · exact validName_metaName
  · decide
  · exact validName_stagedName what
  · exact valid

section Entry

variable {name : String} (hname : Trackable root name) (what : Staged)

include hname

theorem straight_entry (free : t.LinkFree root) :
    Straight t ((Layout.staged root what).child name) := by
  have room : Route.bytesOf root +
      Route.bytesOf [.text metaName, "index", .text (stagedName what), .text name] ≤
      Route.longest := by
    have room := hname.room
    have shorter : (stagedName what).utf8ByteSize ≤ (stagedName .addition).utf8ByteSize := by
      cases what <;> decide
    simp only [stagedPath, metaPath, Route.bytesOf, FileName.size_text] at room ⊢
    omega
  exact straight_of_names _ free (validNames_staged hname.valid what) (by simp) room

theorem path_entry :
    ((Layout.staged root what).child name).path = .text name :: stagedPath root what :=
  path_of_names [.text metaName, "index", .text (stagedName what), .text name]
    (validNames_staged hname.valid what)

theorem join_eq_child : (Layout.staged root what).join name =
    (Layout.staged root what).child name := by
  rw [join_staged hname.relative, segmentsOf_of_noSlash hname.valid.2.2.2.1]; rfl

/-- The file of an entry is written where it can be tracked. -/
theorem write?_of_trackable (h : Housed root t) (sound : SoundIndex root t) (content : Bytes) :
    ∃ t', t.write? ((Layout.staged root what).join name) (.plain content) = some t' ∧
      t.place? (name :: stagedPath root what) (.file (.plain content)) = some t' := by
  have can : t.CanPlace (name :: stagedPath root what) := by
    refine ⟨hname.valid, h.at?_staged what, fun hdir => ?_⟩
    obtain ⟨bytes, _, hfile, -⟩ := sound what name _ hdir
    cases hfile
  refine ⟨t.place _ _ can, ?_, dif_pos can⟩
  rw [join_eq_child hname what, (straight_entry hname what h.free).write?_eq, path_entry hname what]
  exact dif_pos can

end Entry

/-- No file is written under a name that cannot be tracked. -/
theorem write?_of_not_trackable (h : Housed root t) (sound : SoundIndex root t) {name : String}
    (known : (Worktree.fileName? name).isSome = true) (hname : ¬Trackable root name)
    (content : Bytes) :
    t.write? ((Layout.staged root .addition).join name) (.plain content) = none := by
  obtain ⟨text, htext⟩ := Option.isSome_iff_exists.mp known
  have spelled := Worktree.names_of_fileName? htext
  obtain ⟨rest, hsegments, hrest⟩ := spelled.segments
  have goes : Route.goes text = true := by
    have : .text text ∈ (segmentsOf name).filter Route.goes := by simp [spelled.steps]
    exact (List.mem_filter.mp this).2
  have special : ¬(FileName.text text = "" ∨ FileName.text text = ".") := by
    simpa [Route.goes, not_or] using goes
  have standing := h.at?_staged .addition
  have front : (([FileName.text metaName, "index", FileName.text (stagedName .addition)].filter
      Route.goes).reverse ++ root) = stagedPath root .addition := rfl
  suffices hlocate : t.locate ((Layout.staged root .addition).join name) = none by
    rw [write?, hlocate]; rfl
  rw [join_staged spelled.relative, locate_eq]
  split
  · rename_i tell
    -- the walk comes to the directory, and gets no further than one name
    rw [follow_mostLinks, walk_through (by decide) (by rw [front]; exact standing), front,
      hsegments]
    simp only [walk, standing, ne_eq, not_true_eq_false, if_false, special,
      FileName.text_ne spelled.noUp]
    split
    · rfl
    · rename_i valid
      rw [not_not] at valid
      have hne : rest ≠ [] := by
        intro hnil
        obtain rfl := hrest hnil
        subst hnil
        refine hname (Trackable.of_names htext valid ?_)
        have := tell.1
        rw [hsegments, ← Route.bytesOf_append] at this
        simp only [stagedPath, metaPath, Route.bytesOf, Route.bytesOf_append] at this ⊢
        omega
      obtain ⟨next, rest, rfl⟩ := List.exists_cons_of_ne_nil hne
      cases hat : t.at? (text :: stagedPath root .addition) with
      | none => simp
      | some e =>
        obtain ⟨bytes, _, rfl, -⟩ := sound .addition text e hat
        simp [walk, hat]
  · rfl

/-! ## 5. Writing all entries -/

theorem sound_of_index (sound : SoundIndex root t) {what : Staged}
    (touch : Touches root [.index what] t t')
    (new : ∀ name e, t'.at? (name :: stagedPath root what) = some e →
      t.at? (name :: stagedPath root what) = some e ∨
        ∃ bytes text, e = .file (.plain bytes) ∧ name = .text text ∧ Trackable root text) :
    SoundIndex root t' := by
  intro what' name e hat
  by_cases heq : what' = what
  · subst heq
    rcases new name e hat with hold | hnew
    · exact sound what' name e hold
    · exact hnew
  · rw [touch.at?_eq (holds_staged what' name) (by simp [heq])] at hat
    exact sound what' name e hat

/-- Where each file right in a directory can be removed, and removing it keeps an invariant, those
of entries that are not staged any more are removed. -/
theorem dropStale_of_step {dir : Path} {Inv : FileTree → Prop} {what : Staged}
    {entries : NameMap Bytes}
    (step : ∀ t name e, Inv t → t.at? (name :: dir) = some e →
      ∃ t', t.removeFile? ((Layout.staged root what).child name) = some t' ∧ Inv t' ∧
        ∀ p, t'.at? p = if p = name :: dir then none else t.at? p)
    {names : List FileName} (nodup : names.Nodup) (inv : Inv t)
    (there : ∀ name ∈ names, ∃ e, t.at? (name :: dir) = some e) (printed : String) :
    ∃ t', dropStale root what entries names ⟨t, printed⟩ = (.ok (), ⟨t', printed⟩) ∧ Inv t' ∧
      ∀ name, t'.at? (name :: dir) =
        if name ∈ names ∧ name.shown ∉ entries then none else t.at? (name :: dir) := by
  induction names generalizing t with
  | nil => exact ⟨t, rfl, inv, by simp⟩
  | cons name rest ih =>
    obtain ⟨fresh, nodup⟩ := List.nodup_cons.mp nodup
    obtain ⟨⟨e, hat⟩, there⟩ := List.forall_mem_cons.mp there
    by_cases kept : name.shown ∈ entries
    · obtain ⟨t', hrun, inv', hspec⟩ := ih nodup inv there
      refine ⟨t', ?_, inv', fun n => ?_⟩
      · rw [dropStale, if_pos kept]
        exact hrun
      · have : (n = name ∨ n ∈ rest) ∧ n.shown ∉ entries ↔ n ∈ rest ∧ n.shown ∉ entries :=
          and_congr_left fun hno => or_iff_right fun heq => hno (heq ▸ kept)
        simp only [hspec, List.mem_cons, this]
    · obtain ⟨t₁, hremove, inv₁, hat₁⟩ := step t name e inv hat
      have there₁ : ∀ n ∈ rest, ∃ e, t₁.at? (n :: dir) = some e := by
        intro n hn
        have hne : n ≠ name := fun heq => fresh (heq ▸ hn)
        rw [hat₁, if_neg (by simpa using hne)]
        exact there n hn
      obtain ⟨t', hrun, inv', hspec⟩ := ih nodup inv₁ there₁
      refine ⟨t', ?_, inv', fun n => ?_⟩
      · rw [dropStale, if_neg kept]
        exact (Action.bind_run_ok (Action.edit_run_some hremove)).trans hrun
      · rw [hspec, hat₁]
        by_cases heq : n = name
        · subst heq; simp [kept]
        · simp [heq]

theorem nodup_names_children (t : FileTree) (path : Path) :
    ((t.children path).map Prod.fst).Nodup :=
  List.Pairwise.map Prod.fst (fun _ _ hne => hne) (distinct_children t path)

/-- What is left are the files of entries that are staged still. -/
theorem dropStale_children {dir : Path} {Inv : FileTree → Prop} {what : Staged}
    {entries : NameMap Bytes}
    (step : ∀ t name e, Inv t → t.at? (name :: dir) = some e →
      ∃ t', t.removeFile? ((Layout.staged root what).child name) = some t' ∧ Inv t' ∧
        ∀ p, t'.at? p = if p = name :: dir then none else t.at? p)
    (inv : Inv t) (printed : String) :
    ∃ t', dropStale root what entries ((t.children dir).map Prod.fst) ⟨t, printed⟩ =
        (.ok (), ⟨t', printed⟩) ∧ Inv t' ∧
      ∀ name, t'.at? (name :: dir) =
        if name.shown ∈ entries then t.at? (name :: dir) else none := by
  have mem_names : ∀ name, name ∈ (t.children dir).map Prod.fst ↔
      ∃ e, t.at? (name :: dir) = some e := by
    intro name
    simp only [List.mem_map, Prod.exists, exists_and_right, exists_eq_right, mem_children]
  obtain ⟨t', hrun, inv', hspec⟩ := dropStale_of_step step (nodup_names_children t dir) inv
    (fun name => (mem_names name).mp) printed
  refine ⟨t', hrun, inv', fun name => ?_⟩
  by_cases hmem : name.shown ∈ entries
  · simp [hspec, hmem]
  · rw [hspec, if_neg hmem]
    split
    · rfl
    · rename_i kept
      cases hat : t.at? (name :: dir) with
      | none => rfl
      | some e => exact absurd ⟨(mem_names name).mpr ⟨e, hat⟩, hmem⟩ kept

/-- The files of entries that are not staged any more are removed. -/
theorem dropStale_run (h : Housed root t) (sound : SoundIndex root t) {what : Staged}
    (entries : NameMap Bytes) (printed : String) :
    ∃ t', dropStale root what entries ((t.children (stagedPath root what)).map Prod.fst)
        ⟨t, printed⟩ = (.ok (), ⟨t', printed⟩) ∧
      (Touches root [.index what] t t' ∧ SoundIndex root t') ∧
      ∀ name, t'.at? (name :: stagedPath root what) =
        if name.shown ∈ entries then t.at? (name :: stagedPath root what) else none := by
  refine dropStale_children (fun t₁ name e inv hat => ?_) ⟨Touches.refl root t, sound⟩ printed
  obtain ⟨touch₁, sound₁⟩ := inv
  obtain ⟨bytes, name, rfl, rfl, trackable⟩ := sound₁ what name e hat
  have straight := straight_entry trackable what (h.of_touches touch₁).free
  have cutAt := at?_cut_of_file hat
  have touch := touches_cut_staged root t₁ what name
  refine ⟨t₁.cut (name :: stagedPath root what), ?_, ⟨touch₁.trans touch, ?_⟩, cutAt⟩
  · rw [straight.removeFile?_of_file (by rw [path_entry trackable]; exact hat),
      path_entry trackable]
  · refine sound_of_index sound₁ touch fun n e hn => Or.inl ?_
    rw [cutAt] at hn
    split at hn
    · cases hn
    · exact hn

/-- What a directory holds once nothing but files of entries is left and each entry is written. -/
theorem heldIn_of_written {dir : Path} {entries : NameMap Bytes} {t₁ t₂ : FileTree}
    (gone : ∀ name : FileName, name.shown ∉ entries → t₁.at? (name :: dir) = none)
    (written : ∀ name content, (name, content) ∈ entries.toList →
      t₂.at? (name :: dir) = some (.file (.plain content)))
    (kept : ∀ name : String, (∀ content, (name, content) ∉ entries.toList) →
      t₂.at? (name :: dir) = t₁.at? (name :: dir)) : HeldIn dir entries t₂ := by
  have mem_toList : ∀ {name content}, (name, content) ∈ entries.toList ↔
      entries[name]? = some content := Std.ExtTreeMap.mem_toList_iff_getElem?_eq_some
  intro name bytes
  constructor
  · intro hbytes
    exact ⟨_, written name bytes (mem_toList.mpr hbytes), rfl⟩
  · rintro ⟨content, hat, rfl⟩
    cases hentry : entries[name]? with
    | some bytes =>
      have same := (written name bytes (mem_toList.mpr hentry)).symm.trans hat
      obtain rfl : content = .plain bytes := by simpa using same.symm
      rfl
    | none =>
      have stale : name ∉ entries := by simp [NameMap.mem_iff_exists_getElem?, hentry]
      rw [kept name fun content hmem => by simp [mem_toList.mp hmem] at hentry,
        gone name stale] at hat
      cases hat

/-- A file is written for each entry, up to the first one that cannot be tracked. -/
theorem writeEach_leads (h : Housed root t) (sound : SoundIndex root t) {what : Staged}
    {entries : List (String × Bytes)} (distinct : NameMap.Distinct entries)
    (names : ∀ entry ∈ entries, Stageable root what entry.1) (printed : String) :
    (writeEach root what entries).Leads ⟨t, printed⟩ fun r w' =>
      w'.printed = printed ∧ Touches root [.index what] t w'.tree ∧ SoundIndex root w'.tree ∧
      ((∀ entry ∈ entries, Trackable root entry.1) → r = .ok () ∧
        (∀ name content, (name, content) ∈ entries →
          w'.tree.at? (name :: stagedPath root what) = some (.file (.plain content))) ∧
        ∀ name : String, (∀ content, (name, content) ∉ entries) →
          w'.tree.at? (name :: stagedPath root what) = t.at? (name :: stagedPath root what)) := by
  induction entries generalizing t with
  | nil =>
    refine Action.leads_pure ⟨rfl, Touches.refl root t, sound, fun _ => ⟨rfl, ?_, fun _ _ => rfl⟩⟩
    simp
  | cons entry rest ih =>
    obtain ⟨name, content⟩ := entry
    obtain ⟨other, distinct⟩ := List.pairwise_cons.mp distinct
    have stageable := names (name, content) (by simp)
    by_cases trackable : Trackable root name
    · obtain ⟨t₁, hwrite, hplace⟩ := write?_of_trackable trackable what h sound content
      have placed := at?_place? hplace
      have touch₁ : Touches root [.index what] t t₁ :=
        Touches.of_place? hplace (holds_staged what name) (by simp) (by simp)
      have sound₁ := sound_of_index sound touch₁ fun n e hn => by
        rw [placed] at hn
        split at hn
        · rename_i heq
          obtain ⟨rfl, -⟩ := List.cons.inj heq
          exact Or.inr ⟨content, name, (Option.some.inj hn).symm, rfl, trackable⟩
        · exact Or.inl hn
      refine Action.leads_bind_of_run (Action.edit_run_some hwrite) ?_
      refine (ih (h.of_touches touch₁) sound₁ distinct
        fun e he => names e (by simp [he])).mono ?_
      rintro r w' ⟨hprinted, touch, hsound, htrackable⟩
      refine ⟨hprinted, touch₁.trans touch, hsound, ?_⟩
      intro all
      obtain ⟨hok, hwritten, hkept⟩ := htrackable fun e he => all e (by simp [he])
      refine ⟨hok, ?_, ?_⟩
      · intro n c hmem
        rcases List.mem_cons.mp hmem with heq | hmem
        · obtain ⟨rfl, rfl⟩ := Prod.mk.inj heq
          rw [hkept n fun c hc => (other _ hc rfl), placed, if_pos rfl]
        · exact hwritten n c hmem
      · intro n hno
        have hne : n ≠ name := fun heq => hno content (by simp [heq])
        rw [hkept n fun c hc => hno c (by simp [hc]), placed, if_neg (by simpa using hne)]
    · have addition : what = .addition := by
        cases what with
        | addition => rfl
        | removal => exact absurd (stageable.removal rfl) trackable
      subst addition
      have hwrite := write?_of_not_trackable h sound stageable.known trackable content
      rw [writeEach, Action.Leads, Action.bind_run_error (Action.edit_run_none hwrite)]
      exact ⟨rfl, Touches.refl root t, sound, fun all =>
        absurd (all (name, content) (by simp)) trackable⟩

/-- A directory is made to hold exactly these entries, where they can all be tracked. -/
theorem writeEntries_leads (h : Housed root t) (sound : SoundIndex root t) {what : Staged}
    {entries : NameMap Bytes} (names : ∀ name ∈ entries, Stageable root what name)
    (printed : String) :
    (writeEntries root what entries).Leads ⟨t, printed⟩ fun r w' =>
      w'.printed = printed ∧ Touches root [.index what] t w'.tree ∧ SoundIndex root w'.tree ∧
      ((∀ name ∈ entries, Trackable root name) → r = .ok () ∧
        ∀ (name : String) bytes, entries[name]? = some bytes ↔
          w'.tree.at? (name :: stagedPath root what) = some (.file (.plain bytes))) := by
  have straight := h.straight_staged what
  have made : t.makeDirs (Layout.staged root what) = (true, t) :=
    makeDirs_of_dir h.free straight.level straight.tell
      (by rw [path_staged]; exact h.at?_staged what)
  obtain ⟨t₁, hrun, ⟨touch₁, sound₁⟩, left⟩ := dropStale_run h sound entries printed
  rw [writeEntries]
  refine Action.leads_bind_of_run (Action.makeDirs_run_ok made) ?_
  refine Action.leads_read_bind_ok (by simp only [list?_staged h what]; rfl) ?_
  refine Action.leads_bind_of_run hrun ?_
  have listed : ∀ {name}, name ∈ entries ↔ ∃ content, (name, content) ∈ entries.toList := by
    intro name
    rw [NameMap.mem_iff_exists_getElem?]
    exact exists_congr fun _ => Std.ExtTreeMap.mem_toList_iff_getElem?_eq_some.symm
  refine (writeEach_leads (h.of_touches touch₁) sound₁ (NameMap.distinct_toList entries)
    (fun e he => names e.1 (listed.mpr ⟨e.2, he⟩)) printed).mono ?_
  rintro r w' ⟨hprinted, touch, hsound, htrackable⟩
  refine ⟨hprinted, touch₁.trans touch, hsound, ?_⟩
  intro all
  obtain ⟨hok, hwritten, hkept⟩ := htrackable fun e he => all e.1 (listed.mpr ⟨e.2, he⟩)
  have held := heldIn_of_written (fun name hno => by rw [left, if_neg hno]) hwritten hkept
  refine ⟨hok, fun name bytes => ⟨fun hsome => hwritten name bytes ?_, fun hat => ?_⟩⟩
  · exact Std.ExtTreeMap.mem_toList_iff_getElem?_eq_some.mpr hsome
  · exact (held name bytes).mpr ⟨_, hat, rfl⟩

/-! ## 6. Saving -/

/-- **What saving leads to.**  Only the staging area is touched, and stays sound.  Where all names
can be tracked, saving succeeds and what is staged is stored. -/
theorem save_leads (h : Housed root t) (sound : SoundIndex root t) {s : Staging}
    (additions : ∀ name ∈ s.additions, Stageable root .addition name)
    (removals : ∀ name ∈ s.removals, Trackable root name)
    (current : s.changed = false → Shows root t s) (printed : String) :
    (s.save root).Leads ⟨t, printed⟩ fun r w' =>
      w'.printed = printed ∧ Touches root [.index .addition, .index .removal] t w'.tree ∧
      SoundIndex root w'.tree ∧
      ((∀ name ∈ s.additions, Trackable root name) →
        r = .ok { s with changed := false } ∧ Shows root w'.tree s) := by
  cases hchanged : s.changed with
  | false =>
    rw [save, hchanged]
    refine Action.leads_pure ⟨rfl, Touches.refl root t, sound, fun _ => ⟨?_, current hchanged⟩⟩
    cases s; simp_all
  | true =>
    rw [save, hchanged]
    refine (writeEntries_leads h sound additions printed).bind ?_ ?_
    · rintro ⟨⟩ ⟨t₁, _⟩ ⟨rfl, touch₁, sound₁, tracked₁⟩
      have h₁ := h.of_touches touch₁
      refine (writeEntries_leads h₁ sound₁ (fun n hn => stageable_of_trackable (removals n hn) _)
        _).bind ?_ ?_
      · rintro ⟨⟩ ⟨t₂, _⟩ ⟨rfl, touch₂, sound₂, tracked₂⟩
        refine Action.leads_pure
          ⟨rfl, (touch₁.mono (by simp)).trans (touch₂.mono (by simp)), sound₂,
          fun all => ⟨rfl, ?_⟩⟩
        have same : ∀ name, t₂.at? (name :: stagedPath root .addition) =
            t₁.at? (name :: stagedPath root .addition) := fun name =>
          touch₂.at?_eq (holds_staged .addition name) (by simp)
        exact ⟨fun name bytes => by rw [same]; exact (tracked₁ all).2 name bytes,
          (tracked₂ removals).2⟩
      · rintro fault ⟨t₂, _⟩ ⟨rfl, touch₂, sound₂, tracked₂⟩
        exact absurd (tracked₂ removals).1 (by simp)
    · rintro fault ⟨t₁, _⟩ ⟨rfl, touch₁, sound₁, tracked₁⟩
      exact ⟨rfl, touch₁.mono (by simp), sound₁, fun all => absurd (tracked₁ all).1 (by simp)⟩

/-- Where all names can be tracked, saving succeeds, and what is staged is stored. -/
theorem save_run (h : Housed root t) (sound : SoundIndex root t) {s : Staging}
    (additions : ∀ name ∈ s.additions, Trackable root name)
    (removals : ∀ name ∈ s.removals, Trackable root name)
    (current : s.changed = false → Shows root t s) (printed : String) :
    ∃ t', s.save root ⟨t, printed⟩ = (.ok { s with changed := false }, ⟨t', printed⟩) ∧
      Touches root [.index .addition, .index .removal] t t' ∧ SoundIndex root t' ∧
      Shows root t' s := by
  have spec := save_leads h sound (fun n hn => stageable_of_trackable (additions n hn) _) removals
    current printed
  rcases hrun : s.save root ⟨t, printed⟩ with ⟨r, t', printed'⟩
  rw [Action.Leads, hrun] at spec
  obtain ⟨rfl, touch, sound', all⟩ := spec
  obtain ⟨rfl, shows_⟩ := all additions
  exact ⟨t', rfl, touch, sound', shows_⟩

theorem clear_of_unchanged {s : Staging} (h : s.clear.changed = false) : s.clear = s := by
  simp only [clear, Bool.or_eq_false_iff, Bool.not_eq_false', isEmpty, Bool.and_eq_true,
    Std.ExtTreeMap.isEmpty_iff] at h
  obtain ⟨hchanged, hadditions, hremovals⟩ := h
  cases s
  simp_all [clear, isEmpty]

/-- **Once the staging area has been cleared, nothing is staged.** -/
theorem clear_save_run (h : Housed root t) (sound : SoundIndex root t) {s : Staging}
    (current : s.changed = false → Shows root t s) (printed : String) :
    ∃ t', s.clear.save root ⟨t, printed⟩ = (.ok empty, ⟨t', printed⟩) ∧
      Touches root [.index .addition, .index .removal] t t' ∧ SoundIndex root t' ∧
      Shows root t' empty := by
  have unchanged : s.clear.changed = false → Shows root t s.clear := by
    intro hclear
    have same := clear_of_unchanged hclear
    rw [same] at hclear ⊢
    exact current hclear
  obtain ⟨t', hrun, touch, sound', shows_⟩ :=
    save_run h sound (s := s.clear) (by simp [clear]) (by simp [clear]) unchanged printed
  exact ⟨t', hrun, touch, sound', shows_.additions, shows_.removals⟩

/-! ## 7. Names that cannot be tracked -/

/-- Nothing is removed where all that is there is staged. -/
theorem dropStale_of_mem {what : Staged} {entries : NameMap Bytes} {names : List FileName}
    (staged : ∀ name ∈ names, name.shown ∈ entries) (w : World) :
    dropStale root what entries names w = (.ok (), w) := by
  induction names with
  | nil => rfl
  | cons name rest ih =>
    rw [List.forall_mem_cons] at staged
    rw [dropStale, if_pos staged.1]
    exact ih staged.2

/-- Writing again what is there, up to a name that cannot be tracked, changes nothing. -/
theorem writeEach_stops (h : Housed root t) (sound : SoundIndex root t) {file : String}
    (known : (Worktree.fileName? file).isSome = true) (untrackable : ¬Trackable root file)
    {entries : List (String × Bytes)} (there : ∀ entry ∈ entries, entry.1 = file ∨
      t.at? (entry.1 :: stagedPath root .addition) = some (.file (.plain entry.2)))
    (mem : file ∈ entries.map Prod.fst) (printed : String) :
    writeEach root .addition entries ⟨t, printed⟩ =
      (.error (.refused (.stage file (stagedPlace .addition))), ⟨t, printed⟩) := by
  induction entries with
  | nil => cases mem
  | cons entry rest ih =>
    obtain ⟨name, content⟩ := entry
    obtain ⟨first, there⟩ := List.forall_mem_cons.mp there
    by_cases heq : name = file
    · subst heq
      have hwrite := write?_of_not_trackable h sound known untrackable content
      exact Action.bind_run_error (Action.edit_run_none hwrite)
    · have hat := first.resolve_left heq
      obtain ⟨-, _, -, hname, trackable⟩ := sound _ _ _ hat
      obtain rfl := FileName.text.inj hname
      obtain ⟨t₁, hwrite, hplace⟩ := write?_of_trackable trackable .addition h sound content
      obtain rfl : t₁ = t := FileTree.ext fun p => by
        rw [at?_place? hplace]
        split
        · rename_i hp
          rw [hp, hat]
        · rfl
      have hrun := ih there ((List.mem_cons.mp mem).resolve_left (Ne.symm heq))
      exact (Action.bind_run_ok (Action.edit_run_some hwrite)).trans hrun

/-- **Where a name cannot be tracked, saving fails and changes nothing**: all other names are staged
already, with the same contents. -/
theorem save_stops (h : Housed root t) (sound : SoundIndex root t) {s : Staging}
    (shows_ : Shows root t s) {file : String} (content : Bytes)
    (known : (Worktree.fileName? file).isSome = true) (untrackable : ¬Trackable root file)
    (printed : String) :
    ((s.add file content).unstageRemoval file).save root ⟨t, printed⟩ =
      (.error (.refused (.stage file (stagedPlace .addition))), ⟨t, printed⟩) := by
  have straight := h.straight_staged .addition
  have made : t.makeDirs (Layout.staged root .addition) = (true, t) :=
    makeDirs_of_dir h.free straight.level straight.tell
      (by rw [path_staged]; exact h.at?_staged .addition)
  have staged : ∀ name ∈ (t.children (stagedPath root .addition)).map Prod.fst,
      name.shown ∈ s.additions.insert file content := by
    intro name hname
    obtain ⟨⟨n, e⟩, hchild, rfl⟩ := List.mem_map.mp hname
    have hat := mem_children.mp hchild
    obtain ⟨bytes, n, rfl, rfl, -⟩ := sound _ _ _ hat
    exact Std.ExtTreeMap.mem_insert.mpr (Or.inr (NameMap.mem_iff_exists_getElem?.mpr
      ⟨bytes, (shows_.additions n bytes).mpr hat⟩))
  have there : ∀ entry ∈ (s.additions.insert file content).toList, entry.1 = file ∨
      t.at? (entry.1 :: stagedPath root .addition) = some (.file (.plain entry.2)) := by
    rintro ⟨name, bytes⟩ hmem
    have held := Std.ExtTreeMap.mem_toList_iff_getElem?_eq_some.mp hmem
    by_cases heq : name = file
    · exact Or.inl heq
    · rw [Std.ExtTreeMap.getElem?_insert, if_neg (by simpa using Ne.symm heq)] at held
      exact Or.inr ((shows_.additions name bytes).mp held)
  have mem : file ∈ (s.additions.insert file content).toList.map Prod.fst :=
    List.mem_map.mpr ⟨(file, content),
      Std.ExtTreeMap.mem_toList_iff_getElem?_eq_some.mpr (by simp), rfl⟩
  have hrun := writeEach_stops h sound known untrackable there mem printed
  have listed : Action.read (fun t => (t.list? (Layout.staged root .addition)).elim
      (.error Fault.system) .ok) ⟨t, printed⟩ =
      (.ok (t.children (stagedPath root .addition)), ⟨t, printed⟩) :=
    Action.read_run (by rw [list?_staged h]; rfl)
  have written : writeEntries root .addition (s.additions.insert file content) ⟨t, printed⟩ =
      (.error (.refused (.stage file (stagedPlace .addition))), ⟨t, printed⟩) := by
    rw [writeEntries, Action.bind_run_ok (Action.makeDirs_run_ok made), Action.bind_run_ok listed,
      Action.bind_run_ok (dropStale_of_mem staged _), hrun]
  rw [save, if_pos (by simp [unstageRemoval, add])]
  exact Action.bind_run_error written

end Staging

end LocalVcs
