/-
# Switching snapshots

A switch deletes working files of the snapshot that is left and writes those of the new one.  A file
is named once among all these steps, so it is in the end as its own step leaves it, and what neither
snapshot names stays as it is.

* `Switch.Blocked`, `Switch.plan_cases`: a switch can be planned exactly where no file that the
  current commit does not track is in the way.
* `Switched`: what a switch comes to, file by file.
* `Switch.apply_run`: a planned switch is carried out.
-/
import LocalVcs.Proofs.Intact
import LocalVcs.Switch

namespace LocalVcs

open FileTree Layout

variable {root : Path} {t t₁ t' : FileTree} {plain : Prop} {current target : Commit}

/-- From `t` to `t'` the working tree has been taken from the snapshot of `current` to that of
`target`, and what was staged has been dropped. -/
structure Switched (root : Path) (current target : Commit) (t t' : FileTree) : Prop where
  /-- A file of the new snapshot holds the bytes of its blob. -/
  written : ∀ (name : String) blob, target.manifest[name]? = some blob →
    ∃ content, Blobs.load root t blob = .ok content ∧
      t'.at? (name :: root) = some (.file (.plain content))
  /-- No file is left that the old snapshot alone names. -/
  gone : ∀ name ∈ current.manifest, name ∉ target.manifest →
    ∀ content, t'.at? (name :: root) ≠ some (.file content)
  /-- Nothing else has changed outside the repository's own directory. -/
  frame : ∀ p, ¬metaPath root <:+ p → (∀ name ∈ target.manifest, ¬.text name :: root <:+ p) →
    t'.at? p = t.at? p ∨ t'.at? p = none ∧
      ∃ name ∈ current.manifest, p = .text name :: root ∧ ∃ content, t.at? p = some (.file content)
  /-- The stores are as they were. -/
  objects : ∀ kind p, storePath root kind <:+ p → t'.at? p = t.at? p
  /-- Nothing is staged. -/
  index : Shows root t' Staging.empty

namespace Switched

/-- What a switch comes to is there also when `HEAD` or a branch has been written after it. -/
theorem of_touches (h : Switched root current target t t₁) (sound : Sound root t current)
    (sound' : Sound root t target) {areas : List Area} (touch : Touches root areas t₁ t')
    (work : Area.work ∉ areas) (index : ∀ what, Area.index what ∉ areas)
    (store : ∀ kind, Area.store kind ∉ areas) : Switched root current target t t' := by
  have same : ∀ name, Trackable root name → t'.at? (name :: root) = t₁.at? (name :: root) :=
    fun name hname => touch.at?_eq
      (Area.holds_work (FileName.text_ne hname.notMeta) (List.suffix_refl _)) work
  refine ⟨?_, ?_, ?_, ?_, h.index.of_touches touch index⟩
  · intro name blob htracked
    obtain ⟨content, hload, hat⟩ := h.written name blob htracked
    have hname := sound'.names name (NameMap.mem_iff_exists_getElem?.mpr ⟨blob, htracked⟩)
    exact ⟨content, hload, by rw [same name hname, hat]⟩
  · intro name held left content hat
    exact h.gone name held left content (by rw [← same name (sound.names name held), hat])
  · intro p outside away
    have kept : t'.at? p = t₁.at? p := touch.frame p fun area harea held => by
      have inside : area ≠ .work := by rintro rfl; exact work harea
      exact outside ((Area.meta_suffix_of_ne_work root inside).trans held.below)
    rw [kept]
    exact h.frame p outside away
  · intro kind p below
    rw [touch.at?_below (.store kind) (by simp) (store kind) below, h.objects kind p below]

/-- A working file stays as it is that neither snapshot names. -/
theorem at?_eq (h : Switched root current target t t') {name : String} (notMeta : name ≠ metaName)
    (old : name ∉ current.manifest) (new : name ∉ target.manifest) :
    t'.at? (name :: root) = t.at? (name :: root) := by
  have outside : ¬metaPath root <:+ name :: root := not_suffix_of_ne notMeta
  refine (h.frame _ outside fun other hother => not_suffix_of_ne ?_).resolve_right ?_
  · rintro rfl
    exact new hother
  · rintro ⟨-, other, hother, heq, -⟩
    obtain rfl := FileName.text.inj (List.cons.inj heq).1
    exact old hother

/-- No snapshot names a file whose name is no text. -/
theorem at?_other (h : Switched root current target t t') {bytes : Bytes}
    {noText : Bytes.text? bytes = none} :
    t'.at? (.other bytes noText :: root) = t.at? (.other bytes noText :: root) := by
  refine (h.frame _ (not_suffix_of_name_ne (by simp)) fun other _ =>
    not_suffix_of_name_ne (by simp)).resolve_right ?_
  rintro ⟨-, name, -, heq, -⟩
  cases (List.cons.inj heq).1

end Switched

namespace Switch

/-! ## 1. Planning -/

/-- A working file that the current commit does not track is listed under the name of a file of the
target. -/
def Blocked (root : Path) (t : FileTree) (current target : Commit) : Prop :=
  ∃ name ∈ target.manifest, name ∉ current.manifest ∧ Worktree.Listed root t name

theorem untrackedInTheWay?_eq_none_iff (h : Housed root t) {working : List String}
    (hlist : Worktree.list root t = .ok working) :
    untrackedInTheWay? working current.manifest target.manifest.keys = none ↔
      ¬Blocked root t current target := by
  obtain ⟨names, hnames, mem_names⟩ := Worktree.list_eq h
  obtain rfl := Except.ok.inj (hnames.symm.trans hlist)
  simp only [untrackedInTheWay?, List.find?_eq_none, decide_eq_true_eq, Std.ExtTreeMap.mem_keys,
    Blocked, not_exists, not_and]
  exact forall_congr' fun name => forall_congr' fun _ => forall_congr' fun _ =>
    not_congr (mem_names name)

/-- The files of a snapshot are loaded one by one. -/
theorem of_loadFiles {manifest : Manifest} {files : List (String × Bytes)}
    (h : loadFiles root t manifest = .ok files) :
    List.Forall₂ (fun entry file => file.1 = entry.1 ∧ Blobs.load root t entry.2 = .ok file.2)
      manifest.toList files := by
  refine (forall₂_of_mapM h).imp ?_
  rintro ⟨name, blob⟩ file hload
  cases hblob : Blobs.load root t blob with
  | error damage => simp [hblob] at hload
  | ok content =>
    obtain rfl : (name, content) = file := by simpa [hblob] using hload
    exact ⟨rfl, rfl⟩

/-- What a switch writes are the files of the snapshot. -/
theorem mem_loadFiles {manifest : Manifest} {files : List (String × Bytes)}
    (h : loadFiles root t manifest = .ok files) {name : String} {content : Bytes} :
    (name, content) ∈ files ↔
      ∃ blob, manifest[name]? = some blob ∧ Blobs.load root t blob = .ok content := by
  have mem_toList : ∀ {n blob}, (n, blob) ∈ manifest.toList ↔ manifest[n]? = some blob :=
    Std.ExtTreeMap.mem_toList_iff_getElem?_eq_some
  constructor
  · intro hmem
    obtain ⟨⟨n, blob⟩, hentry, rfl, hload⟩ := exists_of_mem_forall₂ (of_loadFiles h) hmem
    exact ⟨blob, mem_toList.mp hentry, hload⟩
  · rintro ⟨blob, hentry, hblob⟩
    obtain ⟨⟨n, c⟩, hmem, rfl, hload⟩ :=
      exists_of_mem_forall₂ (of_loadFiles h).flip (mem_toList.mpr hentry)
    obtain rfl := Except.ok.inj (hblob.symm.trans hload)
    exact hmem

/-- Each file of a snapshot is written once. -/
theorem nodup_loadFiles {manifest : Manifest} {files : List (String × Bytes)}
    (h : loadFiles root t manifest = .ok files) : (files.map Prod.fst).Nodup := by
  have names : files.map Prod.fst = manifest.toList.map Prod.fst := by
    have each := of_loadFiles h
    clear h
    generalize manifest.toList = entries at each
    induction each with
    | nil => rfl
    | cons hfile _ ih => rw [List.map_cons, List.map_cons, hfile.1, ih]
  rw [names]
  exact List.pairwise_map.mpr (NameMap.distinct_toList manifest)

/-- The files of a sound commit can all be loaded. -/
theorem loadFiles_run (h : Intact root t) (sound : Sound root t target) :
    ∃ files, loadFiles root t target.manifest = .ok files := by
  unfold loadFiles
  refine mapM_succeeds fun ⟨name, blob⟩ hentry => ?_
  obtain ⟨content, hload, -⟩ := h.loadBlob_of_tracked sound
    (Std.ExtTreeMap.mem_toList_iff_getElem?_eq_some.mp hentry)
  exact ⟨(name, content), by simp only [hload]⟩

theorem of_plan {s : Switch} (h : plan root t current target = .ok s) :
    s.deletions = current.manifest.keys.filter (· ∉ target.manifest) ∧
      loadFiles root t target.manifest = .ok s.writes := by
  simp only [plan, bind, Except.bind, pure, Except.pure] at h
  split at h
  · cases h
  · split at h
    · cases h
    · split at h
      · cases h
      · rename_i files hfiles
        obtain rfl := Except.ok.inj h
        exact ⟨rfl, hfiles⟩

/-- **A switch to a sound commit can be planned** exactly where no file is in the way. -/
theorem plan_cases (h : Intact root t) (current : Commit) (sound : Sound root t target) :
    (Blocked root t current target ∧
        plan root t current target = .error (.user .untrackedFileInTheWay)) ∨
      (¬Blocked root t current target ∧ ∃ s, plan root t current target = .ok s) := by
  obtain ⟨working, hlist, -⟩ := Worktree.list_eq h.housed
  have clear_iff : _ ↔ ¬Blocked root t current target :=
    untrackedInTheWay?_eq_none_iff h.housed hlist
  by_cases blocked : Blocked root t current target
  · refine Or.inl ⟨blocked, ?_⟩
    cases hway : untrackedInTheWay? working current.manifest target.manifest.keys with
    | none => exact absurd blocked (clear_iff.mp hway)
    | some name => simp only [plan, hlist, hway, bind, Except.bind]; rfl
  · obtain ⟨files, hfiles⟩ := loadFiles_run h sound
    refine Or.inr ⟨blocked, ⟨current.manifest.keys.filter (· ∉ target.manifest), files⟩, ?_⟩
    simp only [plan, hlist, clear_iff.mpr blocked, hfiles, bind, Except.bind]
    rfl

/-! ## 2. Carrying out -/

theorem deleteEach_run (h : Housed root t) {names : List String}
    (trackable : ∀ name ∈ names, Trackable root name) (printed : String) :
    ∃ t', deleteEach root names ⟨t, printed⟩ = (.ok (), ⟨t', printed⟩) ∧
      FilesGone root names t t' ∧
      ∀ name ∈ names, ∀ content, t'.at? (name :: root) ≠ some (.file content) := by
  induction names generalizing t with
  | nil => exact ⟨t, rfl, FilesGone.refl root [] t, by simp⟩
  | cons name rest ih =>
    have hname := trackable name (by simp)
    obtain ⟨t₁, hrun₁, gone₁, none₁⟩ := Worktree.remove_gone h hname printed
    have touch₁ := gone₁.touches (by simpa using hname.notMeta)
    obtain ⟨t', hrun, gone, none_⟩ := ih (h.of_touches touch₁) fun n hn =>
      trackable n (by simp [hn])
    refine ⟨t', (Action.bind_run_ok hrun₁).trans hrun,
      (gone₁.mono (by simp)).trans (gone.mono (by simp)), ?_⟩
    intro n hn content hat
    rcases List.mem_cons.mp hn with rfl | hn
    · exact none₁ content (gone.at?_of_some hat)
    · exact none_ n hn content hat

theorem writeEach_run (h : Housed root t) {writes : List (String × Bytes)}
    (nodup : (writes.map Prod.fst).Nodup)
    (trackable : ∀ name ∈ writes.map Prod.fst, Trackable root name) (printed : String) :
    ∃ t', writeEach root writes ⟨t, printed⟩ = (.ok (), ⟨t', printed⟩) ∧
      Touches root [.work] t t' ∧
      (∀ name content, (name, content) ∈ writes →
        t'.at? (name :: root) = some (.file (.plain content))) ∧
      ∀ p, (∀ name ∈ writes.map Prod.fst, ¬.text name :: root <:+ p) → t'.at? p = t.at? p := by
  induction writes generalizing t with
  | nil => exact ⟨t, rfl, Touches.refl root t, by simp, fun _ _ => rfl⟩
  | cons entry rest ih =>
    obtain ⟨name, content⟩ := entry
    obtain ⟨fresh, nodup⟩ := List.nodup_cons.mp nodup
    have hname := trackable name (by simp)
    obtain ⟨t₁, hrun₁, edit, hat₁⟩ := Worktree.write_run h hname content printed
    have touch₁ := edit.touches hname.notMeta
    obtain ⟨t', hrun, touch, written, frame⟩ := ih (h.of_touches touch₁) nodup
      fun n hn => trackable n (List.mem_cons_of_mem _ hn)
    refine ⟨t', (Action.bind_run_ok hrun₁).trans hrun, touch₁.trans touch, ?_, ?_⟩
    · intro n c hmem
      rcases List.mem_cons.mp hmem with heq | hmem
      · obtain ⟨rfl, rfl⟩ := Prod.mk.inj heq
        -- the rest writes files of other names
        have other : ∀ m ∈ rest.map Prod.fst, n ≠ m := fun m hm heq => fresh (heq ▸ hm)
        rw [frame _ fun m hm => not_suffix_of_ne (other m hm), hat₁]
      · exact written n c hmem
    · intro p away
      rw [frame p fun n hn => away n (List.mem_cons_of_mem _ hn),
        edit.frame p (away name (by simp))]

variable (plain) in
/-- **A planned switch is carried out**, and nothing is staged afterwards. -/
theorem apply_run (h : Intact root t) {s : Switch} (hplan : plan root t current target = .ok s)
    (sound : Sound root t current) (sound' : Sound root t target) {staging : Staging}
    (hstaging : Staging.load root t = .ok staging) (printed : String) :
    ∃ t', apply root s staging ⟨t, printed⟩ = (.ok (), ⟨t', printed⟩) ∧ Kept plain root t t' ∧
      Touches root [.work, .index .addition, .index .removal] t t' ∧
      Switched root current target t t' := by
  obtain ⟨hdeletions, hwrites⟩ := of_plan hplan
  obtain ⟨-, shows_⟩ := Staging.load_spec h.housed h.index hstaging
  have mem_deletions : ∀ {name}, name ∈ s.deletions ↔
      name ∈ current.manifest ∧ name ∉ target.manifest := by
    intro name
    simp [hdeletions]
  have mem_writes : ∀ {name}, name ∈ s.writes.map Prod.fst → name ∈ target.manifest := by
    intro name hname
    obtain ⟨⟨n, content⟩, hmem, rfl⟩ := List.mem_map.mp hname
    obtain ⟨blob, hblob, -⟩ := (mem_loadFiles hwrites).mp hmem
    exact NameMap.mem_iff_exists_getElem?.mpr ⟨blob, hblob⟩
  -- files are deleted, then written, and the staging area is cleared
  obtain ⟨t₁, hrun₁, gone₁, none₁⟩ := deleteEach_run h.housed
    (fun name hname => sound.names name (mem_deletions.mp hname).1) printed
  have touch₁ := gone₁.touches fun name hname =>
    (sound.names name (mem_deletions.mp hname).1).notMeta
  obtain ⟨t₂, hrun₂, touch₂, written₂, frame₂⟩ := writeEach_run (h.housed.of_touches touch₁)
    (nodup_loadFiles hwrites) (fun name hname => sound'.names name (mem_writes hname)) printed
  have touch := touch₁.trans touch₂
  have kept₂ : Kept plain root t t₂ := Kept.of_work h touch
  obtain ⟨t', hrun', touch', index', shows'⟩ := Staging.clear_save_run kept₂.intact.housed
    kept₂.intact.index (fun _ => shows_.of_touches touch (by simp)) printed
  have whole : Touches root [.work, .index .addition, .index .removal] t t' :=
    (touch.mono (by simp)).trans (touch'.mono (by simp))
  refine ⟨t', ?_, kept₂.trans (Kept.of_touches kept₂.intact touch' index' (by simp) (by simp)
    (by simp)), whole, ?_⟩
  · rw [apply, Action.bind_run_ok hrun₁, Action.bind_run_ok hrun₂, Action.discard_run, hrun']
    rfl
  have away : ∀ {p}, (∀ name ∈ target.manifest, ¬.text name :: root <:+ p) → t₂.at? p = t₁.at? p :=
    fun hp => frame₂ _ fun name hname => hp name (mem_writes hname)
  have same : ∀ name, Trackable root name → t'.at? (name :: root) = t₂.at? (name :: root) :=
    fun name hname => touch'.at?_eq
      (Area.holds_work (FileName.text_ne hname.notMeta) (List.suffix_refl _)) (by simp)
  refine ⟨?_, ?_, ?_, ?_, shows'⟩
  · intro name blob htracked
    have hname := sound'.names name (NameMap.mem_iff_exists_getElem?.mpr ⟨blob, htracked⟩)
    obtain ⟨content, hload, -⟩ := h.loadBlob_of_tracked sound' htracked
    refine ⟨content, hload, ?_⟩
    rw [same name hname]
    exact written₂ name content ((mem_loadFiles hwrites).mpr ⟨blob, htracked, hload⟩)
  · intro name held left content hat
    have other : ∀ n ∈ target.manifest, name ≠ n := fun n hn heq => left (heq ▸ hn)
    refine none₁ name (mem_deletions.mpr ⟨held, left⟩) content ?_
    rw [← hat, same name (sound.names name held), away fun n hn => not_suffix_of_ne (other n hn)]
  · intro p outside hp
    have kept : t'.at? p = t₂.at? p := touch'.frame p fun area harea held => by
      have inside : area ≠ .work := by rintro rfl; simp at harea
      exact outside ((Area.meta_suffix_of_ne_work root inside).trans held.below)
    rw [kept, away hp]
    refine (gone₁ p).imp_right fun ⟨hnone, name, hname, was⟩ =>
      ⟨hnone, name, (mem_deletions.mp hname).1, was⟩
  · intro kind p below
    exact whole.at?_below (.store kind) (by simp) (by simp) below

end Switch

end LocalVcs
