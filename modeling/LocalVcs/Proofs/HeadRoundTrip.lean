/-
# Reading back the branch that HEAD names

HEAD holds the name of a branch as it is, but it is read without the blanks around it, and more
characters are blank than are kept out of names.  So the name that has been written is read back
exactly when it neither begins nor ends with a blank, whatever links lead to the files.

* `Text.trimmed_eq_iff`: the texts that have no blanks around them.
* `Branches.of_write_ok`: what has been written is found again where it was written.
* `Branches.head_round_trip`: what is read once a branch has been saved and made the current one.
-/
import LocalVcs.Proofs.BranchMap
import LocalVcs.Proofs.FileTree.Growth

namespace LocalVcs

open FileTree Layout

variable {root : Path} {t t' : FileTree} {w w₁ w₂ : World}

/-! ## 1. Blanks around a text -/

namespace Text

/-- A text that neither begins nor ends with a blank. -/
def Tight (text : String) : Prop :=
  (∀ c ∈ text.toList.head?, isBlank c = false) ∧ ∀ c ∈ text.toList.getLast?, isBlank c = false

instance (text : String) : Decidable (Tight text) :=
  decidable_of_iff (text.toList.head?.all (!isBlank ·) ∧ text.toList.getLast?.all (!isBlank ·))
    (by simp [Tight, Option.all_eq_true])

theorem trimStart_eq_iff {cs : List Char} :
    trimStart cs = cs ↔ ∀ c ∈ cs.head?, isBlank c = false := by
  cases cs with
  | nil => simp [trimStart]
  | cons c rest =>
    have shorter : (rest.dropWhile isBlank).length ≤ rest.length :=
      (List.dropWhile_suffix isBlank).length_le
    cases hc : isBlank c with
    | false => simp [trimStart, hc]
    | true =>
      simp only [trimStart, List.dropWhile_cons, hc, if_true, List.head?_cons, Option.mem_def,
        Option.some.injEq, forall_eq', Bool.true_eq_false, iff_false]
      intro same
      have := congrArg List.length same
      simp only [List.length_cons] at this
      omega

/-- A text has no blanks around it exactly when taking them away changes nothing. -/
theorem trimmed_eq_iff {text : String} : trimmed text = text ↔ Tight text := by
  have suffix : ∀ cs, trimStart cs <:+ cs := fun cs => List.dropWhile_suffix isBlank
  rw [Tight, ← trimStart_eq_iff, ← List.head?_reverse, ← trimStart_eq_iff, trimmed]
  constructor
  · intro same
    have whole : trim text.toList = text.toList := by
      rw [← String.toList_ofList (l := trim _), same]
    have first : trimStart text.toList = text.toList := by
      refine (suffix _).eq_of_length (Nat.le_antisymm (suffix _).length_le ?_)
      have := (suffix (trimStart text.toList).reverse).length_le
      have hlength := congrArg List.length whole
      simp only [trim, List.length_reverse] at hlength this
      omega
    rw [trim, first] at whole
    exact ⟨first, List.reverse_inj.mp (by rw [whole, List.reverse_reverse])⟩
  · rintro ⟨first, last⟩
    rw [trim, first, last, List.reverse_reverse, String.ofList_toList]

end Text

namespace Branches

variable {name : BranchName} {tip : ObjectId}

/-! ## 2. Writing, wherever links lead -/

/-- A file with the text is found where the route leads, and nothing else that stood there is
lost. -/
structure Written (r : Route) (text : String) (t t' : FileTree) (q : Path) : Prop where
  leads : t'.locate r = some q
  file : t'.at? q = some (.file (.plain (Bytes.ofText text)))
  keeps : ∀ {p e}, p ≠ q → t.at? p = some e → t'.at? p = some e
  extends_ : Extends t t'

theorem Written.lookup? {r : Route} {text : String} {q : Path} (h : Written r text t t' q) :
    t'.lookup? r = some (.file (.plain (Bytes.ofText text))) := by
  rw [FileTree.lookup?, h.leads, Option.bind_some, h.file]

theorem text?_of_lookup? {r : Route} {text : String}
    (h : t.lookup? r = some (.file (.plain (Bytes.ofText text)))) : t.text? r = some text := by
  simp [text?, bytes?, contents?, h, Content.bytes]

/-- **What has been written is found again**, wherever links lead. -/
theorem of_write_ok {r : Route} (some_ : r.segments ≠ []) {place text : String}
    (h : write r place text w = (.ok (), w₁)) :
    w₁.printed = w.printed ∧ ∃ q, Written r text w.tree w₁.tree q := by
  obtain ⟨t, printed⟩ := w
  rw [write] at h
  obtain ⟨⟨⟩, ⟨t', printed'⟩, hmake, hedit⟩ := Action.of_bind_ok h
  -- the directories above the file are made, which takes nothing away
  have made := Action.of_makeDirs_ok hmake
  obtain rfl : printed = printed' := by
    rw [Action.makeDirs_run_ok made] at hmake
    exact congrArg World.printed (Prod.mk.inj hmake).2
  have come := onlyDirsCome_makeDirs t r.parent
  rw [made] at come
  dsimp only at come
  -- and the file is written where the route leads then
  cases hwrite : t'.write? r (.plain (Bytes.ofText text)) with
  | none =>
    rw [Action.edit_run_none hwrite] at hedit
    cases hedit
  | some t₁ =>
    rw [Action.edit_run_some hwrite] at hedit
    obtain rfl := (Prod.mk.inj hedit).2
    obtain ⟨q, hlocate, hplace⟩ := exists_of_write? hwrite
    have extends_ := Extends.of_place? hplace (not_link_of_locate hlocate some_) (by simp)
    refine ⟨rfl, q, extends_.locate hlocate, ?_, ?_, come.extends_.trans extends_⟩
    · rw [at?_place? hplace, if_pos rfl]
    · intro p e differs hat
      rw [at?_place? hplace, if_neg differs, come.at?_of_some hat]

/-- **HEAD can be written** unless it leads nowhere or to a directory, where the repository's own
directory stands. -/
theorem setHead_succeeds_iff {printed : String}
    (dir : t.isDir ⟨root, [FileName.text metaName]⟩ = true) :
    (∃ w₁, setHead root name ⟨t, printed⟩ = (.ok (), w₁)) ↔
      ∃ q, t.locate (Layout.head root) = some q ∧ t.at? q ≠ some .dir := by
  have tell : (Route.mk root [FileName.text metaName]).CanTell := by
    by_contra no
    simp [isDir, FileTree.lookup?, locate_eq_none no] at dir
  have hmake : t.makeDirs (Layout.head root).parent = (true, t) := by
    have steps : (Route.mk root [FileName.text metaName]).steps = [FileName.text metaName] := by
      simp [Route.steps, show Route.goes metaName = true by decide]
    have hparent : (Layout.head root).parent = ⟨root, [FileName.text metaName]⟩ := by
      have last : Route.goes "HEAD" = true := by decide
      have first : Route.goes metaName = true := by decide
      simp [Route.parent, Layout.head, Layout.metaDir, Route.child, last, first]
    rw [hparent, makeDirs, if_pos tell, steps, makeDirsFrom,
      if_pos (show t.isDir (Route.child ⟨root, []⟩ metaName) = true from dir), makeDirsFrom]
    exact congrArg (·, t) dir
  rw [setHead, write, Action.bind_run_ok (Action.makeDirs_run_ok hmake)]
  constructor
  · rintro ⟨w₁, hrun⟩
    cases hwrite : t.write? (Layout.head root) (.plain (Bytes.ofText name.text)) with
    | none =>
      rw [Action.edit_run_none hwrite] at hrun
      cases hrun
    | some t' =>
      obtain ⟨q, hlocate, hplace⟩ := exists_of_write? hwrite
      exact ⟨q, hlocate, not_dir_of_place? hplace⟩
  · rintro ⟨q, hlocate, noDir⟩
    have can := canPlace_of_locate hlocate (by simp [Layout.head, Route.child]) noDir
    exact ⟨_, Action.edit_run_some (by rw [write?, hlocate]; exact dif_pos can)⟩

/-! ## 3. Reading back -/

/-- The name of the current branch is read without the blanks around it. -/
theorem head_of_written {q : Path} (written : Written (Layout.head root) name.text t t' q) :
    head root t' = match BranchName.ofText? (Text.trimmed name.text) with
      | some other => .ok other
      | none => .error (.user (.invalidBranchName (Text.trimmed name.text))) := by
  have htext := text?_of_lookup? written.lookup?
  cases hname : BranchName.ofText? (Text.trimmed name.text) <;> simp [head, htext, hname]

theorem head_eq_iff_tight {q : Path} (written : Written (Layout.head root) name.text t t' q) :
    head root t' = .ok name ↔ Text.Tight name.text := by
  rw [head_of_written written, ← Text.trimmed_eq_iff]
  constructor
  · intro h
    split at h
    · rename_i other hother
      rw [← ofText?_eq_some hother, Except.ok.inj h]
    · cases h
  · intro same
    rw [same, BranchName.ofText?_text]

theorem isCurrent_eq_true_iff : isCurrent root t name = .ok true ↔ head root t = .ok name := by
  rw [isCurrent]
  cases head root t with
  | error fault => simp [Except.map]
  | ok other => simp [Except.map]

theorem get?_of_lookup? (h : t.lookup? (route root name) =
    some (.file (.plain (Bytes.ofText tip.text)))) : get? root t name = .ok (some ⟨name, tip⟩) :=
  get?_eq_some_iff.mpr ⟨rfl, by simp [isFile, h], tip.text, text?_of_lookup? h,
    by rw [tip.trimmed_text, ObjectId.ofText?_text]⟩

/-- **What is read of the branch that has been made the current one.**  HEAD can be written unless
it leads nowhere or to a directory.  Its name is read without the blanks around it: as it was
written exactly when there are none, and then the branch is the current one with the tip that it was
saved with, unless HEAD and the branch are one file. -/
theorem head_round_trip (hsave : save root ⟨name, tip⟩ w = (.ok (), w₁)) :
    ((∃ w₂, setHead root name w₁ = (.ok (), w₂)) ↔
      ∃ q, w₁.tree.locate (Layout.head root) = some q ∧ w₁.tree.at? q ≠ some .dir) ∧
    ∀ w₂, setHead root name w₁ = (.ok (), w₂) →
      (head root w₂.tree = match BranchName.ofText? (Text.trimmed name.text) with
        | some other => .ok other
        | none => .error (.user (.invalidBranchName (Text.trimmed name.text)))) ∧
      (head root w₂.tree = .ok name ↔ Text.Tight name.text) ∧
      (isCurrent root w₂.tree name = .ok true ↔ Text.Tight name.text) ∧
      (w₁.tree.locate (Layout.head root) ≠ w₁.tree.locate (route root name) →
        (current root w₂.tree = .ok ⟨name, tip⟩ ↔ Text.Tight name.text)) := by
  have segments : (route root name).segments ≠ [] := by rw [route_eq]; simp
  obtain ⟨-, branch, saved⟩ := of_write_ok segments hsave
  have dir : w₁.tree.isDir ⟨root, [FileName.text metaName]⟩ = true := by
    have hlocate := saved.leads
    rw [route_eq] at hlocate
    have hlocate : w₁.tree.locate
        ⟨root, [FileName.text metaName] ++ .text "branches" :: segmentsOf name.text⟩ = _ := hlocate
    exact isDir_of_locate hlocate (by simp)
  have accepts : (∃ w₂, setHead root name ⟨w₁.tree, w₁.printed⟩ = (.ok (), w₂)) ↔ _ :=
    setHead_succeeds_iff dir
  refine ⟨accepts, fun w₂ hset => ?_⟩
  obtain ⟨-, path, written⟩ := of_write_ok (by simp [Layout.head, Route.child]) hset
  have tight := head_eq_iff_tight written
  refine ⟨head_of_written written, tight, isCurrent_eq_true_iff.trans tight, fun apart => ?_⟩
  -- the file of the branch is still what it was saved as
  obtain ⟨q, hq, -⟩ := accepts.mp ⟨w₂, hset⟩
  obtain rfl : q = path := Option.some.inj ((written.extends_.locate hq).symm.trans written.leads)
  have differs : branch ≠ q := fun same => apart (by rw [hq, saved.leads, same])
  have hget : get? root w₂.tree name = .ok (some ⟨name, tip⟩) := get?_of_lookup? (by
    rw [FileTree.lookup?, written.extends_.locate saved.leads, Option.bind_some,
      written.keeps differs saved.file])
  rw [← tight]
  exact ⟨fun hcurrent => (of_current hcurrent).1, fun h => current_of_head h hget⟩

/-! ## 4. Names that are lost -/

namespace Spaced

/-- What saving a branch of the first commit comes to, and then making it the current one. -/
def saved (t : FileTree) (name : BranchName) : Except Fault Unit × World :=
  save [] ⟨name, Commit.initial.id⟩ ⟨t, ""⟩

def made (t : FileTree) (name : BranchName) : Except Fault Unit × World :=
  setHead [] name (saved t name).2

/-- A branch without blanks around its name is the current one. -/
theorem feature_read_back :
    (∃ w₂, setHead [] Nested.feature (saved Nested.bare Nested.feature).2 = (.ok (), w₂)) ∧
      save [] ⟨Nested.feature, Commit.initial.id⟩ ⟨Nested.bare, ""⟩ =
        (.ok (), (saved Nested.bare Nested.feature).2) ∧
      head [] (made Nested.bare Nested.feature).2.tree = .ok Nested.feature ∧
      isCurrent [] (made Nested.bare Nested.feature).2.tree Nested.feature = .ok true ∧
      current [] (made Nested.bare Nested.feature).2.tree =
        .ok ⟨Nested.feature, Commit.initial.id⟩ := by
  have hsave : save [] ⟨Nested.feature, Commit.initial.id⟩ ⟨Nested.bare, ""⟩ =
      (.ok (), (saved Nested.bare Nested.feature).2) :=
    Prod.ext (by decide +kernel : (saved Nested.bare Nested.feature).1 = .ok ()) rfl
  have hset : setHead [] Nested.feature (saved Nested.bare Nested.feature).2 =
      (.ok (), (made Nested.bare Nested.feature).2) :=
    Prod.ext (by decide +kernel : (made Nested.bare Nested.feature).1 = .ok ()) rfl
  have apart : (saved Nested.bare Nested.feature).2.tree.locate (Layout.head []) ≠
      (saved Nested.bare Nested.feature).2.tree.locate (route [] Nested.feature) := by
        decide +kernel
  have tight : Text.Tight Nested.feature.text := by decide
  obtain ⟨-, hhead, hcurrent, hbranch⟩ := (head_round_trip hsave).2 _ hset
  exact ⟨⟨_, hset⟩, hsave, hhead.mpr tight, hcurrent.mpr tight, (hbranch apart).mpr tight⟩

/-- A name that ends in a blank, and without it. -/
def spaced : BranchName := ⟨"x\u00a0", by decide⟩

def bare : BranchName := ⟨"x", by decide⟩

/-- HEAD is a link to the file of a branch. -/
def linked : FileTree :=
  (Nested.bare.place? (headPath []) (.link "branches/x")).getD Nested.bare

/-- **A name is not always read back.**  It loses the blank that it ends in, and then names no
branch; and where HEAD is a link to its file, the branch has no tip any more. -/
theorem not_read_back :
    ((saved Nested.bare spaced).1 = .ok () ∧ (made Nested.bare spaced).1 = .ok () ∧
      head [] (made Nested.bare spaced).2.tree = .ok bare ∧ bare ≠ spaced ∧
      isCurrent [] (made Nested.bare spaced).2.tree spaced = .ok false ∧
      current [] (made Nested.bare spaced).2.tree = .error (.refused (.findHeadBranch bare))) ∧
    ((saved linked bare).1 = .ok () ∧ (made linked bare).1 = .ok () ∧
      head [] (made linked bare).2.tree = .ok bare ∧
      current [] (made linked bare).2.tree = .error (.refused (.parseBranch (place bare)))) := by
  decide +kernel

end Spaced

end Branches

end LocalVcs
