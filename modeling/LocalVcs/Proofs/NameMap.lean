/-
# Maps from lists of entries

A map that is put together from entries with different names holds exactly these entries; put
together from the entries of a map, it is that map again.
-/
import LocalVcs.NameMap

namespace LocalVcs.NameMap

variable {κ α β : Type}

/-- Whether no two entries have the same name. -/
def Distinct (entries : List (κ × α)) : Prop := entries.Pairwise fun a b => a.1 ≠ b.1

theorem distinct_toList [Ord κ] [Std.TransOrd κ] [Std.LawfulEqOrd κ]
    (m : Std.ExtTreeMap κ α compare) : Distinct m.toList := by
  have h := Std.ExtTreeMap.distinct_keys_toList (t := m)
  simp only [Std.LawfulEqCmp.compare_eq_iff_eq] at h
  exact h

theorem Distinct.filterMap {entries : List (κ × α)} (h : Distinct entries)
    {f : κ × α → Option (κ × β)} (keep : ∀ a b, f a = some b → b.1 = a.1) :
    Distinct (entries.filterMap f) := by
  refine List.Pairwise.filterMap f ?_ h
  intro a a' hne b hb b' hb'
  rw [keep a b hb, keep a' b' hb']
  exact hne

/-- An entry is the new one or was there. -/
theorem of_getElem?_insert {m : NameMap α} {name n : String} {a b : α}
    (h : (m.insert name b)[n]? = some a) : n = name ∧ a = b ∨ m[n]? = some a := by
  rw [Std.ExtTreeMap.getElem?_insert] at h
  split at h
  · rename_i same
    exact Or.inl ⟨(Std.LawfulEqCmp.eq_of_compare same).symm, (Option.some.inj h).symm⟩
  · exact Or.inr h

theorem mem_or_of_getElem?_foldl {entries : List (String × α)} {m : NameMap α} {name : String}
    {a : α} (h : (entries.foldl (fun built entry => built.insert entry.1 entry.2) m)[name]? =
      some a) :
    (name, a) ∈ entries ∨ m[name]? = some a := by
  induction entries generalizing m with
  | nil => exact Or.inr h
  | cons entry rest ih =>
    rcases ih h with hmem | hsome
    · exact Or.inl (List.mem_cons_of_mem _ hmem)
    · rcases of_getElem?_insert hsome with ⟨rfl, rfl⟩ | hsome
      · exact Or.inl List.mem_cons_self
      · exact Or.inr hsome

/-- What a map holds is among the entries that it is put together from. -/
theorem mem_of_getElem?_ofList {entries : List (String × α)} {name : String} {a : α}
    (h : (Std.ExtTreeMap.ofList entries compare : NameMap α)[name]? = some a) :
    (name, a) ∈ entries := by
  rw [Std.ExtTreeMap.ofList_eq_foldl] at h
  exact (mem_or_of_getElem?_foldl h).resolve_right (by simp)

theorem getElem?_ofList_eq_some_iff {entries : List (String × α)} (h : Distinct entries)
    {name : String} {a : α} :
    (Std.ExtTreeMap.ofList entries compare : NameMap α)[name]? = some a ↔ (name, a) ∈ entries := by
  have distinct : entries.Pairwise fun a b => ¬compare a.1 b.1 = .eq := by
    simp only [Std.LawfulEqCmp.compare_eq_iff_eq]
    exact h
  exact ⟨mem_of_getElem?_ofList,
    Std.ExtTreeMap.getElem?_ofList_of_mem Std.ReflCmp.compare_self distinct⟩

theorem ofList_toList (m : NameMap α) : Std.ExtTreeMap.ofList m.toList compare = m := by
  refine Std.ExtTreeMap.ext_getElem? fun name => Option.ext fun a => ?_
  rw [getElem?_ofList_eq_some_iff (distinct_toList m),
    Std.ExtTreeMap.mem_toList_iff_getElem?_eq_some]

theorem foldl_insert_toList (m : NameMap α) :
    m.toList.foldl (fun built entry => built.insert entry.1 entry.2) ∅ = m := by
  rw [← Std.ExtTreeMap.ofList_eq_foldl, ofList_toList]

theorem mem_iff_exists_getElem? {m : NameMap α} {name : String} :
    name ∈ m ↔ ∃ a, m[name]? = some a := by
  rw [Std.ExtTreeMap.mem_iff_isSome_getElem?, Option.isSome_iff_exists]

theorem mem_insert {m : NameMap α} {name n : String} {a : α} :
    n ∈ m.insert name a ↔ n = name ∨ n ∈ m := by
  rw [Std.ExtTreeMap.mem_insert, Std.LawfulEqCmp.compare_eq_iff_eq, eq_comm]

theorem mem_erase {m : NameMap α} {name n : String} : n ∈ m.erase name ↔ n ≠ name ∧ n ∈ m := by
  rw [Std.ExtTreeMap.mem_erase, ne_eq, Std.LawfulEqCmp.compare_eq_iff_eq, ne_comm]

theorem erase_eq_self {m : NameMap α} {name : String} (h : name ∉ m) : m.erase name = m := by
  refine Std.ExtTreeMap.ext_getElem? ?_
  intro n
  rw [Std.ExtTreeMap.getElem?_erase]
  split
  · rename_i heq
    obtain rfl := Std.LawfulEqCmp.eq_of_compare heq
    rw [Std.ExtTreeMap.getElem?_eq_none h]
  · rfl

/-- An entry that is left was there. -/
theorem of_getElem?_erase {m : NameMap α} {name n : String} {a : α}
    (h : (m.erase name)[n]? = some a) : m[n]? = some a := by
  rw [Std.ExtTreeMap.getElem?_erase] at h
  split at h
  · cases h
  · exact h

end LocalVcs.NameMap
