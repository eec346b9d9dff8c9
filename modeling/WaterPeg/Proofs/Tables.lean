import WaterPeg.Order

/-! What the lists of a table and of a set hold, and in which order. -/
namespace WaterPeg
open Std

namespace Table

variable {κ α : Type} [Ord κ] [TransOrd κ]

theorem values_eq_map_snd (t : Table κ α) : t.values = t.toList.map (·.2) := by
  obtain ⟨⟨q⟩⟩ := t
  induction q using Quotient.inductionOn with
  | _ d =>
    change d.inner.values = (DTreeMap.Internal.Impl.Const.toList d.inner).map (·.2)
    rw [DTreeMap.Internal.Impl.values_eq_map_snd,
      DTreeMap.Internal.Impl.Const.toList_eq_toListModel_map, List.map_map]
    rfl

theorem mem_values [LawfulEqOrd κ] {t : Table κ α} {a : α} :
    a ∈ t.values ↔ ∃ k : κ, t[k]? = some a := by
  simp only [values_eq_map_snd, List.mem_map, Prod.exists, exists_eq_right,
    ExtTreeMap.mem_toList_iff_getElem?_eq_some]

theorem values_map {β : Type} (t : Table κ α) (f : α → β) :
    (t.map fun _ a => f a).values = t.values.map f := by
  rw [values_eq_map_snd, values_eq_map_snd, ExtTreeMap.toList_map, List.map_map, List.map_map]
  rfl

theorem values_filter (t : Table κ α) (keep : α → Bool) :
    (t.filter fun _ a => keep a).values = t.values.filter keep := by
  rw [values_eq_map_snd, values_eq_map_snd, ExtTreeMap.toList_filter, List.filter_map]
  rfl

/-- A new value that fails a test does not add to those that pass it. -/
theorem filter_values_insert [LawfulEqOrd κ] {t : Table κ α} {k : κ} {a : α} {keep : α → Bool}
    (hnew : t.contains k = false) (ha : keep a = false) :
    (t.insert k a).values.filter keep = t.values.filter keep := by
  have hnone : t[k]? = none := ExtTreeMap.getElem?_eq_none_of_contains_eq_false hnew
  have hfilter : ((t.insert k a).filter fun _ a => keep a) = t.filter fun _ a => keep a := by
    refine ExtTreeMap.ext_getElem? fun j => ?_
    rw [ExtTreeMap.getElem?_filter', ExtTreeMap.getElem?_filter', ExtTreeMap.getElem?_insert]
    split
    · next hj =>
      obtain rfl := LawfulEqCmp.eq_of_compare hj
      simp [hnone, Option.filter, ha]
    · rfl
  rw [← values_filter, ← values_filter, hfilter]

/-- Where every value knows its key, the keys of the values that pass a test come in ascending
order, as the keys of the table do. -/
theorem pairwise_filter_values [LawfulEqOrd κ] (t : Table κ α) (key : α → κ)
    (hkey : ∀ k a, t[k]? = some a → key a = k) (keep : α → Bool) :
    ((t.values.filter keep).map key).Pairwise fun a b => compare a b = .lt := by
  have hkeys : t.values.map key = t.keys := by
    rw [values_eq_map_snd, ← ExtTreeMap.map_fst_toList_eq_keys, List.map_map]
    refine List.map_congr_left fun e he => ?_
    exact hkey e.1 e.2 (ExtTreeMap.mem_toList_iff_getElem?_eq_some.1 he)
  have hsub : ((t.values.filter keep).map key).Sublist t.keys :=
    hkeys ▸ List.Sublist.map key List.filter_sublist
  exact ExtTreeMap.ordered_keys.sublist hsub

/-- What some inserts leave under a key: an item that was put there, or what was there before. -/
theorem getElem?_foldl_insert_cases [LawfulEqOrd κ] {ρ : Type} (key : ρ → κ) (value : ρ → α)
    (items : List ρ) (t : Table κ α) (k : κ) :
    (∃ r ∈ items, key r = k ∧
        (items.foldl (fun t r => t.insert (key r) (value r)) t)[k]? = some (value r)) ∨
      (∀ r ∈ items, key r ≠ k) ∧
        (items.foldl (fun t r => t.insert (key r) (value r)) t)[k]? = t[k]? := by
  induction items generalizing t with
  | nil => exact Or.inr ⟨nofun, rfl⟩
  | cons b items ih =>
    rcases ih (t.insert (key b) (value b)) with ⟨r, hr, hk, h⟩ | ⟨hother, h⟩
    · exact Or.inl ⟨r, List.mem_cons_of_mem b hr, hk, h⟩
    · rw [ExtTreeMap.getElem?_insert] at h
      split at h
      · next hb => exact Or.inl ⟨b, List.mem_cons_self, LawfulEqCmp.eq_of_compare hb, h⟩
      · next hb =>
        refine Or.inr ⟨fun r hr => ?_, h⟩
        rcases List.mem_cons.1 hr with rfl | hr
        · exact fun hk => hb (hk ▸ compare_self)
        · exact hother r hr

/-- Where items of one key have one value, what is under a key does not depend on their order. -/
theorem getElem?_foldl_insert [LawfulEqOrd κ] {ρ : Type} (key : ρ → κ) (value : ρ → α)
    {items : List ρ} (hone : ∀ r ∈ items, ∀ r' ∈ items, key r = key r' → value r = value r')
    (k : κ) (a : α) :
    (items.foldl (fun t r => t.insert (key r) (value r)) (∅ : Table κ α))[k]? = some a ↔
      ∃ r ∈ items, key r = k ∧ value r = a := by
  rcases getElem?_foldl_insert_cases key value items ∅ k with ⟨r, hr, hk, h⟩ | ⟨hother, h⟩
  · rw [h, Option.some.injEq]
    constructor
    · exact fun ha => ⟨r, hr, hk, ha⟩
    · rintro ⟨r', hr', hk', rfl⟩
      exact hone r hr r' hr' (hk.trans hk'.symm)
  · rw [h]
    refine iff_of_false (by simp) ?_
    rintro ⟨r, hr, hk, -⟩
    exact hother r hr hk

/-- A table built of values under their own keys holds each value under its key. -/
theorem key_of_getElem?_foldl_insert [LawfulEqOrd κ] (key : α → κ) (items : List α) {k : κ} {a : α}
    (h : (items.foldl (fun t a => t.insert (key a) a) (∅ : Table κ α))[k]? = some a) :
    key a = k := by
  rcases getElem?_foldl_insert_cases key id items ∅ k with ⟨b, -, hk, hb⟩ | ⟨-, hnone⟩
  · exact Option.some.inj (hb.symm.trans h) ▸ hk
  · have hempty := hnone.symm.trans h
    simp at hempty

theorem key_eq_of_insert [LawfulEqOrd κ] {t : Table κ α} {key : α → κ}
    (h : ∀ k a, t[k]? = some a → key a = k) (b : α) (k : κ) (a : α)
    (ha : (t.insert (key b) b)[k]? = some a) : key a = k := by
  rw [ExtTreeMap.getElem?_insert] at ha
  split at ha
  · next hb => exact Option.some.inj ha ▸ LawfulEqCmp.eq_of_compare hb
  · exact h k a ha

theorem getElem?_of_erase {t : Table κ α} {j k : κ} {a : α} (h : (t.erase j)[k]? = some a) :
    t[k]? = some a := by
  rw [ExtTreeMap.getElem?_erase] at h
  split at h
  · exact nomatch h
  · exact h

theorem getElem?_foldl_erase [LawfulEqOrd κ] (t : Table κ α) (ks : List κ) (k : κ) :
    (ks.foldl (fun t k => t.erase k) t)[k]? = none ∧ k ∈ ks ∨
      (ks.foldl (fun t k => t.erase k) t)[k]? = t[k]? ∧ k ∉ ks := by
  induction ks generalizing t with
  | nil => exact Or.inr ⟨rfl, nofun⟩
  | cons j ks ih =>
    rcases ih (t.erase j) with ⟨h, hmem⟩ | ⟨h, hmem⟩
    · exact Or.inl ⟨h, List.mem_cons_of_mem j hmem⟩
    · rw [List.foldl_cons, h, ExtTreeMap.getElem?_erase, List.mem_cons]
      split
      · next hj => exact Or.inl ⟨rfl, Or.inl (LawfulEqCmp.eq_of_compare hj).symm⟩
      · next hj =>
        refine Or.inr ⟨rfl, ?_⟩
        rintro (rfl | hk)
        · exact hj compare_self
        · exact hmem hk

/-- Where every value knows its key, erasing those that pass a test leaves the others. -/
theorem foldl_erase_filter_values [LawfulEqOrd κ] (t : Table κ α) (key : α → κ)
    (hkey : ∀ k a, t[k]? = some a → key a = k) (drop : α → Bool) :
    ((t.values.filter drop).map key).foldl (fun t k => t.erase k) t =
      t.filter fun _ a => !drop a := by
  refine ExtTreeMap.ext_getElem? fun k => ?_
  rw [ExtTreeMap.getElem?_filter']
  rcases getElem?_foldl_erase t ((t.values.filter drop).map key) k with ⟨h, hmem⟩ | ⟨h, hnot⟩
  · obtain ⟨a, ha, rfl⟩ := List.mem_map.1 hmem
    obtain ⟨hvalue, hdrop⟩ := List.mem_filter.1 ha
    obtain ⟨j, hj⟩ := mem_values.1 hvalue
    obtain rfl := hkey j a hj
    rw [h, hj]
    simp [Option.filter, hdrop]
  · rw [h]
    cases ha : t[k]? with
    | none => rfl
    | some a =>
      have hkept : drop a = false := by
        refine Bool.eq_false_iff.2 fun hdrop => hnot (List.mem_map.2 ⟨a, ?_, hkey k a ha⟩)
        exact List.mem_filter.2 ⟨mem_values.2 ⟨k, ha⟩, hdrop⟩
      simp [Option.filter, hkept]

section

variable [LawfulEqOrd κ] (t : Table κ α) {k k' : κ} (h : k ≠ k')

include h

theorem insert_comm (a a' : α) : (t.insert k a).insert k' a' = (t.insert k' a').insert k a := by
  refine ExtTreeMap.ext_getElem? fun j => ?_
  simp only [ExtTreeMap.getElem?_insert]
  split
  · next hk' =>
    obtain rfl := LawfulEqCmp.eq_of_compare hk'
    rw [if_neg fun hk => h (LawfulEqCmp.eq_of_compare hk)]
  · rfl

theorem insert_erase_comm (a : α) : (t.insert k a).erase k' = (t.erase k').insert k a := by
  refine ExtTreeMap.ext_getElem? fun j => ?_
  simp only [ExtTreeMap.getElem?_insert, ExtTreeMap.getElem?_erase]
  split
  · next hk' =>
    obtain rfl := LawfulEqCmp.eq_of_compare hk'
    rw [if_neg fun hk => h (LawfulEqCmp.eq_of_compare hk)]
  · rfl

omit h in
theorem erase_comm (k k' : κ) : (t.erase k).erase k' = (t.erase k').erase k := by
  refine ExtTreeMap.ext_getElem? fun j => ?_
  simp only [ExtTreeMap.getElem?_erase]
  split <;> split <;> rfl

end

end Table

variable {α : Type} [Ord α] [TransOrd α] [LawfulEqOrd α]

theorem mem_toList_insertMany [BEq α] [LawfulBEq α] {items : List α} {a : α} :
    a ∈ ((∅ : ExtTreeSet α).insertMany items).toList ↔ a ∈ items := by
  have : LawfulBEqCmp (compare : α → α → Ordering) := ⟨by simp⟩
  rw [ExtTreeSet.mem_toList]
  change a ∈ ExtTreeMap.insertManyIfNewUnit (∅ : ExtTreeMap α Unit) items ↔ _
  simp

/-- What a set lists depends on what is in it, not on how often or when that was put there. -/
theorem toList_insertMany_eq_of_mem_iff [BEq α] [LawfulBEq α] {items items' : List α}
    (h : ∀ a, a ∈ items ↔ a ∈ items') :
    ((∅ : ExtTreeSet α).insertMany items).toList = ((∅ : ExtTreeSet α).insertMany items').toList := by
  have hset : (∅ : ExtTreeSet α).insertMany items = (∅ : ExtTreeSet α).insertMany items' := by
    refine ExtTreeSet.ext_mem fun a => ?_
    rw [← ExtTreeSet.mem_toList, ← ExtTreeSet.mem_toList, mem_toList_insertMany,
      mem_toList_insertMany, h]
  rw [hset]

theorem nodup_toList (s : ExtTreeSet α) : s.toList.Nodup := by
  refine ExtTreeSet.distinct_toList.imp fun h => ?_
  rintro rfl
  exact h ReflCmp.compare_self

end WaterPeg
