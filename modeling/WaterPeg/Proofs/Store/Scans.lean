import WaterPeg.Store

/-! A scan gives the entries whose keys begin with some bytes, and no others. -/
namespace WaterPeg

namespace Bytes

theorem compare_cons (a b : UInt8) (x y : Bytes) :
    compare (a :: x) (b :: y) = (compare a b).then (compare x y) := by
  change List.compareLex compare (a :: x) (b :: y) = _
  rw [List.compareLex_cons_cons]
  cases compare a b <;> rfl

/-- Keys are compared byte by byte, a key that ends coming before those that go on. -/
theorem compare_eq_lt_iff {x y : Bytes} : compare x y = .lt ↔ x < y := by
  induction x generalizing y with
  | nil =>
    cases y with
    | nil => simp [Std.compare_self]
    | cons b y => exact iff_of_true rfl (List.nil_lt_cons b y)
  | cons a x ih =>
    cases y with
    | nil => exact iff_of_false nofun (List.not_lt_nil _)
    | cons b y =>
      rw [compare_cons, Ordering.then_eq_lt, Std.compare_eq_lt, Std.compare_eq_iff_eq, ih,
        List.cons_lt_cons_iff]

/-- A key does not come before what it begins with. -/
theorem compare_ne_lt_of_isPrefixOf {start key : Bytes} (h : start.isPrefixOf key) :
    compare key start ≠ .lt := by
  induction start generalizing key with
  | nil => cases key <;> exact nofun
  | cons s start ih =>
    cases key with
    | nil => exact nomatch h
    | cons a key =>
      obtain ⟨rfl, hkey⟩ : s = a ∧ start.isPrefixOf key := by simpa [List.isPrefixOf] using h
      rw [compare_cons, Std.compare_self]
      exact ih hkey

/-- Whatever lies between some bytes and a key that begins with them begins with them too. -/
theorem isPrefixOf_of_between {start key last : Bytes} (hstart : compare key start ≠ .lt)
    (hlast : compare key last ≠ .gt) (h : start.isPrefixOf last) : start.isPrefixOf key := by
  induction start generalizing key last with
  | nil => rfl
  | cons s start ih =>
    cases last with
    | nil => exact nomatch h
    | cons b last =>
      obtain ⟨rfl, hprefix⟩ : s = b ∧ start.isPrefixOf last := by
        simpa [List.isPrefixOf] using h
      cases key with
      | nil => exact absurd rfl hstart
      | cons a key =>
        rw [compare_cons] at hstart hlast
        cases hcmp : compare a s with
        | lt => simp [hcmp, Ordering.then] at hstart
        | gt => simp [hcmp, Ordering.then] at hlast
        | eq =>
          rw [hcmp] at hstart hlast
          obtain rfl := Std.LawfulEqCmp.eq_of_compare hcmp
          simpa [List.isPrefixOf] using ih hstart hlast hprefix

section

variable (start : Bytes) {entries : List (Bytes × Bytes)}
  (h : entries.Pairwise fun a b => compare a.1 b.1 = .lt)

include h

theorem takeWhile_eq_filter (hstart : ∀ e ∈ entries, compare e.1 start ≠ .lt) :
    entries.takeWhile (fun e => start.isPrefixOf e.1) =
      entries.filter fun e => start.isPrefixOf e.1 := by
  induction entries with
  | nil => rfl
  | cons e entries ih =>
    obtain ⟨he, hentries⟩ := List.pairwise_cons.1 h
    rw [List.takeWhile_cons, List.filter_cons]
    split
    · rw [ih hentries fun f hf => hstart f (List.mem_cons_of_mem e hf)]
    · next hprefix =>
      symm
      rw [List.filter_eq_nil_iff]
      intro f hf hf'
      refine hprefix (isPrefixOf_of_between (hstart e List.mem_cons_self) ?_ hf')
      rw [he f hf]
      exact nofun

/-- In ascending order the keys that begin with some bytes stand together, from the first that does
not come before those bytes on. -/
theorem takeWhile_dropWhile_eq_filter :
    (entries.dropWhile fun e => (compare e.1 start).isLT).takeWhile (fun e => start.isPrefixOf e.1) =
      entries.filter fun e => start.isPrefixOf e.1 := by
  induction entries with
  | nil => rfl
  | cons e entries ih =>
    obtain ⟨he, hentries⟩ := List.pairwise_cons.1 h
    rw [List.dropWhile_cons]
    split
    · next hlt =>
      have hprefix : ¬ start.isPrefixOf e.1 := fun hprefix =>
        compare_ne_lt_of_isPrefixOf hprefix (Ordering.isLT_iff_eq_lt.1 hlt)
      rw [ih hentries, List.filter_cons, if_neg hprefix]
    · next hlt =>
      have hstart : compare e.1 start ≠ .lt := mt Ordering.isLT_iff_eq_lt.2 hlt
      refine takeWhile_eq_filter start h fun f hf => ?_
      rcases List.mem_cons.1 hf with rfl | hf
      · exact hstart
      · exact fun hf' => hstart (Std.TransCmp.lt_trans (he f hf) hf')

end

end Bytes

namespace Store

theorem scan_eq_filter {s : Store} (h : s.readsFail = false) (start : Bytes) :
    s.scan start = .ok (s.entries.toList.filter fun e => start.isPrefixOf e.1) := by
  unfold scan
  rw [if_neg (by simp [h]),
    Bytes.takeWhile_dropWhile_eq_filter start Std.ExtTreeMap.ordered_keys_toList]

theorem readsFail_of_records {α : Type} [JsonForm α] {s : Store} {kind : RecordKind} {rs : List α}
    (h : s.records α kind = .ok rs) : s.readsFail = false := by
  unfold records scan at h
  split at h
  · exact nomatch h
  · next hreads => simpa using hreads

/-- A scan for a kind finds the entries of the kind. -/
theorem exists_scan_kind {s : Store} (h : s.readsFail = false) (kind : RecordKind) :
    ∃ found, s.scan [kind.tag] = .ok found ∧
      ∀ e, e ∈ found ↔ ∃ id, e.1 = kind.key id ∧ s.entries[kind.key id]? = some e.2 := by
  refine ⟨_, scan_eq_filter h [kind.tag], ?_⟩
  rintro ⟨key, b⟩
  rw [List.mem_filter, Std.ExtTreeMap.mem_toList_iff_getElem?_eq_some]
  constructor
  · rintro ⟨he, hprefix⟩
    obtain ⟨id, rfl⟩ := List.isPrefixOf_iff_prefix.1 hprefix
    exact ⟨id, rfl, he⟩
  · rintro ⟨id, rfl, he⟩
    exact ⟨he, List.isPrefixOf_iff_prefix.2 ⟨id, rfl⟩⟩

end Store

end WaterPeg
