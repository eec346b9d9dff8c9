import WaterPeg.Proofs.Json.Form
import WaterPeg.Proofs.Results
import WaterPeg.Proofs.Store.Scans
import WaterPeg.Proofs.Tables

/-!
Kinds of records in the store, and the tables that mirror them. A table mirrors a kind if loading
the kind gives back the table.
-/
namespace WaterPeg

/-- How the records `ρ` of a kind are kept: in memory as a value under a key, and in the store under
the id of that key. -/
structure Shelf (ρ κ α : Type) where
  kind : RecordKind
  key : ρ → κ
  value : ρ → α
  storeId : κ → Bytes
  Proper : ρ → Prop

/-- What stands under a key after one entry of a batch. -/
theorem Store.getElem?_applyEntry (entries : Table Bytes Bytes) (a b : RecordKind) (x y : Bytes)
    (value : Option Bytes) :
    (applyEntry entries (a.key x, value))[b.key y]? =
      if a = b ∧ x = y then value else entries[b.key y]? := by
  cases value with
  | none =>
    change (entries.erase (a.key x))[b.key y]? = _
    rw [Std.ExtTreeMap.getElem?_erase]
    simp only [Std.LawfulEqCmp.compare_eq_iff_eq, RecordKind.key_inj]
  | some v =>
    change (entries.insert (a.key x) v)[b.key y]? = _
    rw [Std.ExtTreeMap.getElem?_insert]
    simp only [Std.LawfulEqCmp.compare_eq_iff_eq, RecordKind.key_inj]

def Store.Misses (kind : RecordKind) (e : Bytes × Option Bytes) : Prop :=
  ∃ kind' id, kind' ≠ kind ∧ e.1 = RecordKind.key kind' id

theorem Store.misses_map {α : Type} {a b : RecordKind} (h : a ≠ b) (id : α → Bytes)
    (value : α → Option Bytes) (xs : List α) :
    ∀ e ∈ xs.map fun x => (a.key (id x), value x), Misses b e := by
  intro e he
  obtain ⟨x, -, rfl⟩ := List.mem_map.1 he
  exact ⟨a, id x, h, rfl⟩

theorem Store.getElem?_foldl_applyEntry {kind : RecordKind} {batch : Batch}
    (h : ∀ e ∈ batch, Misses kind e) (entries : Table Bytes Bytes) (id : Bytes) :
    (batch.foldl applyEntry entries)[kind.key id]? = entries[kind.key id]? := by
  induction batch generalizing entries with
  | nil => rfl
  | cons e batch ih =>
    obtain ⟨kind', id', hkind, he⟩ := h e List.mem_cons_self
    rw [List.foldl_cons, ih fun f hf => h f (List.mem_cons_of_mem e hf)]
    obtain ⟨k, value⟩ := e
    obtain rfl : k = kind'.key id' := he
    rw [getElem?_applyEntry, if_neg fun heq => hkind heq.1]

namespace Shelf
open Store

variable {ρ κ α : Type} [JsonForm ρ]

section

variable (sh : Shelf ρ κ α)

def Apart : Prop :=
  ∀ {r r' : ρ}, sh.Proper r → sh.Proper r' → sh.storeId (sh.key r) = sh.storeId (sh.key r') →
    sh.key r = sh.key r'

def entry (r : ρ) : Bytes × Option Bytes := (sh.kind.key (sh.storeId (sh.key r)), some (encode r))

/-- All entries of the kind are proper records, each under its own id. -/
def Filed (entries : Table Bytes Bytes) : Prop :=
  ∀ id b, entries[sh.kind.key id]? = some b →
    ∃ r, sh.Proper r ∧ sh.storeId (sh.key r) = id ∧ encode r = b

def Stored (entries : Table Bytes Bytes) (r : ρ) : Prop :=
  sh.Proper r ∧ entries[sh.kind.key (sh.storeId (sh.key r))]? = some (encode r)

/-- The table holds the values of the stored records under their keys, and nothing else. -/
def Lists [Ord κ] [Std.TransOrd κ] (table : Table κ α) (entries : Table Bytes Bytes) : Prop :=
  ∀ (k : κ) (a : α), table[k]? = some a ↔ ∃ r, sh.Stored entries r ∧ sh.key r = k ∧ sh.value r = a

/-- The entries of the kind can be loaded. They are loaded as the table, unless keys share an id. -/
structure Mirrors [Ord κ] [Std.TransOrd κ] (table : Table κ α) (entries : Table Bytes Bytes) :
    Prop where
  filed : sh.Filed entries
  lists : sh.Apart → sh.Lists table entries

end

variable {sh : Shelf ρ κ α} {entries : Table Bytes Bytes}

/-! ## Single entries -/

theorem filed_empty : sh.Filed ∅ := by
  intro id b hb
  simp at hb

namespace Filed

variable (h : sh.Filed entries)

include h

theorem put {r : ρ} (hr : sh.Proper r) : sh.Filed (applyEntry entries (sh.entry r)) := by
  intro id b hb
  rw [entry, getElem?_applyEntry] at hb
  split at hb
  · next heq => exact ⟨r, hr, heq.2, Option.some.inj hb⟩
  · exact h id b hb

theorem drop (id : Bytes) : sh.Filed (applyEntry entries (sh.kind.key id, none)) := by
  intro id' b hb
  rw [getElem?_applyEntry] at hb
  split at hb
  · exact nomatch hb
  · exact h id' b hb

/-- Only the entries of the kind matter. -/
theorem congr {entries' : Table Bytes Bytes}
    (heq : ∀ id, entries'[sh.kind.key id]? = entries[sh.kind.key id]?) : sh.Filed entries' :=
  fun id b hb => h id b (heq id ▸ hb)

end Filed

theorem stored_drop {k : κ}
    (hk : ∀ r, sh.Proper r → sh.storeId k = sh.storeId (sh.key r) → k = sh.key r) {r : ρ} :
    sh.Stored (applyEntry entries (sh.kind.key (sh.storeId k), none)) r ↔
      k ≠ sh.key r ∧ sh.Stored entries r := by
  unfold Stored
  rw [getElem?_applyEntry]
  constructor
  · rintro ⟨hr, h⟩
    split at h
    · exact nomatch h
    · next hne => exact ⟨fun heq => hne ⟨rfl, congrArg _ heq⟩, hr, h⟩
  · rintro ⟨hne, hr, h⟩
    refine ⟨hr, ?_⟩
    rw [if_neg fun heq => hne (hk r hr heq.2)]
    exact h

section

variable [Ord κ] [Std.TransOrd κ]

theorem mirrors_empty : sh.Mirrors (∅ : Table κ α) ∅ := by
  refine ⟨filed_empty, fun _ k a => ?_⟩
  simp [Stored]

theorem Mirrors.congr {table : Table κ α} (h : sh.Mirrors table entries)
    {entries' : Table Bytes Bytes}
    (heq : ∀ id, entries'[sh.kind.key id]? = entries[sh.kind.key id]?) :
    sh.Mirrors table entries' := by
  refine ⟨h.filed.congr heq, fun hapart k a => ?_⟩
  simp only [Stored, heq]
  exact h.lists hapart k a

theorem Mirrors.other {table : Table κ α} (h : sh.Mirrors table entries) {kind : RecordKind}
    (hkind : kind ≠ sh.kind) (id : Bytes) (value : Option Bytes) :
    sh.Mirrors table (applyEntry entries (kind.key id, value)) :=
  h.congr fun id' => by rw [getElem?_applyEntry, if_neg fun heq => hkind heq.1]

variable [Std.LawfulEqOrd κ]

theorem Mirrors.drop {table : Table κ α} (h : sh.Mirrors table entries) {k : κ}
    (hk : ∀ r, sh.Proper r → sh.storeId k = sh.storeId (sh.key r) → k = sh.key r) :
    sh.Mirrors (table.erase k) (applyEntry entries (sh.kind.key (sh.storeId k), none)) := by
  refine ⟨h.filed.drop _, fun hapart k' a => ?_⟩
  simp only [stored_drop hk, Std.ExtTreeMap.getElem?_erase]
  split
  · next hkk =>
    obtain rfl := Std.LawfulEqCmp.eq_of_compare hkk
    refine iff_of_false nofun ?_
    rintro ⟨r, ⟨hne, -⟩, hkey, -⟩
    exact hne hkey.symm
  · next hkk =>
    rw [h.lists hapart]
    constructor
    · rintro ⟨r, hr, rfl, rfl⟩
      exact ⟨r, ⟨fun heq => hkk (heq ▸ Std.compare_self), hr⟩, rfl, rfl⟩
    · rintro ⟨r, ⟨-, hr⟩, rfl, rfl⟩
      exact ⟨r, hr, rfl, rfl⟩

theorem Mirrors.dropAll {table : Table κ α} (h : sh.Mirrors table entries) (ks : List κ)
    (hks : ∀ k ∈ ks, ∀ r, sh.Proper r → sh.storeId k = sh.storeId (sh.key r) → k = sh.key r) :
    sh.Mirrors (ks.foldl (fun t k => t.erase k) table)
      ((ks.map fun k => (sh.kind.key (sh.storeId k), none)).foldl applyEntry entries) := by
  induction ks generalizing table entries with
  | nil => exact h
  | cons k ks ih =>
    exact ih (h.drop (hks k List.mem_cons_self)) fun k' hk' => hks k' (List.mem_cons_of_mem k hk')

theorem Lists.eq {t t' : Table κ α} (h : sh.Lists t entries)
    (h' : sh.Lists t' entries) : t = t' := by
  refine Std.ExtTreeMap.ext_getElem? fun k => Option.ext fun a => ?_
  rw [h k a, h' k a]

end

variable [LawfulJsonForm ρ]

theorem Stored.eq_of_key_eq {r r' : ρ} (h : sh.Stored entries r) (h' : sh.Stored entries r')
    (hkey : sh.key r = sh.key r') : r = r' := by
  have heq := h.2
  rw [hkey, h'.2] at heq
  exact (encode_injective (Option.some.inj heq)).symm

theorem stored_put {r r' : ρ} (hr : sh.Proper r) :
    sh.Stored (applyEntry entries (sh.entry r)) r' ↔
      r' = r ∨ sh.storeId (sh.key r) ≠ sh.storeId (sh.key r') ∧ sh.Stored entries r' := by
  unfold Stored
  rw [entry, getElem?_applyEntry]
  constructor
  · rintro ⟨hr', h⟩
    split at h
    · exact Or.inl (encode_injective (Option.some.inj h)).symm
    · next hne => exact Or.inr ⟨fun heq => hne ⟨rfl, heq⟩, hr', h⟩
  · rintro (rfl | ⟨hne, hr', h⟩)
    · exact ⟨hr, if_pos ⟨rfl, rfl⟩⟩
    · refine ⟨hr', ?_⟩
      rw [if_neg fun heq => hne heq.2]
      exact h

/-! ## Loading -/

/-- Filed records can all be read. -/
theorem Filed.records {s : Store} (h : sh.Filed s.entries) (hreads : s.readsFail = false) :
    ∃ rs, s.records ρ sh.kind = .ok rs ∧ ∀ r, r ∈ rs ↔ sh.Stored s.entries r := by
  obtain ⟨found, hscan, hfound⟩ := exists_scan_kind hreads sh.kind
  -- A found entry is read as the record that it was filed as.
  have hread : ∀ e ∈ found, ∃ r : ρ, sh.Stored s.entries r ∧ decode? e.2 = some r := by
    intro e he
    obtain ⟨id, -, hb⟩ := (hfound e).1 he
    obtain ⟨r, hr, rfl, hencode⟩ := h id e.2 hb
    exact ⟨r, ⟨hr, hencode ▸ hb⟩, hencode ▸ decode?_encode r⟩
  have hall {f : Bytes × Bytes → Except StoreError ρ}
      (hf : ∀ e r, decode? e.2 = some r → f e = .ok r) :
      ∃ rs, found.mapM f = .ok rs ∧ ∀ r, r ∈ rs ↔ sh.Stored s.entries r := by
    obtain ⟨rs, hrs⟩ := exists_mapM_eq_ok fun e he => (hread e he).imp fun r hr => hf e r hr.2
    refine ⟨rs, hrs, fun r => ?_⟩
    rw [mem_of_mapM_eq_ok hrs]
    constructor
    · rintro ⟨e, he, hr⟩
      obtain ⟨r', hstored, hdecode⟩ := hread e he
      rw [hf e r' hdecode] at hr
      exact Except.ok.inj hr ▸ hstored
    · intro hr
      exact ⟨(sh.kind.key (sh.storeId (sh.key r)), encode r), (hfound _).2 ⟨_, rfl, hr.2⟩,
        hf _ r (decode?_encode r)⟩
  unfold Store.records
  rw [hscan]
  refine hall fun e r hr => ?_
  rw [hr]

variable [Ord κ] [Std.TransOrd κ] [Std.LawfulEqOrd κ] {table : Table κ α}

theorem Mirrors.put (h : sh.Mirrors table entries) {r : ρ} (hr : sh.Proper r) :
    sh.Mirrors (table.insert (sh.key r) (sh.value r)) (applyEntry entries (sh.entry r)) := by
  refine ⟨h.filed.put hr, fun hapart k a => ?_⟩
  simp only [stored_put hr, Std.ExtTreeMap.getElem?_insert]
  split
  · next hk =>
    obtain rfl := Std.LawfulEqCmp.eq_of_compare hk
    constructor
    · intro ha
      exact ⟨r, Or.inl rfl, rfl, Option.some.inj ha⟩
    · rintro ⟨r', rfl | ⟨hne, -⟩, hkey, rfl⟩
      · rfl
      · exact absurd (congrArg sh.storeId hkey.symm) hne
  · next hk =>
    rw [h.lists hapart]
    constructor
    · rintro ⟨r', hr', rfl, rfl⟩
      have hne : sh.storeId (sh.key r) ≠ sh.storeId (sh.key r') :=
        fun heq => hk (hapart hr hr'.1 heq ▸ Std.compare_self)
      exact ⟨r', Or.inr ⟨hne, hr'⟩, rfl, rfl⟩
    · rintro ⟨r', rfl | ⟨-, hr'⟩, rfl, rfl⟩
      · exact absurd Std.compare_self hk
      · exact ⟨r', hr', rfl, rfl⟩

/-- The table that a kind is loaded as lists it. -/
theorem Filed.lists_of_records {s : Store} (h : sh.Filed s.entries) {rs : List ρ}
    (hrs : s.records ρ sh.kind = .ok rs) :
    sh.Lists (rs.foldl (fun t r => t.insert (sh.key r) (sh.value r)) ∅) s.entries := by
  obtain ⟨rs', hrs', hmem⟩ := h.records (Store.readsFail_of_records hrs)
  obtain rfl : rs' = rs := Except.ok.inj (hrs'.symm.trans hrs)
  intro k a
  have hone : ∀ r ∈ rs', ∀ r' ∈ rs', sh.key r = sh.key r' → sh.value r = sh.value r' := by
    intro r hr r' hr' hkey
    rw [((hmem r).1 hr).eq_of_key_eq ((hmem r').1 hr') hkey]
  rw [Table.getElem?_foldl_insert sh.key sh.value hone]
  simp [hmem]

/-- Whatever records are read, their table is the one that was kept. -/
theorem Mirrors.foldl_of_records {s : Store} (h : sh.Mirrors table s.entries) (hapart : sh.Apart)
    {rs : List ρ} (hrs : s.records ρ sh.kind = .ok rs) :
    rs.foldl (fun t r => t.insert (sh.key r) (sh.value r)) ∅ = table :=
  (h.filed.lists_of_records hrs).eq (h.lists hapart)

theorem Mirrors.records {s : Store} (h : sh.Mirrors table s.entries) (hapart : sh.Apart)
    (hreads : s.readsFail = false) :
    ∃ rs, s.records ρ sh.kind = .ok rs ∧
      rs.foldl (fun t r => t.insert (sh.key r) (sh.value r)) ∅ = table := by
  obtain ⟨rs, hrs, -⟩ := h.filed.records hreads
  exact ⟨rs, hrs, h.foldl_of_records hapart hrs⟩

/-! ## Batches -/

theorem Mirrors.putAll (h : sh.Mirrors table entries) (rs : List ρ)
    (hrs : ∀ r ∈ rs, sh.Proper r) :
    sh.Mirrors (rs.foldl (fun t r => t.insert (sh.key r) (sh.value r)) table)
      ((rs.map sh.entry).foldl applyEntry entries) := by
  induction rs generalizing table entries with
  | nil => exact h
  | cons r rs ih =>
    exact ih (h.put (hrs r List.mem_cons_self)) fun r' hr' => hrs r' (List.mem_cons_of_mem r hr')

end Shelf

end WaterPeg
