import WaterPeg.Proofs.Peg.Dependence
import WaterPeg.Proofs.Stabilizer.Recounts

/-!
The peg without the counts of its checks, in memory and in the store. A view under which batches may
be applied twice, and checkpoints look alike whatever they counted.
-/
namespace WaterPeg

namespace Store

/-! ## Batches applied again -/

/-- A batch leaves the same under a key whatever was there, or leaves what was there. -/
theorem getElem?_foldl_applyEntry_cases (batch : Batch) (key : Bytes) :
    (∃ value : Option Bytes, ∀ entries, (batch.foldl applyEntry entries)[key]? = value) ∨
      ∀ entries, (batch.foldl applyEntry entries)[key]? = entries[key]? := by
  induction batch with
  | nil => exact Or.inr fun _ => rfl
  | cons e batch ih =>
    rcases ih with ⟨value, h⟩ | h
    · exact Or.inl ⟨value, fun entries => h _⟩
    by_cases hkey : e.1 = key
    · refine Or.inl ⟨e.2, fun entries => (h _).trans ?_⟩
      obtain ⟨k, value⟩ := e
      obtain rfl : k = key := hkey
      cases value with
      | none => exact Std.ExtTreeMap.getElem?_erase_self
      | some v => exact Std.ExtTreeMap.getElem?_insert_self
    · refine Or.inr fun entries => (h _).trans ?_
      obtain ⟨k, value⟩ := e
      have hne : ¬ compare k key = .eq := fun heq => hkey (Std.LawfulEqCmp.eq_of_compare heq)
      cases value with
      | none => exact Std.ExtTreeMap.getElem?_erase.trans (if_neg hne)
      | some v => exact Std.ExtTreeMap.getElem?_insert.trans (if_neg hne)

theorem foldl_applyEntry_foldl_applyEntry (batch : Batch) (entries : Table Bytes Bytes) :
    batch.foldl applyEntry (batch.foldl applyEntry entries) = batch.foldl applyEntry entries := by
  refine Std.ExtTreeMap.ext_getElem? fun key => ?_
  rcases getElem?_foldl_applyEntry_cases batch key with ⟨value, h⟩ | h
  · rw [h, h]
  · rw [h]

/-! ## Stored standings -/

/-- A stored standing without the count of its checks. All other bytes stay as they are. -/
def uncountedValue (key value : Bytes) : Bytes :=
  if key.head? = some RecordKind.standing.tag then
    match (decode? value : Option Standing) with
    | some i => if encode i = value then encode i.uncounted else value
    | none => value
  else value

theorem uncountedValue_encode (id : Bytes) (i : Standing) :
    uncountedValue (RecordKind.standing.key id) (encode i) = encode i.uncounted := by
  have hhead : (RecordKind.standing.key id).head? = some RecordKind.standing.tag := rfl
  unfold uncountedValue
  rw [if_pos hhead, decode?_encode]
  exact if_pos rfl

theorem uncountedValue_of_kind_ne {kind : RecordKind} (h : kind ≠ .standing) (id value : Bytes) :
    uncountedValue (kind.key id) value = value := by
  refine if_neg fun hhead => h ?_
  exact RecordKind.tag_injective (Option.some.inj hhead)

/-- Either these bytes stay as they are, or they are those of a standing. -/
theorem uncountedValue_cases (key value : Bytes) :
    uncountedValue key value = value ∨ ∃ (id : Bytes) (i : Standing),
      key = RecordKind.standing.key id ∧ value = encode i ∧
        uncountedValue key value = encode i.uncounted := by
  unfold uncountedValue
  split
  · next hhead =>
    obtain ⟨id, rfl⟩ := List.head?_eq_some_iff.1 hhead
    split
    · next i hi =>
      split
      · next hvalue => exact Or.inr ⟨id, i, rfl, hvalue.symm, rfl⟩
      · exact Or.inl rfl
    · exact Or.inl rfl
  · exact Or.inl rfl

/-- Under one key, bytes that look alike without counts are the same, or are those of two standings
that differ in their counts. -/
theorem eq_or_of_uncountedValue_eq {key value value' : Bytes}
    (h : uncountedValue key value = uncountedValue key value') :
    value = value' ∨ ∃ (id : Bytes) (i i' : Standing), key = RecordKind.standing.key id ∧
      value = encode i ∧ value' = encode i' ∧ i.uncounted = i'.uncounted := by
  have hfixed (i : Standing) (id : Bytes) :
      uncountedValue (RecordKind.standing.key id) (encode i.uncounted) = encode i.uncounted :=
    uncountedValue_encode id i.uncounted
  rcases uncountedValue_cases key value with hsame | ⟨id, i, rfl, rfl, hi⟩
  · rcases uncountedValue_cases key value' with hsame' | ⟨id, i', rfl, rfl, hi'⟩
    · exact Or.inl (hsame.symm.trans (h.trans hsame'))
    · refine Or.inr ⟨id, i'.uncounted, i', rfl, ?_, rfl, rfl⟩
      exact hsame.symm.trans (h.trans hi')
  · rcases uncountedValue_cases (RecordKind.standing.key id) value' with
      hsame' | ⟨id', i', hkey, rfl, hi'⟩
    · refine Or.inr ⟨id, i, i.uncounted, rfl, rfl, ?_, rfl⟩
      exact hsame'.symm.trans (h.symm.trans hi)
    · exact Or.inr ⟨id, i, i', rfl, rfl, rfl, encode_injective (hi.symm.trans (h.trans hi'))⟩

def uncounted (entries : Table Bytes Bytes) : Table Bytes Bytes := entries.map uncountedValue

def uncountedEntry (e : Bytes × Option Bytes) : Bytes × Option Bytes :=
  (e.1, e.2.map (uncountedValue e.1))

theorem getElem?_uncounted (entries : Table Bytes Bytes) (key : Bytes) :
    (uncounted entries)[key]? = entries[key]?.map (uncountedValue key) :=
  Std.ExtTreeMap.getElem?_map

theorem uncounted_applyEntry (entries : Table Bytes Bytes) (e : Bytes × Option Bytes) :
    uncounted (applyEntry entries e) = applyEntry (uncounted entries) (uncountedEntry e) := by
  obtain ⟨k, value⟩ := e
  refine Std.ExtTreeMap.ext_getElem? fun key => ?_
  rw [getElem?_uncounted]
  cases value with
  | none =>
    change (entries.erase k)[key]?.map _ = ((uncounted entries).erase k)[key]?
    rw [Std.ExtTreeMap.getElem?_erase, Std.ExtTreeMap.getElem?_erase, getElem?_uncounted]
    split <;> rfl
  | some v =>
    change (entries.insert k v)[key]?.map _ =
      ((uncounted entries).insert k (uncountedValue k v))[key]?
    rw [Std.ExtTreeMap.getElem?_insert, Std.ExtTreeMap.getElem?_insert, getElem?_uncounted]
    split
    · next hkey =>
      obtain rfl := Std.LawfulEqCmp.eq_of_compare hkey
      rfl
    · rfl

theorem uncounted_foldl_applyEntry (batch : Batch) (entries : Table Bytes Bytes) :
    uncounted (batch.foldl applyEntry entries) =
      (batch.map uncountedEntry).foldl applyEntry (uncounted entries) := by
  induction batch generalizing entries with
  | nil => rfl
  | cons e batch ih => rw [List.foldl_cons, ih, uncounted_applyEntry, List.map_cons, List.foldl_cons]

end Store

namespace Peg

/-- A checkpoint without counts is one of a stabilizer without counts. -/
theorem map_uncountedEntry_checkpoint (s : Stabilizer) (payouts : List Payout) :
    (checkpoint s payouts).map Store.uncountedEntry = checkpoint s.uncounted payouts := by
  have hpayouts : (payouts.map fun x =>
      (RecordKind.payout.key x.id.bytes, some (encode x.record))).map Store.uncountedEntry =
      payouts.map fun x => (RecordKind.payout.key x.id.bytes, some (encode x.record)) := by
    rw [List.map_map]
    refine List.map_congr_left fun x _ => ?_
    exact congrArg (Prod.mk _ <| some ·) (Store.uncountedValue_of_kind_ne (by decide) _ _)
  unfold checkpoint
  rw [List.map_append, List.map_append, hpayouts, Stabilizer.uncounted, Std.ExtTreeMap.toList_map,
    List.map_map, List.map_map]
  refine congrArg (· ++ _ ++ _) (List.map_congr_left fun e _ => ?_)
  exact congrArg (Prod.mk _ <| some ·) (Store.uncountedValue_encode _ e.2)

def keeping (p : Peg) (s : Stabilizer) (entries : Table Bytes Bytes) : Peg :=
  { p with
    oracle := { p.oracle with store := { p.oracle.store with entries } }
    stabilizer := s }

def saved (p : Peg) (s : Stabilizer) (payouts : List Payout) : Table Bytes Bytes :=
  (checkpoint s payouts).foldl Store.applyEntry p.oracle.store.entries

/-- The peg without the counts of the checks, neither in memory nor in the store. -/
def uncounted (p : Peg) : Peg :=
  p.keeping p.stabilizer.uncounted (Store.uncounted p.oracle.store.entries)

theorem uncounted_keeping (p : Peg) (s : Stabilizer) (entries : Table Bytes Bytes) :
    (p.keeping s entries).uncounted = p.keeping s.uncounted (Store.uncounted entries) := rfl

theorem uncounted_saved (p : Peg) (s : Stabilizer) (payouts : List Payout) :
    Store.uncounted (p.saved s payouts) =
      (checkpoint s.uncounted payouts).foldl Store.applyEntry
        (Store.uncounted p.oracle.store.entries) := by
  unfold saved
  rw [Store.uncounted_foldl_applyEntry, map_uncountedEntry_checkpoint]

/-- Checkpoints that differ in counts alone look like one of them. -/
theorem uncounted_saved_keeping (p : Peg) {s s' : Stabilizer} (h : s'.uncounted = s.uncounted)
    (payouts : List Payout) (t : Stabilizer) :
    Store.uncounted ((p.keeping t (p.saved s payouts)).saved s' payouts) =
      Store.uncounted (p.saved s payouts) := by
  have hagain : Store.uncounted ((p.keeping t (p.saved s payouts)).saved s' payouts) =
      (checkpoint s'.uncounted payouts).foldl Store.applyEntry
        (Store.uncounted (p.saved s payouts)) :=
    (p.keeping t (p.saved s payouts)).uncounted_saved s' payouts
  rw [hagain, h, uncounted_saved, Store.foldl_applyEntry_foldl_applyEntry]

end Peg

end WaterPeg
