import WaterPeg.Proofs.Stabilizer.Runs

/-! When judging, recording and pruning leave the stabilizer as it was. -/
namespace WaterPeg

namespace Standing

/-- Fresh averages are counted, so they always show. -/
theorem refresh_ne_self (i : Standing) (threshold expected observed rate height : UInt64) :
    i.refresh threshold expected observed rate height ≠ i := by
  intro h
  have hcount : i.checkCount + 1 = i.checkCount := by
    rw [← checkCount_refresh i threshold expected observed rate height, h]
  have hone : (1 : UInt64) = 0 := by
    rw [← UInt64.add_sub_cancel 1 i.checkCount, UInt64.add_comm, hcount, UInt64.sub_self]
  exact absurd hone (by decide)

theorem retire_ne_self_of_isOverdue {i : Standing} {height maxGap : UInt64}
    (h : i.isOverdue height maxGap) : i.retire ≠ i := by
  intro hretire
  have hinactive : i.status = .inactive := by
    rw [← hretire]
    rfl
  simp [isOverdue, hinactive] at h

/-- A judged standing is the same as before exactly if it was neither renewed nor retired. -/
theorem judged?_eq_self_iff {params : StabilityParams} {c : String} {height : UInt64}
    {averages : Option (UInt64 × UInt64)} {i? : Option Standing} :
    judged? params c height averages i? = i? ↔
      averages = none ∧
        ∀ i ∈ i?, Currency.isPegged c → ¬ i.isOverdue height params.inactiveBlocks := by
  cases averages with
  | some average =>
    cases i? with
    | none => simp [judged?]
    | some i => simp [judged?, refresh_ne_self]
  | none =>
    cases i? with
    | none => simp [judged?]
    | some i =>
      cases hdue : i.isOverdue height params.inactiveBlocks with
      | false => simp [judged?, hdue]
      | true => simp [judged?, hdue, retire_ne_self_of_isOverdue hdue]

end Standing

namespace Stabilizer

variable {s : Stabilizer}

/-- There is nothing to judge: no currency has both averages, and no pegged one is overdue. -/
def Quiet (s : Stabilizer) (height now : UInt64) (feed : PriceFeed) : Prop :=
  ∀ c, (s.standings[c]?).isSome ∨ c ∈ feed.currencies →
    s.averages? feed now c = none ∧
      ∀ i ∈ s.standings[c]?, Currency.isPegged c → ¬ i.isOverdue height s.params.inactiveBlocks

theorem standings_reEvaluate_eq_self_iff (hs : s.Keyed) {height now : UInt64} {feed : PriceFeed} :
    (s.reEvaluate height now feed).2.standings = s.standings ↔ s.Quiet height now feed := by
  constructor
  · intro h c hc
    have hjudged := standings_reEvaluate feed height now hs c
    rw [h, if_pos hc] at hjudged
    exact Standing.judged?_eq_self_iff.1 hjudged.symm
  · intro hquiet
    refine Std.ExtTreeMap.ext_getElem? fun c => ?_
    rw [standings_reEvaluate feed height now hs]
    split
    · next hc => exact Standing.judged?_eq_self_iff.2 (hquiet c hc)
    · next hc => simpa using (mt Or.inl hc)

/-! ## Records -/

theorem record_of_mem {p : Payout} (h : p.id ∈ s.history) : s.record p = s := by
  unfold record
  exact if_pos h

theorem mem_history_record (s : Stabilizer) (p : Payout) (id : Digest) :
    id ∈ (s.record p).history ↔ id ∈ s.history ∨ id = p.id := by
  unfold record
  split
  · next h =>
    constructor
    · exact Or.inl
    · rintro (hid | rfl)
      · exact hid
      · exact h
  · rw [Std.ExtTreeMap.mem_insert, Std.LawfulEqCmp.compare_eq_iff_eq, or_comm, eq_comm]

theorem mem_history_foldl_record (s : Stabilizer) (payouts : List Payout) (id : Digest) :
    id ∈ (payouts.foldl record s).history ↔ id ∈ s.history ∨ id ∈ payouts.map Payout.id := by
  induction payouts generalizing s with
  | nil => simp
  | cons p payouts ih =>
    rw [List.foldl_cons, ih, mem_history_record, List.map_cons, List.mem_cons, or_assoc]

theorem getElem?_history_foldl_record {payouts : List Payout} {id : Digest}
    (h : ∀ p ∈ payouts, p.id ≠ id) :
    (payouts.foldl record s).history[id]? = s.history[id]? := by
  induction payouts generalizing s with
  | nil => rfl
  | cons p payouts ih =>
    rw [List.foldl_cons, ih fun q hq => h q (List.mem_cons_of_mem p hq)]
    unfold record
    split
    · rfl
    · have hne : ¬ compare p.id id = .eq :=
        fun heq => h p List.mem_cons_self (Std.LawfulEqCmp.eq_of_compare heq)
      rw [Std.ExtTreeMap.getElem?_insert, if_neg hne]

/-- Recording changes nothing exactly if all is recorded already. -/
theorem foldl_record_eq_self_iff {payouts : List Payout} :
    payouts.foldl record s = s ↔ ∀ p ∈ payouts, p.id ∈ s.history := by
  constructor
  · intro h p hp
    rw [← h, mem_history_foldl_record]
    exact Or.inr (List.mem_map_of_mem hp)
  · intro h
    induction payouts with
    | nil => rfl
    | cons p payouts ih =>
      rw [List.foldl_cons, record_of_mem (h p List.mem_cons_self)]
      exact ih fun q hq => h q (List.mem_cons_of_mem p hq)

theorem getElem?_history_prune (s : Stabilizer) (height : UInt64) (id : Digest) :
    (s.prune height).2.history[id]? =
      s.history[id]?.filter fun r => height ≤ r.blockHeight := by
  simp only [prune, Std.ExtTreeMap.getElem?_filter']

/-- To take out the records from below a height, one by one, is to prune the history. -/
theorem foldl_erase_history {records : List PayoutRecord}
    (hrecords : ∀ (id : Digest) r, s.history[id]? = some r ↔ r ∈ records ∧ r.id = id)
    (height : UInt64) :
    ((records.filter fun r => r.blockHeight < height).map PayoutRecord.id).foldl
      (fun t k => t.erase k) s.history = (s.prune height).2.history := by
  refine Std.ExtTreeMap.ext_getElem? fun id => ?_
  have hmem : id ∈ (records.filter fun r => r.blockHeight < height).map PayoutRecord.id ↔
      ∃ r, s.history[id]? = some r ∧ r.blockHeight < height := by
    simp only [List.mem_map, List.mem_filter, hrecords, decide_eq_true_eq]
    constructor
    · rintro ⟨r, ⟨hr, hlow⟩, hid⟩
      exact ⟨r, ⟨hr, hid⟩, hlow⟩
    · rintro ⟨r, ⟨hr, hid⟩, hlow⟩
      exact ⟨r, ⟨hr, hlow⟩, hid⟩
  rw [getElem?_history_prune]
  rcases Table.getElem?_foldl_erase s.history _ id with ⟨hget, hid⟩ | ⟨hget, hid⟩
  · obtain ⟨r, hr, hlow⟩ := hmem.1 hid
    rw [hget, hr, Option.filter_some, if_neg (by simpa using hlow)]
  · rw [hget]
    cases hr : s.history[id]? with
    | none => rfl
    | some r =>
      have hhigh : height ≤ r.blockHeight :=
        UInt64.not_lt.1 fun hlow => hid (hmem.2 ⟨r, hr, hlow⟩)
      rw [Option.filter_some, if_pos (by simpa using hhigh)]

theorem prune_eq_self_iff {height : UInt64} :
    (s.prune height).2 = s ↔
      ∀ (id : Digest) (r : PayoutRecord), s.history[id]? = some r → height ≤ r.blockHeight := by
  constructor
  · intro h id r hr
    have hfilter := getElem?_history_prune s height id
    rw [h, hr] at hfilter
    by_cases hle : height ≤ r.blockHeight
    · exact hle
    · rw [Option.filter_some, if_neg (by simpa using hle)] at hfilter
      exact nomatch hfilter
  · intro h
    have hhistory : (s.prune height).2.history = s.history := by
      refine Std.ExtTreeMap.ext_getElem? fun id => ?_
      rw [getElem?_history_prune]
      cases hr : s.history[id]? with
      | none => rfl
      | some r => simp [h id r hr]
    change { s with history := (s.prune height).2.history } = s
    rw [hhistory]

end Stabilizer

end WaterPeg
