import WaterPeg.Proofs.Tables
import WaterPeg.Stabilizer.History
import WaterPeg.Stabilizer.Payouts

/-!
What the operations of the stabilizer do to the standing of one currency. Each operation has one
lemma that gives the standing after it from the one before; nothing else unfolds the operation.
-/
namespace WaterPeg

namespace Standing

@[simp] theorem currency_retire (i : Standing) : i.retire.currency = i.currency := rfl

section

variable (i : Standing) (threshold expected observed rate height : UInt64)

@[simp] theorem currency_refresh :
    (i.refresh threshold expected observed rate height).currency = i.currency := by
  simp only [refresh, apply_ite Standing.currency, ite_self]

@[simp] theorem lastCheck_refresh :
    (i.refresh threshold expected observed rate height).lastCheck = height := by
  simp only [refresh, apply_ite Standing.lastCheck, ite_self]

@[simp] theorem checkCount_refresh :
    (i.refresh threshold expected observed rate height).checkCount = i.checkCount + 1 := by
  simp only [refresh, apply_ite Standing.checkCount, ite_self]

theorem status_refresh :
    (i.refresh threshold expected observed rate height).status =
      if threshold < Stability.ratio expected observed then .unstable else .stable := by
  unfold refresh
  dsimp only
  split
  · split
    · assumption
    · rfl
  · rfl

theorem unstableSince_refresh :
    (i.refresh threshold expected observed rate height).unstableSince =
      if threshold < Stability.ratio expected observed then
        if i.status = .unstable then i.unstableSince else some height
      else none := by
  unfold refresh
  dsimp only
  split
  · split <;> rfl
  · rfl

end

theorem hasPersisted_iff {i : Standing} {height minBlocks : UInt64} :
    i.hasPersisted height minBlocks ↔
      i.status = .unstable ∧ ∃ since, i.unstableSince = some since ∧
        minBlocks.toNat ≤ height.toNat - since.toNat := by
  unfold hasPersisted
  cases i.status <;> cases i.unstableSince <;> simp

/-- The standing of a currency after it was judged: renewed if the feed had both averages, else
retired if it was due, else the same. -/
def judged? (params : StabilityParams) (currency : String) (height : UInt64)
    (averages : Option (UInt64 × UInt64)) (i : Option Standing) : Option Standing :=
  match averages with
  | some (price, rate) =>
    some ((i.getD (initial currency)).refresh params.threshold (UInt64.ofNat microPerUnit) price rate
      height)
  | none =>
    i.map fun i =>
      if Currency.isPegged currency && i.isOverdue height params.inactiveBlocks then i.retire else i

end Standing

namespace Stabilizer

def Keyed (s : Stabilizer) : Prop :=
  ∀ (c : String) (i : Standing), s.standings[c]? = some i → i.currency = c

/-! ## Single standings -/

theorem currency_standing {s : Stabilizer} (hs : s.Keyed) (c : String) :
    (s.standing c).currency = c := by
  unfold standing
  cases h : s.standings[c]? with
  | none => rfl
  | some i => exact hs c i h

theorem standings_put (s : Stabilizer) (i : Standing) (c : String) :
    (s.put i).standings[c]? = if i.currency = c then some i else s.standings[c]? := by
  simp only [put, Std.ExtTreeMap.getElem?_insert, Std.LawfulEqCmp.compare_eq_iff_eq]

theorem Keyed.put {s : Stabilizer} (hs : s.Keyed) (i : Standing) : (s.put i).Keyed := by
  intro c j hj
  rw [standings_put] at hj
  split at hj
  · next h => exact Option.some.inj hj ▸ h
  · exact hs c j hj

theorem standings_update {s : Stabilizer} (hs : s.Keyed)
    (currency : String) (expected observed rate height : UInt64) (c : String) :
    (s.update currency expected observed rate height).standings[c]? =
      if currency = c then
        some ((s.standing c).refresh s.params.threshold expected observed rate height)
      else s.standings[c]? := by
  unfold update
  rw [standings_put, Standing.currency_refresh, currency_standing hs]
  split
  · next h => rw [h]
  · rfl

theorem standings_markInactive {s : Stabilizer} (hs : s.Keyed) (currency : String)
    (height : UInt64) (c : String) :
    (s.markInactive currency height).standings[c]? =
      if currency = c then some { (s.standing c).retire with lastCheck := height }
      else s.standings[c]? := by
  unfold markInactive
  rw [standings_put]
  change (if (s.standing currency).currency = c then _ else _) = _
  rw [currency_standing hs]
  split
  · next h => rw [h]
  · rfl

theorem standings_refreshInactive (s : Stabilizer) (height : UInt64) (c : String) :
    (s.refreshInactive height).standings[c]? = s.standings[c]?.map fun i =>
      if i.isOverdue height s.params.inactiveBlocks then i.retire else i := by
  simp only [refreshInactive, Std.ExtTreeMap.getElem?_map]

/-! ## Judging -/

theorem Keyed.judge {s : Stabilizer} (hs : s.Keyed) (feed : PriceFeed) (height now : UInt64)
    (c : String) : (judge feed height now s c).Keyed := by
  unfold Stabilizer.judge
  split
  · exact hs.put _
  · split
    · split
      · exact hs.put _
      · exact hs
    · exact hs

/-- Judging touches the standings alone. -/
theorem judge_eq (feed : PriceFeed) (height now : UInt64) (s : Stabilizer) (c : String) :
    judge feed height now s c =
      { s with standings := (judge feed height now s c).standings } := by
  unfold judge
  split
  · rfl
  · split
    · split <;> rfl
    · rfl

theorem standings_judge {s : Stabilizer} (hs : s.Keyed) (feed : PriceFeed) (height now : UInt64)
    (currency c : String) :
    (judge feed height now s currency).standings[c]? =
      if currency = c then
        Standing.judged? s.params c height (s.averages? feed now c) s.standings[c]?
      else s.standings[c]? := by
  by_cases hc : currency = c
  · subst hc
    rw [if_pos rfl]
    unfold judge Standing.judged?
    cases s.averages? feed now currency with
    | some averages => exact (standings_update hs ..).trans (if_pos rfl)
    | none =>
      cases hi : s.standings[currency]? with
      | none => exact hi
      | some i =>
        simp only [Option.map_some]
        split
        · rw [standings_put, Standing.currency_retire, hs currency i hi, if_pos rfl]
        · exact hi
  · rw [if_neg hc]
    unfold judge
    split
    · rw [standings_update hs, if_neg hc]
    · split
      · next i hi =>
        split
        · rw [standings_put, Standing.currency_retire, hs currency i hi, if_neg hc]
        · rfl
      · rfl

variable (feed : PriceFeed) (height now : UInt64)

theorem foldl_judge_eq (s : Stabilizer) (cs : List String) :
    cs.foldl (judge feed height now) s =
      { s with standings := (cs.foldl (judge feed height now) s).standings } := by
  induction cs generalizing s with
  | nil => rfl
  | cons c cs ih =>
    rw [List.foldl_cons, ih, judge_eq]

theorem Keyed.foldl_judge {s : Stabilizer} (hs : s.Keyed) (cs : List String) :
    (cs.foldl (Stabilizer.judge feed height now) s).Keyed := by
  induction cs generalizing s with
  | nil => exact hs
  | cons c cs ih => exact ih (hs.judge feed height now c)

theorem standings_foldl_judge {s : Stabilizer} (hs : s.Keyed) {cs : List String} (hcs : cs.Nodup)
    (c : String) :
    (cs.foldl (judge feed height now) s).standings[c]? =
      if c ∈ cs then Standing.judged? s.params c height (s.averages? feed now c) s.standings[c]?
      else s.standings[c]? := by
  induction cs generalizing s with
  | nil => simp
  | cons d cs ih =>
    obtain ⟨hd, hcs⟩ := List.nodup_cons.1 hcs
    -- The others are still judged by the same averages and parameters.
    have haverages : (judge feed height now s d).averages? = s.averages? := by
      rw [judge_eq]; rfl
    have hparams : (judge feed height now s d).params = s.params := by
      rw [judge_eq]
    rw [List.foldl_cons, ih (hs.judge feed height now d) hcs, standings_judge hs, haverages, hparams]
    by_cases hc : d = c
    · subst hc
      simp [hd]
    · simp [hc, Ne.symm hc]

theorem mem_judged (s : Stabilizer) {c : String} :
    c ∈ s.judged feed ↔ (s.standings[c]?).isSome ∨ c ∈ feed.currencies := by
  unfold judged
  rw [mem_toList_insertMany, List.mem_append, Std.ExtTreeMap.mem_keys,
    Std.ExtTreeMap.mem_iff_isSome_getElem?]

/-- Each currency is judged once, by the feed and by its own standing. -/
theorem standings_reEvaluate {s : Stabilizer} (hs : s.Keyed) (c : String) :
    (s.reEvaluate height now feed).2.standings[c]? =
      if (s.standings[c]?).isSome ∨ c ∈ feed.currencies then
        Standing.judged? s.params c height (s.averages? feed now c) s.standings[c]?
      else none := by
  change ((s.judged feed).foldl (judge feed height now) s).standings[c]? = _
  have hnodup : (s.judged feed).Nodup := nodup_toList _
  rw [standings_foldl_judge feed height now hs hnodup]
  simp only [mem_judged]
  split
  · rfl
  · next h => simpa using mt Or.inl h

/-- Judging all currencies touches the standings alone. -/
theorem reEvaluate_eq (s : Stabilizer) :
    (s.reEvaluate height now feed).2 =
      { s with standings := (s.reEvaluate height now feed).2.standings } :=
  foldl_judge_eq feed height now s _

theorem Keyed.reEvaluate {s : Stabilizer} (hs : s.Keyed) :
    (s.reEvaluate height now feed).2.Keyed :=
  hs.foldl_judge feed height now _

end Stabilizer

end WaterPeg
