import WaterPeg.Proofs.Stabilizer.Unchanged

/-!
Judging and paying out twice in a row. The second time nothing is new but the count of the checks,
which no plan is made of.
-/
namespace WaterPeg

namespace Standing

/-- One more check, by which nothing else changes. -/
def recounted (i : Standing) : Standing := { i with checkCount := i.checkCount + 1 }

def uncounted (i : Standing) : Standing := { i with checkCount := 0 }

section

variable (i : Standing)

/-- The same averages once more leave a currency as stable or unstable as it was, and since the same
height. -/
theorem refresh_refresh (threshold expected observed rate height : UInt64) :
    (i.refresh threshold expected observed rate height).refresh threshold expected observed rate
        height =
      (i.refresh threshold expected observed rate height).recounted := by
  unfold refresh recounted
  dsimp only
  split
  · split
    · next hunstable => simp [hunstable]
    · simp
  · rfl

theorem isOverdue_retire (height maxGap : UInt64) : i.retire.isOverdue height maxGap = false := by
  simp [isOverdue, retire]

end

theorem judged?_some (params : StabilityParams) (c : String) (height price rate : UInt64)
    (i? : Option Standing) :
    judged? params c height (some (price, rate)) i? =
      some ((i?.getD (initial c)).refresh params.threshold (UInt64.ofNat microPerUnit) price rate
        height) := rfl

/-- A currency that is judged again by the same averages has them counted again, if there are any. -/
theorem judged?_judged? (params : StabilityParams) (c : String) (height : UInt64)
    (averages : Option (UInt64 × UInt64)) (i? : Option Standing) :
    judged? params c height averages (judged? params c height averages i?) =
      (judged? params c height averages i?).map fun i =>
        if averages.isSome then i.recounted else i := by
  match averages, i? with
  | some (price, rate), i? =>
    rw [judged?_some, judged?_some, Option.getD_some, refresh_refresh, Option.map_some,
      Option.isSome_some, if_pos rfl]
  | none, none => rfl
  | none, some i =>
    unfold judged?
    simp only [Option.map_some, Option.isSome_none, Bool.false_eq_true, if_false]
    cases hdue : Currency.isPegged c && i.isOverdue height params.inactiveBlocks with
    | false => simp only [Bool.false_eq_true, if_false, hdue]
    | true => simp only [if_true, isOverdue_retire, Bool.and_false, Bool.false_eq_true, if_false]

end Standing

namespace Stabilizer

def recount (s : Stabilizer) (checked : String → Bool) : Stabilizer :=
  { s with standings := s.standings.map fun c i => if checked c then i.recounted else i }

def uncounted (s : Stabilizer) : Stabilizer :=
  { s with standings := s.standings.map fun _ i => i.uncounted }

theorem standings_recount (s : Stabilizer) (checked : String → Bool) (c : String) :
    (s.recount checked).standings[c]? = s.standings[c]?.map fun i =>
      if checked c then i.recounted else i := by
  simp only [recount, Std.ExtTreeMap.getElem?_map]

theorem standings_uncounted (s : Stabilizer) (c : String) :
    s.uncounted.standings[c]? = s.standings[c]?.map Standing.uncounted := by
  simp only [uncounted, Std.ExtTreeMap.getElem?_map]

@[simp] theorem uncounted_recount (s : Stabilizer) (checked : String → Bool) :
    (s.recount checked).uncounted = s.uncounted := by
  have hstandings : (s.recount checked).uncounted.standings = s.uncounted.standings := by
    refine Std.ExtTreeMap.ext_getElem? fun c => ?_
    rw [standings_uncounted, standings_uncounted, standings_recount, Option.map_map]
    congr 1
    funext i
    simp only [Function.comp_apply]
    split <;> rfl
  exact congrArg (fun standings => { s with standings }) hstandings

/-! ## Plans -/

theorem withStatus_uncounted (s : Stabilizer) (status : Stability) :
    s.uncounted.withStatus status = s.withStatus status := by
  unfold withStatus uncounted
  dsimp only
  rw [Table.values_eq_map_snd, Table.values_eq_map_snd, Std.ExtTreeMap.toList_map, List.map_map,
    List.filter_map, List.filter_map, List.map_map, List.map_map]
  rfl

theorem coinsFor_uncounted (s : Stabilizer) (currency : String) (block : Block) :
    s.uncounted.coinsFor currency block = s.coinsFor currency block := by
  unfold coinsFor
  rw [standings_uncounted]
  cases s.standings[currency]? <;> rfl

theorem ratio_standing_uncounted (s : Stabilizer) (currency : String) :
    (s.uncounted.standing currency).ratio = (s.standing currency).ratio := by
  unfold standing
  rw [standings_uncounted]
  cases s.standings[currency]? <;> rfl

theorem payout?_uncounted (s : Stabilizer) (block : Block) (currency : String) :
    s.uncounted.payout? block currency = s.payout? block currency := by
  unfold payout? recipients stableCurrencies
  rw [coinsFor_uncounted, withStatus_uncounted, ratio_standing_uncounted]
  rfl

theorem plan_uncounted (s : Stabilizer) (block : Block) :
    s.uncounted.plan block = s.plan block := by
  have hpayouts : s.uncounted.payout? block = s.payout? block := funext (s.payout?_uncounted block)
  unfold plan unstableCurrencies
  rw [withStatus_uncounted, hpayouts]

/-- What is paid out does not depend on the counts of the checks. -/
theorem plan_recount (s : Stabilizer) (checked : String → Bool) (block : Block) :
    (s.recount checked).plan block = s.plan block := by
  rw [← plan_uncounted, uncounted_recount, plan_uncounted]

/-- Records do not change what is paid out. -/
theorem plan_foldl_record (s : Stabilizer) (payouts : List Payout) (block : Block) :
    (payouts.foldl record s).plan block = s.plan block := by
  rw [foldl_record_eq]
  rfl

/-! ## Judging and paying out again -/

section

variable {s s' : Stabilizer} {feed : PriceFeed} {height now : UInt64}

/-- Judged again by the same feed, the same currencies have fresh averages, and only those are
counted once more. Records of payouts may have come in between. -/
theorem reEvaluate_again (hs : s.Keyed) (hparams : s'.params = s.params)
    (hstandings : s'.standings = (s.reEvaluate height now feed).2.standings) :
    s'.reEvaluate height now feed = ((s.reEvaluate height now feed).1,
      s'.recount fun c => (s.averages? feed now c).isSome) := by
  have hs' : s'.Keyed := (hs.reEvaluate feed height now).congr hstandings
  have haverages : s'.averages? feed now = s.averages? feed now := by
    unfold averages?
    rw [hparams]
  have htracked (c : String) : (s'.standings[c]?).isSome ∨ c ∈ feed.currencies ↔
      (s.standings[c]?).isSome ∨ c ∈ feed.currencies := by
    rw [hstandings, standings_reEvaluate feed height now hs]
    constructor
    · rintro (hsome | hfeed)
      · split at hsome
        · assumption
        · exact nomatch hsome
      · exact Or.inr hfeed
    · rintro (hsome | hfeed)
      · left
        rw [if_pos (Or.inl hsome)]
        unfold Standing.judged?
        split
        · rfl
        · rwa [Option.isSome_map]
      · exact Or.inr hfeed
  refine Prod.ext ?_ ?_
  · have hjudged : s'.judged feed = s.judged feed := by
      refine toList_insertMany_eq_of_mem_iff fun c => ?_
      have h := htracked c
      rwa [← mem_judged, ← mem_judged, judged, judged, mem_toList_insertMany,
        mem_toList_insertMany] at h
    unfold reEvaluate
    dsimp only
    rw [hjudged, haverages]
  · have hagain : (s'.reEvaluate height now feed).2.standings =
        (s'.recount fun c => (s.averages? feed now c).isSome).standings := by
      refine Std.ExtTreeMap.ext_getElem? fun c => ?_
      rw [standings_reEvaluate feed height now hs', standings_recount, hparams, haverages]
      by_cases hc : (s.standings[c]?).isSome ∨ c ∈ feed.currencies
      · rw [if_pos ((htracked c).2 hc), hstandings, standings_reEvaluate feed height now hs,
          if_pos hc]
        exact Standing.judged?_judged? ..
      · have hnone : s'.standings[c]? = none := by
          rw [hstandings, standings_reEvaluate feed height now hs, if_neg hc]
        rw [if_neg (mt (htracked c).1 hc), hnone]
        rfl
    rw [reEvaluate_eq, hagain]
    rfl

/-- A plan of which all is recorded is paid out again without a change. -/
theorem create_recount (checked : String → Bool) {block : Block} {payouts : List Payout}
    (hplan : s.plan block = .ok payouts) (hknown : ∀ p ∈ payouts, p.id ∈ s.history) :
    (s.recount checked).create block = .ok (payouts, s.recount checked) := by
  have hsame : payouts.foldl record (s.recount checked) = s.recount checked :=
    foldl_record_eq_self_iff.2 hknown
  exact create_eq_ok_iff.2 ⟨(plan_recount ..).trans hplan, hsame.symm⟩

/-- After a judgement and its payouts, the same judgement makes the same plan, of which all is
recorded. -/
theorem settled_again (hs : s.Keyed) {block : Block}
    (hsettled : s' = (s.reEvaluate height now feed).2.perform (.create block)) :
    s'.reEvaluate height now feed = ((s.reEvaluate height now feed).1,
        s'.recount fun c => (s.averages? feed now c).isSome) ∧
      (s'.recount fun c => (s.averages? feed now c).isSome).create block =
        ((s.reEvaluate height now feed).2.plan block).map fun payouts =>
          (payouts, s'.recount fun c => (s.averages? feed now c).isSome) := by
  have hparams : s'.params = s.params := by
    rw [hsettled, (perform_params_directory _ _).1, reEvaluate_eq]
  have hstandings : s'.standings = (s.reEvaluate height now feed).2.standings := by
    rw [hsettled, standings_perform_create]
  refine ⟨reEvaluate_again hs hparams hstandings, ?_⟩
  cases hplan : (s.reEvaluate height now feed).2.plan block with
  | error e =>
    have hjudged : s' = (s.reEvaluate height now feed).2 := by
      rw [hsettled, perform, create_eq_error_iff.2 hplan]
    rw [← hjudged] at hplan
    rw [create_eq_error_iff.2 ((plan_recount ..).trans hplan)]
    rfl
  | ok payouts =>
    have hrecorded : s' = payouts.foldl record (s.reEvaluate height now feed).2 := by
      rw [hsettled, perform, create_eq_ok_iff.2 ⟨hplan, rfl⟩]
    have hplan' : s'.plan block = .ok payouts := by rw [hrecorded, plan_foldl_record, hplan]
    have hknown : ∀ p ∈ payouts, p.id ∈ s'.history := by
      intro p hp
      rw [hrecorded, mem_history_foldl_record]
      exact Or.inr (List.mem_map_of_mem hp)
    exact create_recount _ hplan' hknown

end

end Stabilizer

end WaterPeg
