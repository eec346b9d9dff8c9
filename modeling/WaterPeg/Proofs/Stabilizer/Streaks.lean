import WaterPeg.Proofs.Stabilizer.Plan

/-!
How long a currency has been unstable, read off a run. A run leaves each currency a chronicle of
events; the stored standing of the currency says of the chronicle whether it ends in a streak of
updates off the peg, and where that streak began.
-/
namespace WaterPeg.Stabilizer

inductive Event
  /-- Fresh averages came in at a height, this far off the peg. -/
  | refreshed (ratio height : UInt64)
  | retired
deriving DecidableEq

/-- Fresh averages further off the peg than the threshold. -/
def Event.isOff (threshold : UInt64) : Event → Bool
  | .refreshed ratio _ => threshold < ratio
  | .retired => false

/-- The latest event is an update from more than so many blocks ago. Events are listed from the
latest to the first, here and below. -/
def isSilent (maxGap height : UInt64) : List Event → Bool
  | .refreshed _ last :: _ => maxGap.toNat < height.toNat - last.toNat
  | _ => false

def lapse (maxGap height : UInt64) (past : List Event) : List Event :=
  if isSilent maxGap height past then .retired :: past else past

def extend (p : StabilityParams) (c : String) (past : List Event) : Action → List Event
  | .update currency expected observed _ height =>
    if currency = c then .refreshed (Stability.ratio expected observed) height :: past else past
  | .markInactive currency _ => if currency = c then .retired :: past else past
  | .refreshInactive height => lapse p.inactiveBlocks height past
  | .reEvaluate height now feed =>
    match Currency.fiat? c with
    | none => past
    | some fiat =>
      if past = [] ∧ c ∉ feed.currencies then past
      else
        match feed.waterPrice c p.waterWindowDays now,
          feed.exchangeRate c fiat p.exchangeWindowDays now with
        | some price, some _ =>
          .refreshed (Stability.ratio (UInt64.ofNat microPerUnit) price) height :: past
        | _, _ => lapse p.inactiveBlocks height past
  | .create _ | .record _ | .prune _ => past

def chronicle (p : StabilityParams) (c : String) (actions : List Action) : List Event :=
  actions.foldl (extend p c) []

/-- The events end in a streak of updates off the peg, the first of them at this height: no other
update and no retirement came since, and what came right before it is not part of the streak. -/
def OffSince (threshold : UInt64) (events : List Event) (start : UInt64) : Prop :=
  ∃ (later : List Event) (ratio : UInt64) (earlier : List Event),
    events = later ++ .refreshed ratio start :: earlier ∧ threshold < ratio ∧
      (∀ e ∈ later, e.isOff threshold) ∧ ∀ e ∈ earlier.head?, ¬ e.isOff threshold

/-! ## The streak by recursion -/

/-- The height at which the streak that the events end in began. -/
def offStart? (threshold : UInt64) : List Event → Option UInt64
  | .refreshed ratio height :: past =>
    if threshold < ratio then some ((offStart? threshold past).getD height) else none
  | _ => none

theorem offStart?_eq_none_iff {threshold : UInt64} {events : List Event} :
    offStart? threshold events = none ↔ ∀ e ∈ events.head?, ¬ e.isOff threshold := by
  match events with
  | [] => simp [offStart?]
  | .retired :: past => simp [offStart?, Event.isOff]
  | .refreshed ratio height :: past => simp [offStart?, Event.isOff]

theorem offSince_cons_iff {threshold ratio height start : UInt64} {past : List Event}
    (h : threshold < ratio) :
    OffSince threshold (.refreshed ratio height :: past) start ↔
      OffSince threshold past start ∨
        (start = height ∧ ∀ e ∈ past.head?, ¬ e.isOff threshold) := by
  constructor
  -- The update at the head is the first of its streak, or it goes on with one of the past.
  · rintro ⟨later, ratio', earlier, heq, hratio, hlater, hearlier⟩
    cases later with
    | nil =>
      obtain ⟨he, rfl⟩ := List.cons.inj heq
      cases he
      exact Or.inr ⟨rfl, hearlier⟩
    | cons e later =>
      obtain ⟨-, rfl⟩ := List.cons.inj heq
      exact Or.inl ⟨later, ratio', earlier, rfl, hratio,
        fun e he => hlater e (List.mem_cons_of_mem _ he), hearlier⟩
  · rintro (⟨later, ratio', earlier, rfl, hratio, hlater, hearlier⟩ | ⟨rfl, hpast⟩)
    · refine ⟨.refreshed ratio height :: later, ratio', earlier, rfl, hratio, ?_, hearlier⟩
      intro e he
      rcases List.mem_cons.1 he with rfl | he
      · simpa [Event.isOff] using h
      · exact hlater e he
    · exact ⟨[], ratio, past, rfl, h, nofun, hpast⟩

theorem not_offSince_of_head {threshold start : UInt64} {events : List Event}
    (h : ∀ e ∈ events.head?, ¬ e.isOff threshold) : ¬ OffSince threshold events start := by
  rintro ⟨later, ratio, earlier, rfl, hratio, hlater, -⟩
  cases later with
  | nil => exact h _ rfl (by simpa [Event.isOff] using hratio)
  | cons e later => exact h e rfl (hlater e List.mem_cons_self)

theorem offSince_iff {threshold start : UInt64} {events : List Event} :
    OffSince threshold events start ↔ offStart? threshold events = some start := by
  induction events with
  | nil => exact iff_of_false (not_offSince_of_head nofun) nofun
  | cons e past ih =>
    cases e with
    | retired =>
      exact iff_of_false (not_offSince_of_head (by simp [Event.isOff])) nofun
    | refreshed ratio height =>
      by_cases h : threshold < ratio
      · rw [offSince_cons_iff h, ih, ← offStart?_eq_none_iff, offStart?, if_pos h]
        cases offStart? threshold past <;> simp [eq_comm]
      · have hhead : ∀ e ∈ (Event.refreshed ratio height :: past).head?, ¬ e.isOff threshold := by
          simpa [Event.isOff] using h
        rw [offStart?, if_neg h]
        exact iff_of_false (not_offSince_of_head hhead) nofun

/-! ## What a standing says of the chronicle -/

def statusAfter (threshold : UInt64) : List Event → Stability
  | [] => .stable
  | .refreshed ratio _ :: _ => if threshold < ratio then .unstable else .stable
  | .retired :: _ => .inactive

theorem statusAfter_eq_unstable_iff {threshold : UInt64} {events : List Event} :
    statusAfter threshold events = .unstable ↔ (offStart? threshold events).isSome := by
  match events with
  | [] => simp [statusAfter, offStart?]
  | .retired :: past => simp [statusAfter, offStart?]
  | .refreshed ratio height :: past =>
    by_cases h : threshold < ratio <;> simp [statusAfter, offStart?, h]

structure Agrees (p : StabilityParams) (events : List Event) (i? : Option Standing) : Prop where
  eq_none_iff : i? = none ↔ events = []
  status_eq : ∀ i ∈ i?, i.status = statusAfter p.threshold events
  since_eq : ∀ i ∈ i?, i.unstableSince = offStart? p.threshold events
  lastCheck_eq : ∀ i ∈ i?, ∀ ratio height past,
    events = .refreshed ratio height :: past → i.lastCheck = height

namespace Agrees

variable {p : StabilityParams} {events : List Event} {i? : Option Standing}

theorem nil : Agrees p [] none := by
  constructor <;> simp

theorem isOverdue_eq {i : Standing} (h : Agrees p events (some i)) (height : UInt64) :
    i.isOverdue height p.inactiveBlocks = isSilent p.inactiveBlocks height events := by
  have hstatus := h.status_eq i rfl
  match events with
  | [] => exact nomatch h.eq_none_iff.2 rfl
  | .retired :: past => simp [Standing.isOverdue, hstatus, statusAfter, isSilent]
  | .refreshed ratio last :: past =>
    have hne : i.status ≠ .inactive := by
      rw [hstatus, statusAfter]
      split <;> simp
    simp [Standing.isOverdue, Standing.isStale, hne, isSilent, h.lastCheck_eq i rfl _ _ _ rfl]

/-- Fresh averages continue a streak, begin one or end it. -/
theorem refresh (h : Agrees p events i?) (c : String) (expected observed rate height : UInt64) :
    Agrees p (.refreshed (Stability.ratio expected observed) height :: events)
      (some ((i?.getD (.initial c)).refresh p.threshold expected observed rate height)) := by
  constructor
  · simp
  · rintro _ ⟨⟩
    rw [Standing.status_refresh, statusAfter]
  · rintro _ ⟨⟩
    rw [Standing.unstableSince_refresh, offStart?]
    split
    · cases i? with
      | none =>
        rw [h.eq_none_iff.1 rfl]
        rfl
      | some i =>
        change (if i.status = .unstable then i.unstableSince else some height) = _
        rw [h.status_eq i rfl, h.since_eq i rfl]
        cases hstart : offStart? p.threshold events with
        | none =>
          rw [if_neg (by simp [statusAfter_eq_unstable_iff, hstart])]
          rfl
        | some start =>
          rw [if_pos (by simp [statusAfter_eq_unstable_iff, hstart])]
          rfl
    · rfl
  · rintro _ ⟨⟩ ratio' height' past heq
    cases heq
    rw [Standing.lastCheck_refresh]

theorem retire (i : Standing) (lastCheck : UInt64) :
    Agrees p (.retired :: events) (some { i.retire with lastCheck }) := by
  constructor
  · simp
  · rintro _ ⟨⟩
    rfl
  · rintro _ ⟨⟩
    rfl
  · rintro _ _ _ _ _ ⟨⟩

theorem lapse (h : Agrees p events i?) (height : UInt64) :
    Agrees p (Stabilizer.lapse p.inactiveBlocks height events)
      (i?.map fun i => if i.isOverdue height p.inactiveBlocks then i.retire else i) := by
  unfold Stabilizer.lapse
  cases i? with
  | none =>
    rw [h.eq_none_iff.1 rfl]
    exact .nil
  | some i =>
    rw [Option.map_some, h.isOverdue_eq]
    cases isSilent p.inactiveBlocks height events with
    | false => exact h
    | true => exact .retire i i.lastCheck

end Agrees

/-! ## Along a run -/

section

variable {p : StabilityParams} {past : List Event} {s : Stabilizer} {c : String}

/-- Judging a currency renews its standing, or looks for silence if it is pegged. -/
theorem Agrees.judged (h : Agrees p past s.standings[c]?) (hp : s.params = p) {feed : PriceFeed}
    {height now : UInt64} (hjudged : (s.standings[c]?).isSome ∨ c ∈ feed.currencies) :
    Agrees p (extend p c past (.reEvaluate height now feed))
      (Standing.judged? p c height (s.averages? feed now c) s.standings[c]?) := by
  have hpast : ¬ (past = [] ∧ c ∉ feed.currencies) := by
    rintro ⟨hnil, hfeed⟩
    rcases hjudged with hsome | hmem
    · rw [h.eq_none_iff.2 hnil] at hsome
      exact nomatch hsome
    · exact hfeed hmem
  unfold extend averages?
  rw [hp]
  cases hfiat : Currency.fiat? c with
  | none =>
    have hpegged : Currency.isPegged c = false := by simp [Currency.isPegged, hfiat]
    simpa [Standing.judged?, hpegged] using h
  | some fiat =>
    have hpegged : Currency.isPegged c = true := by simp [Currency.isPegged, hfiat]
    have hlapse : Agrees p (Stabilizer.lapse p.inactiveBlocks height past)
        (Standing.judged? p c height none s.standings[c]?) := by
      simpa [Standing.judged?, hpegged] using h.lapse height
    simp only [if_neg hpast, Option.bind_eq_bind, Option.bind_some]
    cases feed.waterPrice c p.waterWindowDays now with
    | none => exact hlapse
    | some price =>
      cases feed.exchangeRate c fiat p.exchangeWindowDays now with
      | none => exact hlapse
      | some rate => exact h.refresh c _ price rate height

/-- One operation adds to the chronicle what the standing then shows. -/
theorem Agrees.perform (h : Agrees p past s.standings[c]?) (hs : s.Keyed) (hp : s.params = p)
    (a : Action) : Agrees p (extend p c past a) (s.perform a).standings[c]? := by
  cases a with
  | update currency expected observed rate height =>
    change Agrees p (if currency = c then _ else past)
      (s.update currency expected observed rate height).standings[c]?
    rw [standings_update hs, hp]
    split
    · exact h.refresh c expected observed rate height
    · exact h
  | markInactive currency height =>
    change Agrees p (if currency = c then _ else past)
      (s.markInactive currency height).standings[c]?
    rw [standings_markInactive hs]
    split
    · exact .retire _ height
    · exact h
  | refreshInactive height =>
    change Agrees p _ (s.refreshInactive height).standings[c]?
    rw [standings_refreshInactive, hp]
    exact h.lapse height
  | reEvaluate height now feed =>
    change Agrees p _ (s.reEvaluate height now feed).2.standings[c]?
    rw [standings_reEvaluate feed height now hs, hp]
    split
    · next hjudged => exact h.judged hp hjudged
    · next hnot =>
      -- The currency is neither tracked nor in the feed, so its chronicle is empty and stays so.
      obtain ⟨hnone, hfeed⟩ := not_or.1 hnot
      obtain rfl : past = [] := h.eq_none_iff.1 (by simpa using hnone)
      unfold extend
      cases Currency.fiat? c with
      | none => exact .nil
      | some fiat =>
        simp only [hfeed, not_false_eq_true, and_self, if_true]
        exact .nil
  | create block =>
    rw [standings_perform_create]
    exact h
  | record payout =>
    rw [standings_perform_record]
    exact h
  | prune => exact h

theorem Agrees.foldl_perform (actions : List Action) (h : Agrees p past s.standings[c]?)
    (hs : s.Keyed) (hp : s.params = p) :
    Agrees p (actions.foldl (extend p c) past) (actions.foldl Stabilizer.perform s).standings[c]? := by
  induction actions generalizing past s with
  | nil => exact h
  | cons a actions ih =>
    exact ih (h.perform hs hp a) (hs.perform a) ((perform_params_directory s a).1.trans hp)

end

/-- After any run the standing of a currency agrees with its chronicle. -/
theorem agrees_run (p : StabilityParams) (directory : Directory) (actions : List Action)
    (c : String) :
    Agrees p (chronicle p c actions) ((new p directory).run actions).standings[c]? := by
  refine Agrees.foldl_perform actions ?_ Reachable.new.keyed rfl
  simpa [new] using Agrees.nil

/-- A stabilizer lets a currency issue exactly while its chronicle ends in a streak off the peg that
began long enough ago. -/
theorem Agrees.mayIssue_iff {p : StabilityParams} {events : List Event} {s : Stabilizer} {c : String}
    (h : Agrees p events s.standings[c]?) (hp : s.params = p) (height : UInt64) :
    (∃ i, s.standings[c]? = some i ∧ s.mayIssue i height) ↔
      ∃ start, OffSince p.threshold events start ∧
        p.unstableBlocks.toNat ≤ height.toNat - start.toNat := by
  simp only [mayIssue, Standing.hasPersisted_iff, offSince_iff, hp]
  constructor
  · rintro ⟨i, hi, -, start, hstart, hlong⟩
    exact ⟨start, h.since_eq i hi ▸ hstart, hlong⟩
  · rintro ⟨start, hstart, hlong⟩
    obtain ⟨i, hi⟩ : ∃ i, s.standings[c]? = some i := by
      rw [← Option.ne_none_iff_exists']
      intro hnone
      rw [h.eq_none_iff.1 hnone] at hstart
      exact nomatch hstart
    refine ⟨i, hi, ?_, start, (h.since_eq i hi).trans hstart, hlong⟩
    rw [h.status_eq i hi, statusAfter_eq_unstable_iff, hstart]
    rfl

/-- In any run a currency has a height of instability exactly while it is unstable, and it may
issue, and has a payout in a plan, only after a long enough streak of updates off the peg, whose
first update set that height. -/
theorem mayIssue_iff_offSince (p : StabilityParams) (directory : Directory) (actions : List Action)
    (c : String) :
    (∀ i, ((new p directory).run actions).standings[c]? = some i →
      (i.unstableSince.isSome ↔ i.status = .unstable)) ∧
    (∀ height, (∃ i, ((new p directory).run actions).standings[c]? = some i ∧
        ((new p directory).run actions).mayIssue i height) ↔
      ∃ start, OffSince p.threshold (chronicle p c actions) start ∧
        p.unstableBlocks.toNat ≤ height.toNat - start.toNat) ∧
    ∀ block payouts, ((new p directory).run actions).plan block = .ok payouts →
      c ∈ payouts.map Payout.currency →
      ∃ start, OffSince p.threshold (chronicle p c actions) start ∧
        p.unstableBlocks.toNat ≤ block.height.toNat - start.toNat := by
  have h := agrees_run p directory actions c
  have hp : ((new p directory).run actions).params = p := (Reachable.new.run actions).params_eq
  refine ⟨fun i hi => ?_, h.mayIssue_iff hp, fun block payouts hplan hc => ?_⟩
  · rw [h.since_eq i hi, h.status_eq i hi, statusAfter_eq_unstable_iff]
  · obtain ⟨i, hi, -, hmay⟩ := mayIssue_of_mem_plan hplan hc
    exact (h.mayIssue_iff hp block.height).1 ⟨i, hi, hmay⟩

theorem offSince_of_dollarBlock :
    ∃ payouts, ((new {} euroUsers).run dollarsOff).plan dollarBlock = .ok payouts ∧
      "OUSD" ∈ payouts.map Payout.currency ∧
      ∃ start, OffSince 100000 (chronicle {} "OUSD" dollarsOff) start ∧ 144 ≤ 144 - start.toNat := by
  have hplanned : (((new {} euroUsers).run dollarsOff).plan dollarBlock).toOption.map
      (·.map Payout.currency) = some ["OUSD"] := by decide +kernel
  obtain ⟨payouts, hsome, hcurrency⟩ := Option.map_eq_some_iff.1 hplanned
  have hplan := toOption_eq_some_iff.1 hsome
  have hissues : "OUSD" ∈ payouts.map Payout.currency := by simp [hcurrency]
  exact ⟨payouts, hplan, hissues,
    (mayIssue_iff_offSince {} euroUsers dollarsOff "OUSD").2.2 dollarBlock payouts hplan hissues⟩

end WaterPeg.Stabilizer
