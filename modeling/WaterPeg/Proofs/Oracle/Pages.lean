import Mathlib.Algebra.Group.Nat.Defs
import WaterPeg.Proofs.Oracle.Readings
import WaterPeg.Proofs.Oracle.Retries
import WaterPeg.Proofs.Oracle.Writes

/-!
The pages in the life of a store. Once registered a page stays; its reliability is the moving
average of the checks that were noted, and once it fell below the floor the page is out of use for
good. A failed check takes a tenth of the reliability, and a little more where it is rounded down,
so that no active page survives failures for long.
-/
namespace WaterPeg

namespace SourceUrl

/-! ## The moving average -/

section

variable {r : UInt64} (h : r.toNat ≤ 1000000)

include h

theorem toNat_nextReliability (success : Bool) :
    (nextReliability r success).toNat =
      (900000 * r.toNat + 100000 * (if success then 1000000 else 0)) / 1000000 := by
  unfold nextReliability
  refine UInt64.toNat_ofNat_of_lt' ?_
  rw [UInt64.size]
  split <;> omega

theorem nextReliability_le (success : Bool) : (nextReliability r success).toNat ≤ 1000000 := by
  rw [toNat_nextReliability h]
  split <;> omega

theorem le_nextReliability_true : r ≤ nextReliability r true := by
  rw [UInt64.le_iff_toNat_le, toNat_nextReliability h, if_pos rfl]
  omega

/-- Rounding down can only add to the loss. -/
theorem nextReliability_false_mul_le : (nextReliability r false).toNat * 10 ≤ r.toNat * 9 := by
  rw [toNat_nextReliability h, if_neg Bool.false_ne_true]
  omega

theorem le_foldl_nextReliability {outcomes : List Bool} (hall : ∀ s ∈ outcomes, s = true) :
    r ≤ outcomes.foldl nextReliability r := by
  induction outcomes generalizing r with
  | nil => exact UInt64.le_refl r
  | cons success outcomes ih =>
    obtain rfl := hall success List.mem_cons_self
    have hrest := ih (nextReliability_le h true) fun s hs => hall s (List.mem_cons_of_mem _ hs)
    exact UInt64.le_trans (le_nextReliability_true h) hrest

/-- Failures in a row take the reliability down by nine tenths each, or faster. -/
theorem foldl_nextReliability_mul_le {outcomes : List Bool} (hall : ∀ s ∈ outcomes, s = false) :
    (outcomes.foldl nextReliability r).toNat * 10 ^ outcomes.length ≤
      r.toNat * 9 ^ outcomes.length := by
  induction outcomes generalizing r with
  | nil => exact Nat.le_refl _
  | cons success outcomes ih =>
    obtain rfl := hall success List.mem_cons_self
    have hrest := ih (nextReliability_le h false) fun s hs => hall s (List.mem_cons_of_mem _ hs)
    have hfirst := nextReliability_false_mul_le h
    rw [List.foldl_cons, List.length_cons, Nat.pow_succ, Nat.pow_succ]
    calc (outcomes.foldl nextReliability (nextReliability r false)).toNat *
          (10 ^ outcomes.length * 10)
        ≤ (nextReliability r false).toNat * 9 ^ outcomes.length * 10 := by
          rw [← Nat.mul_assoc]
          exact Nat.mul_le_mul_right 10 hrest
      _ = (nextReliability r false).toNat * 10 * 9 ^ outcomes.length := Nat.mul_right_comm ..
      _ ≤ r.toNat * 9 * 9 ^ outcomes.length := Nat.mul_le_mul_right _ hfirst
      _ = r.toNat * (9 ^ outcomes.length * 9) := by rw [Nat.mul_assoc, Nat.mul_comm 9]

end

/-- Full reliability is used up by so many failures. -/
theorem million_mul_pow_lt {j : Nat} (h : 132 ≤ j) : 1000000 * 9 ^ j < 10 ^ j := by
  obtain ⟨k, rfl⟩ := Nat.exists_eq_add_of_le h
  have hbase : 1000000 * 9 ^ 132 < 10 ^ 132 := by decide
  have hrest : 9 ^ k ≤ 10 ^ k := Nat.pow_le_pow_left (by decide) k
  calc 1000000 * 9 ^ (132 + k) = 1000000 * 9 ^ 132 * 9 ^ k := by rw [Nat.pow_add, Nat.mul_assoc]
    _ ≤ 1000000 * 9 ^ 132 * 10 ^ k := Nat.mul_le_mul_left _ hrest
    _ < 10 ^ 132 * 10 ^ k := Nat.mul_lt_mul_of_pos_right hbase (Nat.pow_pos (by decide))
    _ = 10 ^ (132 + k) := (Nat.pow_add ..).symm

/-! ## Pages and what becomes of them -/

/-- What holds of the pages of an oracle with this floor. -/
structure Sound (u : SourceUrl) (floor : UInt64) : Prop where
  reliability_le : u.reliability.toNat ≤ 1000000
  floor_le : u.isActive = true → floor ≤ u.reliability
  validators_nodup : u.validators.Nodup
  submitter_notMem : u.submitter ∉ u.validators

structure Follows (u : SourceUrl) (outcomes : List Bool) (u' : SourceUrl) : Prop where
  reliability_eq : u'.reliability = outcomes.foldl nextReliability u.reliability
  inactive : u.isActive = false → u'.isActive = false

/-- How a page comes off in some checks. -/
structure Fares (u : SourceUrl) (floor : UInt64) (outcomes : List Bool) (u' : SourceUrl) : Prop
    extends u.Follows outcomes u' where
  rises : (∀ s ∈ outcomes, s = true) → u.reliability ≤ u'.reliability
  falls : (∀ s ∈ outcomes, s = false) → u'.reliability ≤ u.reliability
  decays : (∀ s ∈ outcomes, s = false) →
    u'.reliability.toNat * 10 ^ outcomes.length ≤ u.reliability.toNat * 9 ^ outcomes.length
  /-- The failures that take a page down depend on its reliability and the floor. -/
  deactivated : (∀ s ∈ outcomes, s = false) →
    u.reliability.toNat * 9 ^ outcomes.length < floor.toNat * 10 ^ outcomes.length →
    u'.isActive = false
  /-- So many failures always do, if there is a floor. -/
  deactivated_of_length : (∀ s ∈ outcomes, s = false) → 0 < floor → 132 ≤ outcomes.length →
    u'.isActive = false

theorem Follows.trans {u u' u'' : SourceUrl} {outcomes outcomes' : List Bool}
    (h : u.Follows outcomes u') (h' : u'.Follows outcomes' u'') :
    u.Follows (outcomes ++ outcomes') u'' where
  reliability_eq := by rw [h'.reliability_eq, h.reliability_eq, List.foldl_append]
  inactive hu := h'.inactive (h.inactive hu)

theorem Follows.fares {u u' : SourceUrl} {outcomes : List Bool} (h : u.Follows outcomes u')
    {floor : UInt64} (hu : u.Sound floor) (hu' : u'.Sound floor) : u.Fares floor outcomes u' := by
  have hdecays (hall : ∀ s ∈ outcomes, s = false) :
      u'.reliability.toNat * 10 ^ outcomes.length ≤ u.reliability.toNat * 9 ^ outcomes.length := by
    rw [h.reliability_eq]
    exact foldl_nextReliability_mul_le hu.reliability_le hall
  have htens : 0 < 10 ^ outcomes.length := Nat.pow_pos (by decide)
  have hdeactivated (hall : ∀ s ∈ outcomes, s = false)
      (hfloor : u.reliability.toNat * 9 ^ outcomes.length < floor.toNat * 10 ^ outcomes.length) :
      u'.isActive = false := by
    have hbelow : u'.reliability.toNat < floor.toNat :=
      Nat.lt_of_mul_lt_mul_right (Nat.lt_of_le_of_lt (hdecays hall) hfloor)
    refine Bool.eq_false_iff.2 fun hactive => ?_
    exact Nat.not_le.2 hbelow (UInt64.le_iff_toNat_le.1 (hu'.floor_le hactive))
  refine ⟨h, fun hall => ?_, fun hall => ?_, hdecays, hdeactivated, fun hall hfloor hlength => ?_⟩
  · rw [h.reliability_eq]
    exact le_foldl_nextReliability hu.reliability_le hall
  · have hnines : 9 ^ outcomes.length ≤ 10 ^ outcomes.length := Nat.pow_le_pow_left (by decide) _
    have hscaled := Nat.le_trans (hdecays hall) (Nat.mul_le_mul_left u.reliability.toNat hnines)
    exact UInt64.le_iff_toNat_le.2 (Nat.le_of_mul_le_mul_right hscaled htens)
  · refine hdeactivated hall ?_
    calc u.reliability.toNat * 9 ^ outcomes.length
        ≤ 1000000 * 9 ^ outcomes.length := Nat.mul_le_mul_right _ hu.reliability_le
      _ < 10 ^ outcomes.length := million_mul_pow_lt hlength
      _ ≤ floor.toNat * 10 ^ outcomes.length :=
        Nat.le_mul_of_pos_left _ (UInt64.lt_iff_toNat_lt.1 hfloor)

/-- What a chapter makes of the page under an id, with the outcome of the check that it notes. -/
inductive Turn (floor : UInt64) : Option SourceUrl → List Bool → Option SourceUrl → Prop
  | kept (u : Option SourceUrl) : Turn floor u [] u
  | registered {u : SourceUrl} (hreliability : u.reliability = 1000000)
      (hvalidators : u.validators = []) : Turn floor none [] (some u)
  | endorsed {u : SourceUrl} {validator : String} (hpeer : u.submitter ≠ validator)
      (hnew : validator ∉ u.validators) :
    Turn floor (some u) [] (some { u with validators := u.validators ++ [validator] })
  | checked (u : SourceUrl) (success : Bool) (now : UInt64) :
    Turn floor (some u) [success] (some (u.afterCheck success now floor))

theorem Turn.sound {floor : UInt64} (hfloor : floor ≤ 1000000) {before after : Option SourceUrl}
    {outcomes : List Bool} (h : Turn floor before outcomes after)
    (hbefore : ∀ u, before = some u → u.Sound floor) : ∀ u, after = some u → u.Sound floor := by
  intro u' hu'
  cases h with
  | kept => exact hbefore u' hu'
  | registered hreliability hvalidators =>
    obtain rfl := Option.some.inj hu'
    refine ⟨?_, fun _ => ?_, ?_, ?_⟩
    · rw [hreliability]
      decide
    · rwa [hreliability]
    · rw [hvalidators]
      exact List.nodup_nil
    · rw [hvalidators]
      exact List.not_mem_nil
  | @endorsed u validator hpeer hnew =>
    obtain rfl := Option.some.inj hu'
    obtain ⟨hreliability, hactive, hnodup, hsubmitter⟩ := hbefore u rfl
    refine ⟨hreliability, hactive, ?_, ?_⟩
    · refine List.nodup_append.2 ⟨hnodup, by simp, fun a ha b hb heq => ?_⟩
      rw [List.mem_singleton.1 hb] at heq
      exact hnew (heq ▸ ha)
    · rw [List.mem_append, List.mem_singleton]
      exact not_or.2 ⟨hsubmitter, hpeer⟩
  | checked u success now =>
    obtain rfl := Option.some.inj hu'
    obtain ⟨hreliability, -, hnodup, hsubmitter⟩ := hbefore u rfl
    refine ⟨nextReliability_le hreliability success, fun hactive => ?_, hnodup, hsubmitter⟩
    exact of_decide_eq_true (Bool.and_eq_true_iff.1 hactive).2

/-- No page is taken away, and none is taken up again. -/
theorem Turn.follows {floor : UInt64} {u : SourceUrl} {after : Option SourceUrl}
    {outcomes : List Bool} (h : Turn floor (some u) outcomes after) :
    ∃ u', after = some u' ∧ u.Follows outcomes u' := by
  cases h with
  | kept => exact ⟨u, rfl, rfl, fun hu => hu⟩
  | endorsed => exact ⟨_, rfl, rfl, fun hu => hu⟩
  | checked u success now =>
    refine ⟨_, rfl, rfl, fun hu => ?_⟩
    change (u.isActive && _) = false
    rw [hu, Bool.false_and]

end SourceUrl

namespace Oracle

variable {o : Oracle}

/-! ## Events and the pages -/

def Request.KeepsUrls : Request → Prop
  | .registerUrl _ _ _ _ _ _ | .endorseUrl _ _ | .recordUrlCheck _ _ _ => False
  | .issue _ _ _ _ _ | .issueForTarget _ _ _ _ _ | .submitWater _ _ | .submitRate _ _
  | .endorse _ _ | .expireInvites _ | .prune _ | .rollUpDay _ _ => True

theorem urls_after {r : Request} (h : r.KeepsUrls) : (o.after r).tables.urls = o.tables.urls := by
  have hkinds : .sourceUrl ∉ r.kinds := by
    cases r <;> first | exact h.elim | simp [Request.kinds]
  refine (writes_after o r).tables_keep Tables.urls (fun e he t => ?_) fun _ _ => rfl
  cases e <;> first | rfl | exact absurd he hkinds

def checksIn (o : Oracle) (id : Digest) : Chapter → List Bool
  | .event (.request (.recordUrlCheck target success now)) =>
    match (o.recordUrlCheck target success now).1 with
    | .ok _ => if target = id then [success] else []
    | .error _ => []
  | _ => []

def checksOver (o : Oracle) (id : Digest) : List Chapter → List Bool
  | [] => []
  | c :: life => o.checksIn id c ++ (o.through c).checksOver id life

def TurnsPage (o : Oracle) (c : Chapter) (t : Tables) (id : Digest) : Prop :=
  SourceUrl.Turn o.params.minUrlReliability o.tables.urls[id]? (o.checksIn id c) t.urls[id]?

theorem turnsPage_of_urls_eq {c : Chapter} {t : Tables} {id : Digest}
    (hurls : t.urls = o.tables.urls) (hchecks : o.checksIn id c = []) : o.TurnsPage c t id := by
  unfold TurnsPage
  rw [hurls, hchecks]
  exact .kept _

theorem turnsPage_putUrl {α : Type} {c : Chapter} {id : Digest} (u : SourceUrl) (result : α)
    (hchecks : o.checksIn id c = [])
    (h : SourceUrl.Turn o.params.minUrlReliability o.tables.urls[u.id]? [] (some u)) :
    o.TurnsPage c (o.commit [.putUrl u] result).2.tables id := by
  rcases o.tables_commit [.putUrl u] result with heq | heq
  · rw [heq]
    exact turnsPage_of_urls_eq rfl hchecks
  · rw [heq]
    unfold TurnsPage
    rw [hchecks]
    change SourceUrl.Turn _ _ [] (o.tables.urls.insert u.id u)[id]?
    rw [Std.ExtTreeMap.getElem?_insert]
    split
    · next hid =>
      obtain rfl := Std.LawfulEqCmp.eq_of_compare hid
      exact h
    · exact .kept _

theorem turnsPage_registerUrl (url : String) (kind : MeasurementKind) (currency : Option String)
    (submitter : String) (now blockHeight : UInt64) (id : Digest) :
    o.TurnsPage (.event (.request (.registerUrl url kind currency submitter now blockHeight)))
      (o.registerUrl url kind currency submitter now blockHeight).2.tables id := by
  unfold registerUrl
  split
  · exact turnsPage_of_urls_eq rfl rfl
  · dsimp only
    split
    · exact turnsPage_of_urls_eq rfl rfl
    · next hnew =>
      refine turnsPage_putUrl _ _ rfl ?_
      rw [Std.ExtTreeMap.getElem?_eq_none fun hmem =>
        hnew (Std.ExtTreeMap.contains_iff_mem.2 hmem)]
      exact .registered rfl rfl

theorem turnsPage_endorseUrl (hkept : o.Kept) (target : Digest) (validator : String)
    (id : Digest) :
    o.TurnsPage (.event (.request (.endorseUrl target validator)))
      (o.endorseUrl target validator).2.tables id := by
  unfold endorseUrl
  split
  · exact turnsPage_of_urls_eq rfl rfl
  · next u hu =>
    obtain rfl := Tables.Mirrored.id_of_url hkept hu
    split
    · exact turnsPage_of_urls_eq rfl rfl
    · next hpeer =>
      split
      · exact turnsPage_of_urls_eq rfl rfl
      · next hnew =>
        refine turnsPage_putUrl _ _ rfl ?_
        dsimp only
        rw [hu]
        exact .endorsed hpeer fun hmem => hnew (List.contains_iff_mem.2 hmem)

theorem turnsPage_recordUrlCheck (hkept : o.Kept) (target : Digest) (success : Bool)
    (now : UInt64) (id : Digest) :
    o.TurnsPage (.event (.request (.recordUrlCheck target success now)))
      (o.recordUrlCheck target success now).2.tables id := by
  cases hu : o.tables.urls[target]? with
  | none =>
    have hrefused : o.recordUrlCheck target success now = (.error (.refused .unknownUrl), o) := by
      simp only [recordUrlCheck, hu]
    rw [hrefused]
    exact turnsPage_of_urls_eq rfl (by simp only [checksIn, hrefused])
  | some u =>
    have hcheck : o.recordUrlCheck target success now = o.commit
        [.putUrl (u.afterCheck success now o.params.minUrlReliability)]
        (u.afterCheck success now o.params.minUrlReliability).reliability := by
      simp only [recordUrlCheck, hu]
    rcases o.commit_cases [.putUrl (u.afterCheck success now o.params.minUrlReliability)]
      (u.afterCheck success now o.params.minUrlReliability).reliability with ⟨why, h⟩ | ⟨store, h⟩
    · rw [hcheck, h]
      exact turnsPage_of_urls_eq rfl (by simp only [checksIn, hcheck, h])
    · unfold TurnsPage
      simp only [checksIn, hcheck, h]
      change SourceUrl.Turn _ _ _ (o.tables.urls.insert u.id _)[id]?
      rw [Tables.Mirrored.id_of_url hkept hu, Std.ExtTreeMap.getElem?_insert]
      by_cases hid : target = id
      · subst hid
        rw [if_pos rfl, if_pos Std.ReflCmp.compare_self, hu]
        exact .checked u success now
      · rw [if_neg hid, if_neg fun heq => hid (Std.LawfulEqCmp.eq_of_compare heq)]
        exact .kept _

/-- What an event makes of the page under an id. -/
theorem turnsPage_step (hkept : o.Kept) (e : Event) (id : Digest) :
    o.TurnsPage (.event e) (o.step e).tables id := by
  cases e with
  | storeTurns => exact turnsPage_of_urls_eq rfl rfl
  | request r =>
    cases r with
    | registerUrl => exact turnsPage_registerUrl ..
    | endorseUrl => exact turnsPage_endorseUrl hkept ..
    | recordUrlCheck => exact turnsPage_recordUrlCheck hkept ..
    | _ => exact turnsPage_of_urls_eq (urls_after trivial) rfl

/-! ## Lives and the pages -/

def SoundPages (o : Oracle) : Prop :=
  ∀ (id : Digest) u, o.tables.urls[id]? = some u → u.Sound o.params.minUrlReliability

namespace Retains

variable {p : MeasurementParams} (h : o.Retains p)

include h

theorem turnsPage {c : Chapter} (hc : c.Under p) (id : Digest) :
    o.TurnsPage c (o.through c).tables id :=
  through_cases (P := fun c q => c.Under p → o.TurnsPage c q.tables id)
    (fun e _ => turnsPage_step h.kept e id)
    (fun hbegin _ => turnsPage_of_urls_eq (h.kept.begin? hbegin).2.urls rfl)
    (fun _ _ _ => turnsPage_of_urls_eq rfl rfl) c hc

theorem sound_through {c : Chapter} (hc : c.Under p) (hfloor : p.minUrlReliability ≤ 1000000)
    (hsound : o.SoundPages) : (o.through c).SoundPages := by
  intro id u hu
  have hturn := h.turnsPage hc id
  unfold TurnsPage at hturn
  unfold SoundPages at hsound
  rw [h.params_eq] at hturn hsound
  rw [(h.through hc).params_eq]
  exact hturn.sound hfloor (hsound id) u hu

variable {life : List Chapter} (hlife : ∀ c ∈ life, c.Under p)

include hlife

theorem sound_live (hfloor : p.minUrlReliability ≤ 1000000) (hsound : o.SoundPages) :
    (o.live life).SoundPages := by
  refine (List.foldlRecOn life Oracle.through (motive := fun o => o.Retains p ∧ o.SoundPages)
    ⟨h, hsound⟩ fun _ ho c hc => ?_).2
  exact ⟨ho.1.through (hlife c hc), ho.1.sound_through (hlife c hc) hfloor ho.2⟩

/-- A page follows on itself all through a life. -/
theorem follows_live {id : Digest} {u : SourceUrl} (hu : o.tables.urls[id]? = some u) :
    ∃ u', (o.live life).tables.urls[id]? = some u' ∧ u.Follows (o.checksOver id life) u' := by
  induction life generalizing o u with
  | nil => exact ⟨u, hu, rfl, fun hu => hu⟩
  | cons c life ih =>
    have hc := hlife c List.mem_cons_self
    have hturn := h.turnsPage hc id
    unfold TurnsPage at hturn
    rw [hu] at hturn
    obtain ⟨v, hv, hfirst⟩ := hturn.follows
    have hlater : ∀ d ∈ life, d.Under p := fun d hd => hlife d (List.mem_cons_of_mem c hd)
    obtain ⟨u', hu', hrest⟩ := ih (h.through hc) hlater hv
    exact ⟨u', hu', hfirst.trans hrest⟩

end Retains

/-- The check of a page is noted if the store has room, and gives the new average. -/
theorem recordUrlCheck_of_room {id : Digest} {u : SourceUrl} (hu : o.tables.urls[id]? = some u)
    (hroom : o.store.writesLeft ≠ some 0) (success : Bool) (now : UInt64) :
    (o.recordUrlCheck id success now).1 =
      .ok (SourceUrl.nextReliability u.reliability success) := by
  simp only [recordUrlCheck, hu]
  exact commit_of_room hroom ..

/-- What holds of a page at any time, and what becomes of it from then on. Its reliability is a
proportion, at or above the floor while the page is active; its validators are distinct peers of the
submitter. A check is noted unless the store fails. Whatever else happens the page stays, inactive
for good once it is so; successes never lower its reliability, failures never raise it and take a
tenth or more each, so that enough of them in a row deactivate it. -/
theorem page_lifecycle {store : Store} {directory : Directory} {config : Config} {o : Oracle}
    (hempty : store.entries = ∅) (hbegin : begin? store directory config = .ok o)
    (hfloor : config.measurement.minUrlReliability ≤ 1000000) {life : List Chapter}
    (hlife : ∀ c ∈ life, c.Under config.measurement) {id : Digest} {u : SourceUrl}
    (hu : (o.live life).tables.urls[id]? = some u) :
    u.Sound config.measurement.minUrlReliability ∧
      ((o.live life).store.writesLeft ≠ some 0 → ∀ success now,
        ((o.live life).recordUrlCheck id success now).1 =
          .ok (SourceUrl.nextReliability u.reliability success)) ∧
      ∀ later, (∀ c ∈ later, c.Under config.measurement) →
        ∃ u', ((o.live life).live later).tables.urls[id]? = some u' ∧
          u.Fares config.measurement.minUrlReliability ((o.live life).checksOver id later) u' := by
  have hretains := retains_of_empty hempty hbegin
  have hnone : o.SoundPages := by
    intro id u hu
    rw [tables_of_begin?_of_empty hempty hbegin] at hu
    simp [Tables.empty] at hu
  have hlive := hretains.live hlife
  have hsound := hretains.sound_live hlife hfloor hnone
  have husound := hsound id u hu
  rw [hlive.params_eq] at husound
  refine ⟨husound, fun hroom => recordUrlCheck_of_room hu hroom, fun later hlater => ?_⟩
  obtain ⟨u', hu', hfollows⟩ := hlive.follows_live hlater hu
  have hu'sound := hlive.sound_live hlater hfloor hsound id u' hu'
  rw [(hlive.live hlater).params_eq] at hu'sound
  exact ⟨u', hu', hfollows.fares husound hu'sound⟩

def adasPage : Digest := SourceUrl.idOf "https://shop.example/water" .waterPrice (some "OUSD")

/-- Ada registers the page of her shop, which a peer endorses. -/
def adasPageLife : List Chapter :=
  [.event (.request
      (.registerUrl "https://shop.example/water" .waterPrice (some "OUSD") "ada" 1750000000 1)),
    .event (.request (.endorseUrl adasPage "ben"))]

/-- The shop closes, and the page is submitted once more. -/
def adasPageChecks : List Chapter :=
  List.replicate 12 (.event (.request (.recordUrlCheck adasPage false 1750000000))) ++
    [.event (.request
      (.registerUrl "https://shop.example/water" .waterPrice (some "OUSD") "ben" 1760000000 2))]

theorem lifecycle_of_adasPage :
    ∃ u u', ((fresh adaAlone {}).live adasPageLife).tables.urls[adasPage]? = some u ∧
      (((fresh adaAlone {}).live adasPageLife).live adasPageChecks).tables.urls[adasPage]? =
        some u' ∧
      u.isActive = true ∧ u.Sound 300000 ∧ u.Fares 300000 (List.replicate 12 false) u' ∧
      u'.isActive = false := by
  have hbegin : begin? .empty adaAlone {} = .ok (fresh adaAlone {}) := rfl
  have hlife : ∀ c ∈ adasPageLife, c.Under {} := by
    simp [adasPageLife, Chapter.Under]
  have hchecks : ∀ c ∈ adasPageChecks, c.Under {} := by
    simp [adasPageChecks, Chapter.Under]
  have hnoted : ((fresh adaAlone {}).live adasPageLife).checksOver adasPage adasPageChecks =
      List.replicate 12 false := by decide +kernel
  have hnew : (((fresh adaAlone {}).live adasPageLife).tables.urls[adasPage]?.map fun u =>
      (u.isActive, u.reliability)) = some (true, 1000000) := by decide +kernel
  obtain ⟨u, hu, hnew⟩ := Option.map_eq_some_iff.1 hnew
  obtain ⟨hactive, hreliability⟩ := Prod.mk.inj hnew
  obtain ⟨hsound, -, hlater⟩ := page_lifecycle rfl hbegin (by decide) hlife hu
  obtain ⟨u', hu', hfares⟩ := hlater adasPageChecks hchecks
  rw [hnoted] at hfares
  refine ⟨u, u', hu, hu', hactive, hsound, hfares, hfares.deactivated (by decide) ?_⟩
  rw [hreliability]
  decide

end Oracle

end WaterPeg
