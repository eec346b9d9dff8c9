import WaterPeg.Proofs.Oracle.Readings

/-!
Observations do not change, but for the peers behind them. A chapter leaves an observation as it
is, adds one peer to it, or prunes it; and of the peers follows whether the observation is
validated, and how far it is to be trusted.
-/
namespace WaterPeg

/-- The peers behind an observation, where so many must endorse it. -/
structure Reading.Backed {α : Type} (minValidators : UInt64) (r : Reading α) : Prop where
  nodup : r.validators.Nodup
  submitter_notMem : r.submitter ∉ r.validators
  isValidated_iff : r.isValidated ↔ minValidators.toNat ≤ r.validators.length
  confidence_eq : r.confidence.toNat = min 1000000 (100000 * r.validators.length)

theorem Reading.Backed.endorse {α : Type} {minValidators : UInt64} {r r' : Reading α}
    (h : r.Backed minValidators) {validator : String}
    (hendorse : r.endorse validator minValidators = .ok r') : r'.Backed minValidators := by
  obtain ⟨howner, hnew, rfl⟩ := Oracle.endorse_of_ok hendorse
  have hlength : (r.validators ++ [validator]).length = r.validators.length + 1 := by simp
  constructor
  · refine List.nodup_append.2 ⟨h.nodup, by simp, fun v hv w hw => ?_⟩
    rw [List.mem_singleton.1 hw]
    rintro rfl
    exact hnew hv
  · intro hmem
    rcases List.mem_append.1 hmem with hmem | hmem
    · exact h.submitter_notMem hmem
    · exact howner (List.mem_singleton.1 hmem).symm
  · -- Once validated, always validated: the peers only become more.
    have hbefore := h.isValidated_iff
    simp only [hlength, Bool.or_eq_true, decide_eq_true_eq, hbefore]
    omega
  · have hword : min ((r.validators ++ [validator]).length * ppm / 10) ppm < UInt64.size := by
      have hppm : ppm < UInt64.size := by decide
      omega
    rw [UInt64.toNat_ofNat_of_lt' hword, hlength, ppm]
    omega

namespace Oracle

theorem lasting_backed {ω α : Type} [Quantity ω α] {p : MeasurementParams}
    (hmin : 1 ≤ p.minValidators) : Lasting ω p (Reading.Backed (α := α) p.minValidators) where
  accepted := by
    intro o s now invite measured hparams hscreen moments
    have hsome := UInt64.le_iff_toNat_le.1 hmin
    constructor
    · exact .nil
    · exact List.not_mem_nil
    · refine iff_of_false Bool.false_ne_true ?_
      exact Nat.not_le.2 hsome
    · rfl
  endorsed := by
    intro r r' validator hr hendorse
    exact hr.endorse hendorse

inductive Change {α : Type} (c : Chapter) (id : Digest) (r : Reading α) : Option (Reading α) → Prop
  | kept : Change c id r (some r)
  | endorsed (validator : String) (isValidated : Bool) (confidence : UInt64)
      (hc : c = .event (.request (.endorse id validator))) :
      Change c id r
        (some { r with validators := r.validators ++ [validator], isValidated, confidence })
  | pruned (cutoff : UInt64) (hc : c = .event (.request (.prune cutoff))) : Change c id r none

theorem Passage.change {ω α : Type} [Quantity ω α] {o : Oracle} {c : Chapter} {id : Digest}
    {before after : Option (Reading α)} (h : o.Passage ω c id before after) {r : Reading α}
    (hr : before = some r) : Change c id r after := by
  cases h with
  | kept =>
    rw [hr]
    exact .kept
  | accepted => exact nomatch hr
  | @endorsed _ _ validator hc hendorse =>
    obtain rfl := Option.some.inj hr
    obtain ⟨-, -, rfl⟩ := endorse_of_ok hendorse
    exact .endorsed validator _ _ hc
  | pruned _ hc => exact .pruned _ hc

/-- Over the life of a store that was empty, under parameters that ask for peers, an observation
changes by the addition of single peers only, until it is pruned. The peers are distinct, and none
is the submitter; their number decides whether the observation is validated, and its confidence. -/
theorem backed_of_empty {store : Store} {directory : Directory} {config : Config} {o : Oracle}
    (hempty : store.entries = ∅) (hbegin : begin? store directory config = .ok o)
    (hmin : 1 ≤ config.measurement.minValidators) {life : List Chapter}
    (hlife : ∀ c ∈ life, c.Under config.measurement) :
    (o.live life).tables.AllReadings (Reading.Backed config.measurement.minValidators)
        (Reading.Backed config.measurement.minValidators) ∧
      ∀ c : Chapter, c.Under config.measurement → ∀ id : Digest,
        (∀ r, (o.live life).tables.water[id]? = some r →
          Change c id r ((o.live life).through c).tables.water[id]?) ∧
        ∀ r, (o.live life).tables.rates[id]? = some r →
          Change c id r ((o.live life).through c).tables.rates[id]? := by
  have hretains := (retains_of_empty hempty hbegin).live hlife
  refine ⟨?_, fun c hc id => ?_⟩
  · exact allReadings_of_empty (lasting_backed hmin) (lasting_backed hmin) hempty hbegin hlife
  · have hpasses := hretains.passes hc id
    exact ⟨fun r hr => hpasses.water.change hr, fun r hr => hpasses.rates.change hr⟩

def adasReading : Digest := sha3 (adasPrice.preimage ⟨"OUSD", 1500000, 1500000, .liter⟩)

/-- Three peers endorse Ada's price, one of them after another oracle has begun. Ada may not
endorse it herself, nor a peer twice. -/
def adasPeers : List Chapter :=
  [.event (.request (.issue 1 .waterPrice (some "OUSD") 1750000000 1)),
    .event (.request (.submitWater adasPrice 1750000060)),
    .event (.request (.endorse adasReading "bob")),
    .event (.request (.endorse adasReading "ada")),
    .event (.request (.endorse adasReading "carol")),
    .reopen adaAlone {},
    .event (.request (.endorse adasReading "bob")),
    .event (.request (.endorse adasReading "dan"))]

theorem backed_of_adasPeers :
    (((fresh adaAlone {}).live adasPeers).tables.water.values.map fun r =>
        (r.validators, r.isValidated, r.confidence)) = [(["bob", "carol", "dan"], true, 300000)] ∧
      ((fresh adaAlone {}).live adasPeers).tables.AllReadings (Reading.Backed 3)
        (Reading.Backed 3) := by
  have hbegin : begin? .empty adaAlone {} = .ok (fresh adaAlone {}) := rfl
  have hmin : 1 ≤ ({} : Config).measurement.minValidators := by decide
  have hlife : ∀ c ∈ adasPeers, c.Under ({} : Config).measurement := by
    simp [adasPeers, Chapter.Under]
  exact ⟨by decide +kernel, (backed_of_empty rfl hbegin hmin hlife).1⟩

end Oracle

end WaterPeg
