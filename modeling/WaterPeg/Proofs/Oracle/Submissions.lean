import WaterPeg.Proofs.Oracle.Edits
import WaterPeg.Proofs.Results

/-!
What the judgement of a submission rests on. It falls into a screening, which comes before the id of
the observation is computed, and what follows from that id.
-/
namespace WaterPeg

def Submission.preimage {ω α : Type} [Quantity ω α] (s : Submission ω) (measured : α) : Bytes :=
  Reading.preimage (Bytes.ofString (Quantity.domain ω)) s.submitter (Quantity.codes ω measured)
    (Quantity.value ω measured) s.timestamp s.inviteId

/-- What the two kinds of observation have in common: neither is refused as a duplicate for its own
sake, and both are put among their own. -/
class LawfulQuantity (ω : Type) {α : Type} [Quantity ω α] : Prop where
  admissible_ne (offer : ω) : Quantity.admissible offer ≠ .error .duplicate
  measure_ne (p : MeasurementParams) (offer : ω) : Quantity.measure p offer ≠ .error .duplicate
  keepsInvites_put (r : Reading α) : (Quantity.put ω r).KeepsInvites
  adds_put (r : Reading α) {id invite : Digest} (h : (Quantity.put ω r).Adds id invite) :
    id = r.id ∧ invite = r.inviteId
  names_of_mem (t : Tables) {id : Digest} (h : id ∈ Quantity.readings ω t) :
    ∃ invite, t.Names id invite

theorem MeasurementParams.checkValue_ne (p : MeasurementParams) (value : UInt64) :
    p.checkValue value ≠ .error .duplicate := by
  unfold checkValue
  split
  · exact nofun
  · split <;> exact nofun

theorem MeasurementParams.perLiter_ne (p : MeasurementParams) (offer : WaterOffer) :
    p.perLiter offer ≠ .error .duplicate := by
  intro h
  rcases bind_eq_error_iff.1 h with h | ⟨-, -, h⟩
  · exact p.checkValue_ne _ h
  dsimp only at h
  split at h
  · exact nomatch h
  split at h
  · exact nomatch h
  · rcases bind_eq_error_iff.1 h with h | ⟨-, -, h⟩
    · exact p.checkValue_ne _ h
    · exact nomatch h

/-- What passed on the way to the price of a liter. -/
theorem MeasurementParams.perLiter_of_ok {p : MeasurementParams} {offer : WaterOffer}
    {w : WaterPrice} (h : p.perLiter offer = .ok w) :
    p.checkValue offer.price = .ok () ∧ p.minVolume ≤ offer.container.microLiters ∧
      offer.container.microLiters ≤ p.maxVolume ∧
      ∃ price, pricePerLiter? offer.price offer.container.microLiters = some price ∧
        p.checkValue price = .ok () ∧
        w = ⟨offer.currency, price, offer.price, offer.container⟩ := by
  obtain ⟨_, hoffered, h⟩ := bind_eq_ok_iff.1 h
  dsimp only at h
  split at h
  · exact nomatch h
  next hvolume =>
  obtain ⟨hmin, hmax⟩ := not_or.1 hvolume
  split at h
  · exact nomatch h
  next price hprice =>
  obtain ⟨_, hvalue, h⟩ := bind_eq_ok_iff.1 h
  exact ⟨hoffered, UInt64.not_lt.1 hmin, UInt64.not_lt.1 hmax, price, hprice, hvalue,
    (Except.ok.inj h).symm⟩

theorem MeasurementParams.checkTime_ne (p : MeasurementParams) (source : Source)
    (timestamp now : UInt64) : p.checkTime source timestamp now ≠ .error .duplicate := by
  unfold checkTime
  dsimp only
  repeat' split
  all_goals exact nofun

instance : LawfulQuantity WaterOffer where
  admissible_ne _ := nofun
  measure_ne p offer := p.perLiter_ne offer
  keepsInvites_put _ := trivial
  adds_put _ _ _ h := ⟨h.1.symm, h.2.symm⟩
  names_of_mem t id h := by
    obtain ⟨r, hr⟩ := Option.isSome_iff_exists.1 (Std.ExtTreeMap.mem_iff_isSome_getElem?.1 h)
    exact ⟨r.inviteId, Or.inl ⟨r, hr, rfl⟩⟩

instance : LawfulQuantity ExchangeRate where
  admissible_ne r := by
    change (if Currency.fiat? r.base = some r.quote then _ else _) ≠ _
    split <;> exact nofun
  measure_ne p r h := p.checkValue_ne r.rate (map_eq_error_iff.1 h)
  keepsInvites_put _ := trivial
  adds_put _ _ _ h := ⟨h.1.symm, h.2.symm⟩
  names_of_mem t id h := by
    obtain ⟨r, hr⟩ := Option.isSome_iff_exists.1 (Std.ExtTreeMap.mem_iff_isSome_getElem?.1 h)
    exact ⟨r.inviteId, Or.inr ⟨r, hr, rfl⟩⟩

namespace Oracle

variable {ω α : Type} [Quantity ω α]

/-- The checks that come before the id: they give the invite and the measured quantity. -/
def screen (o : Oracle) (s : Submission ω) (now : UInt64) : Except Refusal (Invite × α) := do
  let invite ← o.usableInvite s.inviteId s.submitter (Quantity.answers ω)
    (Quantity.currency s.offer) now
  Quantity.admissible s.offer
  (Evidence.check s.source s.evidence).mapError .evidence
  o.params.checkTime s.source s.timestamp now
  let measured ← Quantity.measure o.params s.offer
  .ok (invite, measured)

def acceptance (o : Oracle) (s : Submission ω) (now : UInt64) (invite : Invite) (measured : α)
    (moments : Option Moments) : Acceptance α where
  reading :=
    { id := sha3 (s.preimage measured)
      submitter := s.submitter
      measured
      evidence := s.evidence
      source := s.source
      timestamp := s.timestamp
      blockHeight := s.blockHeight
      validators := []
      isValidated := false
      confidence := 0
      check := .ofMoments moments now
      inviteId := s.inviteId }
  invite := { invite with isUsed := true }
  turnout := (o.turnout ⟨invite.currency, invite.kind⟩).recordCompleted now
  firstSeen :=
    if o.tables.firstSeen.contains (Quantity.currency s.offer) then none
    else some (Quantity.currency s.offer, now)

/-- The checks that follow from the id: the observation is new, and stands in the band of its
series. -/
def admission (o : Oracle) (s : Submission ω) (now : UInt64) (invite : Invite) (measured : α) :
    Except Refusal (Acceptance α) :=
  if (Quantity.readings ω o.tables).contains (sha3 (s.preimage measured)) then .error .duplicate
  else
    (((band o.params).judge (Quantity.series ω o.tables measured
      (Tables.windowStart now o.params.acceptanceWindowDays) now)
      (Quantity.value ω measured)).mapError fun m =>
        .outOfBand (Quantity.value ω measured) m.mean) >>= fun moments =>
      .ok (o.acceptance s now invite measured moments)

theorem judge_eq (o : Oracle) (s : Submission ω) (now : UInt64) :
    o.judge s now = o.screen s now >>= fun (invite, measured) => o.admission s now invite measured := by
  unfold judge screen
  simp only [bind_assoc]
  refine bind_congr fun invite => bind_congr fun _ => bind_congr fun _ => bind_congr fun _ =>
    bind_congr fun measured => ?_
  change _ = o.admission s now invite measured
  unfold admission
  split
  · next h => exact (if_pos h).symm
  · next h => exact (if_neg h).symm

variable {o : Oracle} {s : Submission ω} {now : UInt64}

theorem usableInvite_of_ok {id : Digest} {submitter : String} {answers : MeasurementKind → Bool}
    {currency : String} {i : Invite}
    (h : o.usableInvite id submitter answers currency now = .ok i) :
    o.tables.invites[id]? = some i ∧ i.user = submitter ∧ answers i.kind ∧
      i.currency.filter (· ≠ currency) = none ∧ i.isUsed = false ∧ i.isExpired = false ∧
      now < i.expiresAt := by
  unfold usableInvite at h
  split at h
  · exact nomatch h
  next j hj =>
  split at h
  · exact nomatch h
  next huser =>
  split at h
  · exact nomatch h
  next hkind =>
  split at h
  · exact nomatch h
  next hcurrency =>
  split at h
  · exact nomatch h
  next hused =>
  split at h
  · exact nomatch h
  next hexpired =>
  obtain rfl := Except.ok.inj h
  simp only [Bool.or_eq_true, decide_eq_true_eq, not_or, Bool.not_eq_true, UInt64.not_le] at hexpired
  exact ⟨hj, Decidable.not_not.1 huser, by simpa using hkind, hcurrency, by simpa using hused,
    hexpired⟩

theorem screen_of_ok {invite : Invite} {measured : α} (h : o.screen s now = .ok (invite, measured)) :
    o.usableInvite s.inviteId s.submitter (Quantity.answers ω) (Quantity.currency s.offer) now =
        .ok invite ∧
      Quantity.measure o.params s.offer = .ok measured := by
  obtain ⟨i, hi, h⟩ := bind_eq_ok_iff.1 h
  obtain ⟨-, -, h⟩ := bind_eq_ok_iff.1 h
  obtain ⟨-, -, h⟩ := bind_eq_ok_iff.1 h
  obtain ⟨-, -, h⟩ := bind_eq_ok_iff.1 h
  obtain ⟨m, hm, h⟩ := bind_eq_ok_iff.1 h
  obtain ⟨rfl, rfl⟩ := Prod.mk.inj (Except.ok.inj h)
  exact ⟨hi, hm⟩

theorem judge_of_ok {a : Acceptance α} (h : o.judge s now = .ok a) :
    ∃ invite measured moments, o.screen s now = .ok (invite, measured) ∧
      sha3 (s.preimage measured) ∉ Quantity.readings ω o.tables ∧
      a = o.acceptance s now invite measured moments := by
  rw [judge_eq] at h
  obtain ⟨⟨invite, measured⟩, hscreen, h⟩ := bind_eq_ok_iff.1 h
  dsimp only [admission] at h
  split at h
  · exact nomatch h
  · next hnew =>
    obtain ⟨moments, -, h⟩ := bind_eq_ok_iff.1 h
    exact ⟨invite, measured, moments, hscreen, hnew, (Except.ok.inj h).symm⟩

/-- An accepted submission makes all of its edits; any other changes nothing. -/
theorem submit_cases (o : Oracle) (s : Submission ω) (now : UInt64) :
    (∃ why, o.submit s now = (.error why, o)) ∨
      ∃ invite measured moments store, o.screen s now = .ok (invite, measured) ∧
        sha3 (s.preimage measured) ∉ Quantity.readings ω o.tables ∧
        o.submit s now = (.ok (sha3 (s.preimage measured)),
          { o with
            store
            tables := ((o.acceptance s now invite measured moments).edits
              (Quantity.put ω)).foldl Tables.apply o.tables }) := by
  unfold submit
  split
  · exact Or.inl ⟨_, rfl⟩
  · next a ha =>
    obtain ⟨invite, measured, moments, hscreen, hnew, rfl⟩ := judge_of_ok ha
    rcases commit_cases o ((o.acceptance s now invite measured moments).edits (Quantity.put ω))
      (sha3 (s.preimage measured)) with ⟨e, h⟩ | ⟨store, h⟩
    · exact Or.inl ⟨_, h⟩
    · exact Or.inr ⟨invite, measured, moments, store, hscreen, hnew, h⟩

/-! ## Duplicates -/

section

variable [LawfulQuantity ω]

theorem screen_ne_duplicate : o.screen s now ≠ .error .duplicate := by
  intro h
  rcases bind_eq_error_iff.1 h with h | ⟨_, -, h⟩
  · unfold usableInvite at h
    repeat' split at h
    all_goals exact nomatch h
  rcases bind_eq_error_iff.1 h with h | ⟨_, -, h⟩
  · exact LawfulQuantity.admissible_ne _ h
  rcases bind_eq_error_iff.1 h with h | ⟨_, -, h⟩
  · obtain ⟨fault, -, h⟩ := mapError_eq_error_iff.1 h
    exact nomatch h
  rcases bind_eq_error_iff.1 h with h | ⟨_, -, h⟩
  · exact o.params.checkTime_ne _ _ _ h
  rcases bind_eq_error_iff.1 h with h | ⟨_, -, h⟩
  · exact LawfulQuantity.measure_ne _ _ h
  · exact nomatch h

/-- A submission is a duplicate only after its screening, of an observation that is kept. -/
theorem judge_of_duplicate (h : o.judge s now = .error .duplicate) :
    ∃ invite measured, o.screen s now = .ok (invite, measured) ∧
      sha3 (s.preimage measured) ∈ Quantity.readings ω o.tables := by
  rw [judge_eq] at h
  rcases bind_eq_error_iff.1 h with h | ⟨⟨invite, measured⟩, hscreen, h⟩
  · exact absurd h screen_ne_duplicate
  dsimp only [admission] at h
  split at h
  · next hmem => exact ⟨invite, measured, hscreen, Std.ExtTreeMap.mem_iff_contains.2 hmem⟩
  · rcases bind_eq_error_iff.1 h with h | ⟨_, -, h⟩
    · obtain ⟨m, -, h⟩ := mapError_eq_error_iff.1 h
      exact nomatch h
    · exact nomatch h

end

end Oracle

end WaterPeg
