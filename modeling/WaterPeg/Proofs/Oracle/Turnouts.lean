import WaterPeg.Proofs.Oracle.Issues
import WaterPeg.Proofs.Oracle.SingleUse

/-!
The turnouts keep the books of the invites. What was answered under a key, and what can still be
answered, is never more than what was sent, so that a rate is the plain quotient of the two counts.
-/
namespace WaterPeg

/-! ## Counting -/

namespace Turnout

/-- While no more were answered than sent, the cap of the rate does not show. -/
theorem rate_refresh (t : Turnout) (now : UInt64) (hsent : 0 < t.sent.toNat)
    (hcompleted : t.completed.toNat ≤ t.sent.toNat) :
    (t.refresh now).rate.toNat = t.completed.toNat * ppm / t.sent.toNat := by
  have hsome : t.sent ≠ 0 := by
    intro hzero
    simp [hzero] at hsent
  have hcap : t.completed.toNat * ppm / t.sent.toNat ≤ ppm :=
    Nat.div_le_of_le_mul (Nat.mul_le_mul_right ppm hcompleted)
  have hword : ppm < UInt64.size := by decide
  simp only [refresh, if_neg hsome, Nat.min_eq_left hcap]
  exact UInt64.toNat_ofNat_of_lt' (Nat.lt_of_le_of_lt hcap hword)

variable {t : Turnout} (now : UInt64)

theorem recordSent_eq {n : Nat} (h : t.sent.toNat + n < UInt64.size) :
    (t.recordSent n now).sent.toNat = t.sent.toNat + n ∧
      (t.recordSent n now).completed = t.completed ∧
      (0 < t.sent.toNat + n → t.completed.toNat ≤ t.sent.toNat + n →
        (t.recordSent n now).rate.toNat = t.completed.toNat * ppm / (t.sent.toNat + n)) := by
  have hsent := UInt64.toNat_ofNatClamp_of_lt h
  refine ⟨hsent, rfl, fun hpos hle => ?_⟩
  rw [recordSent, rate_refresh]
  · dsimp only
    rw [hsent]
  · dsimp only
    rwa [hsent]
  · dsimp only
    rwa [hsent]

theorem recordCompleted_eq (h : t.completed.toNat + 1 < UInt64.size) :
    (t.recordCompleted now).completed.toNat = t.completed.toNat + 1 ∧
      (t.recordCompleted now).sent = t.sent ∧
      (t.completed.toNat + 1 ≤ t.sent.toNat →
        (t.recordCompleted now).rate.toNat = (t.completed.toNat + 1) * ppm / t.sent.toNat) := by
  have hcompleted := UInt64.toNat_ofNatClamp_of_lt h
  refine ⟨hcompleted, rfl, fun hle => ?_⟩
  rw [recordCompleted, rate_refresh]
  · dsimp only
    rw [hcompleted]
  · dsimp only
    omega
  · dsimp only
    rwa [hcompleted]

end Turnout

/-! ## Unused invites -/

namespace Tables

def unused (t : Tables) (key : TurnoutKey) : List Invite :=
  t.invites.values.filter fun i => !i.isUsed && i.turnoutKey == key

def TurnoutsKeyed (t : Tables) : Prop :=
  ∀ (key : TurnoutKey) r, t.turnouts[key]? = some r → r.key = key

theorem TurnoutsKeyed.apply {t : Tables} (h : t.TurnoutsKeyed) (e : Edit) :
    (t.apply e).TurnoutsKeyed := by
  cases e with
  | putTurnout r => exact Table.key_eq_of_insert h r
  | _ => exact h

theorem TurnoutsKeyed.key_getD {t : Tables} (h : t.TurnoutsKeyed) (key : TurnoutKey)
    (defaultRate : UInt64) : (t.turnouts[key]?.getD (.initial key defaultRate)).key = key := by
  cases hkey : t.turnouts[key]? with
  | none => rfl
  | some r => exact h key r hkey

variable {t : Tables} {key : TurnoutKey} (hkeyed : t.Keyed)

include hkeyed

theorem mem_unused {id : Digest} : id ∈ (t.unused key).map Invite.id ↔
    ∃ i, t.invites[id]? = some i ∧ i.isUsed = false ∧ i.turnoutKey = key := by
  constructor
  · intro h
    obtain ⟨i, hi, rfl⟩ := List.mem_map.1 h
    obtain ⟨hvalue, hkeep⟩ := List.mem_filter.1 hi
    obtain ⟨k, hk⟩ := Table.mem_values.1 hvalue
    have hid := hkeyed.invites k i hk
    subst hid
    simp only [Bool.and_eq_true, Bool.not_eq_eq_eq_not, Bool.not_true, beq_iff_eq] at hkeep
    exact ⟨i, hk, hkeep⟩
  · rintro ⟨i, hi, hopen, hkey⟩
    have hid := hkeyed.invites id i hi
    have hvalue : i ∈ t.invites.values := Table.mem_values.2 ⟨id, hi⟩
    refine List.mem_map.2 ⟨i, List.mem_filter.2 ⟨hvalue, ?_⟩, hid⟩
    simp [hopen, hkey]

theorem nodup_unused : ((t.unused key).map Invite.id).Nodup := by
  have hordered := t.invites.pairwise_filter_values Invite.id hkeyed.invites
    fun i => !i.isUsed && i.turnoutKey == key
  refine hordered.imp fun {a b} hlt => ?_
  intro hab
  rw [hab] at hlt
  exact absurd hlt (by simp)

/-- A list of every unused invite of a key is as long as there are such invites. -/
theorem length_unused_le {ids : List Digest}
    (h : ∀ (id : Digest) i, t.invites[id]? = some i → i.isUsed = false → i.turnoutKey = key →
      id ∈ ids) : (t.unused key).length ≤ ids.length := by
  have hsub : (t.unused key).map Invite.id ⊆ ids := by
    intro id hid
    obtain ⟨i, hi, hopen, hkey⟩ := (mem_unused hkeyed).1 hid
    exact h id i hi hopen hkey
  have hle := (nodup_unused hkeyed).length_le_of_subset hsub
  rwa [List.length_map] at hle

end Tables

namespace Oracle

/-- The keys of the invites whose submissions are accepted in an event. -/
def completedIn (o : Oracle) (e : Event) : List TurnoutKey :=
  (o.acceptedIn e).filterMap fun id => o.tables.invites[id]?.map Invite.turnoutKey

def completed (o : Oracle) : List Event → List TurnoutKey
  | [] => []
  | e :: events => o.completedIn e ++ (o.step e).completed events

section

variable {o : Oracle} {e : Event}

theorem completedIn_of_nil (h : o.acceptedIn e = []) : o.completedIn e = [] := by
  rw [completedIn, h, List.filterMap_nil]

theorem completedIn_of_singleton {id : Digest} {i : Invite} (h : o.acceptedIn e = [id])
    (hi : o.tables.invites[id]? = some i) : o.completedIn e = [i.turnoutKey] := by
  rw [completedIn, h]
  simp [hi]

end

/-- An event that issues nothing opens no invite. -/
theorem Turn.unused {o : Oracle} {e : Event} {id : Digest} {before after : Option Invite}
    (h : o.Turn e id before after) (hnext : (o.step e).tables.nextSequence = o.tables.nextSequence)
    {i : Invite} (hi : after = some i) (hopen : i.isUsed = false) :
    ∃ j, before = some j ∧ j.isUsed = false ∧ j.turnoutKey = i.turnoutKey := by
  cases h with
  | kept => exact ⟨i, hi, hopen, rfl⟩
  | issued _ _ _ hplace => omega
  | used =>
    obtain rfl := Option.some.inj hi
    exact nomatch hopen
  | @expired j hj =>
    obtain rfl := Option.some.inj hi
    exact ⟨j, rfl, hj.1, rfl⟩
  | dropped => exact nomatch hi

/-- What the books hold under a key: the counts are those given, unused invites are covered by what
was sent and not yet answered, and the rate is that of the counts. -/
structure Balanced (o : Oracle) (key : TurnoutKey) (sent completed : Nat) : Prop where
  sent_eq : (o.turnout key).sent.toNat = sent
  completed_eq : (o.turnout key).completed.toNat = completed
  covered : completed + (o.tables.unused key).length ≤ sent
  rate_eq : 0 < sent → (o.turnout key).rate.toNat = completed * ppm / sent

section

variable {o : Oracle} {e : Event} {key : TurnoutKey}

theorem turnout_step_of_eq (hturnouts : (o.step e).tables.turnouts = o.tables.turnouts) :
    (o.step e).turnout key = o.turnout key := by
  unfold turnout
  rw [hturnouts, (sameSetup_step o e).params_eq]

theorem turnout_step_of_insert {r : Turnout}
    (hturnouts : (o.step e).tables.turnouts = o.tables.turnouts.insert r.key r) :
    (o.step e).turnout key = if r.key = key then r else o.turnout key := by
  unfold turnout
  rw [hturnouts, (sameSetup_step o e).params_eq, Std.ExtTreeMap.getElem?_insert]
  by_cases hkey : r.key = key
  · subst hkey
    simp
  · have hcompare : compare r.key key ≠ .eq := fun heq => hkey (Std.LawfulEqCmp.eq_of_compare heq)
    simp [hkey, hcompare]

theorem turnoutsKeyed_step (h : o.tables.TurnoutsKeyed) (e : Event) :
    (o.step e).tables.TurnoutsKeyed :=
  step_invariant (P := fun t _ => t.TurnoutsKeyed) (fun e _ _ ht => ht.apply e) h
    (fun _ _ _ ht => ht) e

theorem key_turnout_of_keyed (hkeys : o.tables.TurnoutsKeyed) (key : TurnoutKey) :
    (o.turnout key).key = key := hkeys.key_getD key o.params.defaultTurnout

/-- All invites of an issue are of its key. -/
theorem turnoutKey_of_mem_draft {count : Nat} {kind : MeasurementKind} {currency : Option String}
    {now blockHeight : UInt64} {i : Invite} (h : i ∈ o.draft count kind currency now blockHeight) :
    i.turnoutKey = ⟨currency, kind⟩ := by
  obtain ⟨n, hn, rfl⟩ := List.mem_mapIdx.1 h
  rfl

theorem countP_draft (o : Oracle) (count : Nat) (kind : MeasurementKind) (currency : Option String)
    (now blockHeight : UInt64) (key : TurnoutKey) :
    (o.draft count kind currency now blockHeight).countP (·.turnoutKey == key) =
      if ⟨currency, kind⟩ = key then (o.draft count kind currency now blockHeight).length
      else 0 := by
  by_cases hkey : ⟨currency, kind⟩ = key
  · rw [if_pos hkey, List.countP_eq_length]
    intro i hi
    simp [turnoutKey_of_mem_draft hi, hkey]
  · rw [if_neg hkey, List.countP_eq_zero]
    intro i hi
    simp [turnoutKey_of_mem_draft hi, hkey]

/-- An issue adds at most its invites to the unused ones. -/
theorem length_unused_issue {drafted : List Invite} (hold : o.tables.Keyed)
    (hinvites : (o.step e).tables.invites =
      drafted.foldl (fun m i => m.insert i.id i) o.tables.invites) :
    ((o.step e).tables.unused key).length ≤
      (o.tables.unused key).length + drafted.countP (·.turnoutKey == key) := by
  have hkeyed := (edited_step o e).keyed hold
  have hlisted (id : Digest) (i : Invite) (hi : (o.step e).tables.invites[id]? = some i)
      (hopen : i.isUsed = false) (hkey : i.turnoutKey = key) :
      id ∈ (o.tables.unused key).map Invite.id ++
        (drafted.filter (·.turnoutKey == key)).map Invite.id := by
    rw [hinvites] at hi
    rcases Table.getElem?_foldl_insert_cases Invite.id (fun i => i) drafted o.tables.invites id with
      ⟨j, hj, hid, hget⟩ | ⟨-, hget⟩
    · obtain rfl := Option.some.inj (hget.symm.trans hi)
      have hfilter : j ∈ drafted.filter (·.turnoutKey == key) := by simp [hj, hkey]
      exact List.mem_append_right _ (List.mem_map.2 ⟨j, hfilter, hid⟩)
    · have hbefore := hget.symm.trans hi
      exact List.mem_append_left _ ((Tables.mem_unused hold).2 ⟨i, hbefore, hopen, hkey⟩)
  have hle := Tables.length_unused_le hkeyed hlisted
  rwa [List.length_append, List.length_map, List.length_map, ← List.countP_eq_length_filter] at hle

variable (hold : o.tables.Keyed) (hplaces : o.tables.nextSequence ≤ UInt64.size)
  (hnext : (o.step e).tables.nextSequence = o.tables.nextSequence)

include hold hplaces hnext

theorem unused_before {id : Digest} {i : Invite} (hi : (o.step e).tables.invites[id]? = some i)
    (hopen : i.isUsed = false) : id ∈ (o.tables.unused i.turnoutKey).map Invite.id := by
  have hturn := turn_step hold (by rw [hnext]; exact hplaces) id
  obtain ⟨j, hj, hjopen, hjkey⟩ := hturn.unused hnext hi hopen
  exact (Tables.mem_unused hold).2 ⟨j, hj, hjopen, hjkey⟩

theorem length_unused_idle :
    ((o.step e).tables.unused key).length ≤ (o.tables.unused key).length := by
  have hkeyed := (edited_step o e).keyed hold
  have hlisted (id : Digest) (i : Invite) (hi : (o.step e).tables.invites[id]? = some i)
      (hopen : i.isUsed = false) (hkey : i.turnoutKey = key) :
      id ∈ (o.tables.unused key).map Invite.id := by
    rw [← hkey]
    exact unused_before hold hplaces hnext hi hopen
  have hle := Tables.length_unused_le hkeyed hlisted
  rwa [List.length_map] at hle

/-- An acceptance takes its invite from the unused ones. -/
theorem length_unused_acceptance {id : Digest} {i : Invite} (hi : o.tables.invites[id]? = some i)
    (hopen : i.isUsed = false)
    (hused : (o.step e).tables.invites[id]? = some { i with isUsed := true }) :
    ((o.step e).tables.unused i.turnoutKey).length + 1 ≤ (o.tables.unused i.turnoutKey).length := by
  have hkeyed := (edited_step o e).keyed hold
  have hmem : id ∈ (o.tables.unused i.turnoutKey).map Invite.id :=
    (Tables.mem_unused hold).2 ⟨i, hi, hopen, rfl⟩
  have hlisted (id' : Digest) (i' : Invite) (hi' : (o.step e).tables.invites[id']? = some i')
      (hopen' : i'.isUsed = false) (hkey : i'.turnoutKey = i.turnoutKey) :
      id' ∈ ((o.tables.unused i.turnoutKey).map Invite.id).erase id := by
    have hbefore := unused_before hold hplaces hnext hi' hopen'
    rw [hkey] at hbefore
    have hne : id' ≠ id := by
      intro heq
      subst heq
      obtain rfl := Option.some.inj (hused.symm.trans hi')
      exact nomatch hopen'
    exact (List.mem_erase_of_ne hne).2 hbefore
  have hle := Tables.length_unused_le hkeyed hlisted
  have hpos := List.length_pos_of_mem hmem
  rw [List.length_erase_of_mem hmem, List.length_map] at hle
  rw [List.length_map] at hpos
  omega

end

/-! ## One event -/

namespace Balanced

variable {o : Oracle} {e : Event} {key : TurnoutKey} {sent completed : Nat}
  (h : o.Balanced key sent completed)

include h

/-- The books balance as before where the turnout stays, and no invite is added. -/
theorem kept (hturnout : (o.step e).turnout key = o.turnout key)
    (hunused : ((o.step e).tables.unused key).length ≤ (o.tables.unused key).length) :
    (o.step e).Balanced key sent completed where
  sent_eq := by rw [hturnout, h.sent_eq]
  completed_eq := by rw [hturnout, h.completed_eq]
  covered := by
    have hcovered := h.covered
    omega
  rate_eq hpos := by rw [hturnout, h.rate_eq hpos]

theorem recordSent {n : Nat} {now : UInt64} (hbound : sent + n < UInt64.size)
    (hturnout : (o.step e).turnout key = (o.turnout key).recordSent n now)
    (hunused : ((o.step e).tables.unused key).length ≤ (o.tables.unused key).length + n) :
    (o.step e).Balanced key (sent + n) completed := by
  have hcovered := h.covered
  have hfits : (o.turnout key).sent.toNat + n < UInt64.size := by
    rw [h.sent_eq]
    exact hbound
  obtain ⟨hsent, hcompleted, hrate⟩ := Turnout.recordSent_eq now hfits
  rw [h.sent_eq, h.completed_eq] at hrate
  refine ⟨?_, ?_, by omega, fun hpos => ?_⟩
  · rw [hturnout, hsent, h.sent_eq]
  · rw [hturnout, hcompleted, h.completed_eq]
  · rw [hturnout]
    exact hrate hpos (by omega)

theorem recordCompleted {now : UInt64}
    (hturnout : (o.step e).turnout key = (o.turnout key).recordCompleted now)
    (hunused : ((o.step e).tables.unused key).length + 1 ≤ (o.tables.unused key).length) :
    (o.step e).Balanced key sent (completed + 1) := by
  have hcovered := h.covered
  have hsize := (o.turnout key).sent.toNat_lt
  have hsent := h.sent_eq
  have hfits : (o.turnout key).completed.toNat + 1 < UInt64.size := by
    rw [h.completed_eq]
    have : UInt64.size = 2 ^ 64 := rfl
    omega
  obtain ⟨hcompleted, hsent', hrate⟩ := Turnout.recordCompleted_eq now hfits
  rw [h.completed_eq, h.sent_eq] at hrate
  refine ⟨?_, ?_, by omega, fun hpos => ?_⟩
  · rw [hturnout, hsent', h.sent_eq]
  · rw [hturnout, hcompleted, h.completed_eq]
  · rw [hturnout]
    exact hrate (by omega)

theorem step (hold : o.tables.Keyed) (hkeys : o.tables.TurnoutsKeyed)
    (hplaces : o.tables.nextSequence ≤ UInt64.size)
    (hbound : sent + (o.issuedIn e).countP (·.turnoutKey == key) < UInt64.size) :
    (o.step e).Balanced key (sent + (o.issuedIn e).countP (·.turnoutKey == key))
      (completed + (o.completedIn e).count key) := by
  cases posting hold e with
  | idle hissued haccepted hturnouts hnext =>
    have hcompleted := completedIn_of_nil haccepted
    rw [hissued, hcompleted, List.countP_nil, List.count_nil, Nat.add_zero, Nat.add_zero]
    exact h.kept (turnout_step_of_eq hturnouts) (length_unused_idle hold hplaces hnext)
  | issue count kind currency now blockHeight hissued haccepted hinvites hturnouts hnext =>
    have hcompleted := completedIn_of_nil haccepted
    have hunused : ((o.step e).tables.unused key).length ≤ _ := length_unused_issue hold hinvites
    have hturnout : (o.step e).turnout key = _ := turnout_step_of_insert hturnouts
    rw [hissued] at hbound ⊢
    rw [hcompleted, List.count_nil, Nat.add_zero]
    rw [countP_draft] at hbound hunused ⊢
    change _ = if (o.turnout ⟨currency, kind⟩).key = key then _ else _ at hturnout
    rw [key_turnout_of_keyed hkeys] at hturnout
    by_cases hkey : ⟨currency, kind⟩ = key
    · rw [if_pos hkey] at hbound hunused hturnout ⊢
      rw [hkey] at hturnout
      exact h.recordSent hbound hturnout hunused
    · rw [if_neg hkey] at hunused hturnout ⊢
      exact h.kept hturnout hunused
  | acceptance id i now hissued haccepted hi hopen hused hturnouts hnext =>
    have hcompleted := completedIn_of_singleton haccepted hi
    have hturnout : (o.step e).turnout key = _ := turnout_step_of_insert hturnouts
    rw [hissued, hcompleted, List.countP_nil, Nat.add_zero, List.count_singleton]
    change _ = if (o.turnout i.turnoutKey).key = key then _ else _ at hturnout
    rw [key_turnout_of_keyed hkeys] at hturnout
    by_cases hkey : i.turnoutKey = key
    · rw [if_pos hkey] at hturnout
      have hunused := length_unused_acceptance hold hplaces hnext hi hopen hused
      subst hkey
      simpa using h.recordCompleted hturnout hunused
    · rw [if_neg hkey] at hturnout
      have hunused : ((o.step e).tables.unused key).length ≤ _ :=
        length_unused_idle hold hplaces hnext
      simpa [hkey] using h.kept hturnout hunused

/-- The books balance after every event, if they did at first. -/
theorem run {events : List Event} (hold : o.tables.Keyed) (hkeys : o.tables.TurnoutsKeyed)
    (hplaces : o.tables.nextSequence + (o.issued events).length ≤ UInt64.size)
    (hbound : sent + (o.issued events).countP (·.turnoutKey == key) < UInt64.size) :
    (o.run events).Balanced key (sent + (o.issued events).countP (·.turnoutKey == key))
      (completed + (o.completed events).count key) := by
  induction events generalizing o sent completed with
  | nil => exact h
  | cons e events ih =>
    have hnext := nextSequence_step hold e
    have hissued : o.issued (e :: events) = o.issuedIn e ++ (o.step e).issued events := rfl
    have hcompleted : o.completed (e :: events) = o.completedIn e ++ (o.step e).completed events :=
      rfl
    rw [hissued, List.length_append] at hplaces
    rw [hissued, List.countP_append, ← Nat.add_assoc] at hbound
    have hfirst := h.step hold hkeys (e := e) (by omega) (by omega)
    have hrest := ih hfirst ((edited_step o e).keyed hold) (turnoutsKeyed_step hkeys e) (by omega)
      hbound
    rw [hissued, hcompleted, List.countP_append, List.count_append, ← Nat.add_assoc,
      ← Nat.add_assoc]
    exact hrest

end Balanced

theorem balanced_of_empty {o : Oracle} (h : o.tables = .empty) (key : TurnoutKey) :
    o.Balanced key 0 0 := by
  have hturnout : o.turnout key = .initial key o.params.defaultTurnout := by
    unfold turnout
    rw [h]
    simp [Tables.empty]
  have hkeyed : o.tables.Keyed := by
    rw [h]
    exact Tables.keyed_empty
  have hunused : (o.tables.unused key).length ≤ ([] : List Digest).length := by
    refine Tables.length_unused_le hkeyed fun id i hi => ?_
    rw [h] at hi
    simp [Tables.empty] at hi
  refine ⟨?_, ?_, by simpa using hunused, fun hsent => absurd hsent (Nat.lt_irrefl 0)⟩
  · rw [hturnout]
    rfl
  · rw [hturnout]
    rfl

/-- An oracle that began over an empty store, and issued less than `2 ^ 64` invites, has sent under
each key as many as it issued, and counts as completed those whose submissions it accepted. These
and the unused invites it still has are no more than were sent, so that the rate is the quotient of
the two counts, and never had to be cut down to one. -/
theorem turnout_of_run {store : Store} {directory : Directory} {config : Config} {o : Oracle}
    (hempty : store.entries = ∅) (hbegin : begin? store directory config = .ok o)
    {events : List Event} (hcount : (o.issued events).length < UInt64.size) (key : TurnoutKey) :
    ((o.run events).turnout key).sent.toNat = (o.issued events).countP (·.turnoutKey == key) ∧
      ((o.run events).turnout key).completed.toNat = (o.completed events).count key ∧
      ((o.run events).turnout key).completed.toNat + ((o.run events).tables.unused key).length ≤
        ((o.run events).turnout key).sent.toNat ∧
      (0 < ((o.run events).turnout key).sent.toNat →
        ((o.run events).turnout key).rate.toNat =
            ((o.run events).turnout key).completed.toNat * ppm /
              ((o.run events).turnout key).sent.toNat ∧
          ((o.run events).turnout key).completed.toNat * ppm /
            ((o.run events).turnout key).sent.toNat ≤ ppm) := by
  have htables := tables_of_begin?_of_empty hempty hbegin
  have hold : o.tables.Keyed := by
    rw [htables]
    exact Tables.keyed_empty
  have hkeys : o.tables.TurnoutsKeyed := by
    intro k r hr
    rw [htables] at hr
    simp [Tables.empty] at hr
  have hplaces : o.tables.nextSequence + (o.issued events).length ≤ UInt64.size := by
    rw [htables]
    simp only [Tables.empty]
    omega
  have hbound : 0 + (o.issued events).countP (·.turnoutKey == key) < UInt64.size := by
    have hle : (o.issued events).countP (·.turnoutKey == key) ≤ (o.issued events).length :=
      List.countP_le_length
    omega
  have hrun := (balanced_of_empty htables key).run hold hkeys hplaces hbound
  rw [Nat.zero_add, Nat.zero_add] at hrun
  have hcovered := hrun.covered
  refine ⟨hrun.sent_eq, hrun.completed_eq, ?_, fun hpos => ?_⟩
  · rw [hrun.sent_eq, hrun.completed_eq]
    exact hcovered
  · rw [hrun.sent_eq] at hpos ⊢
    rw [hrun.completed_eq]
    refine ⟨hrun.rate_eq hpos, Nat.div_le_of_le_mul (Nat.mul_le_mul_right ppm ?_)⟩
    omega

theorem turnout_of_adasRun :
    (((fresh adaAlone {}).run adasRun).turnout ⟨some "OUSD", .waterPrice⟩).sent = 2 ∧
      ((fresh adaAlone {}).completed adasRun).count ⟨some "OUSD", .waterPrice⟩ = 1 ∧
      (((fresh adaAlone {}).run adasRun).turnout ⟨some "OUSD", .waterPrice⟩).rate.toNat =
        1 * ppm / 2 := by
  have hbegin : begin? .empty adaAlone {} = .ok (fresh adaAlone {}) := rfl
  have hcount : ((fresh adaAlone {}).issued adasRun).length < UInt64.size := by decide +kernel
  have hsent : (((fresh adaAlone {}).run adasRun).turnout ⟨some "OUSD", .waterPrice⟩).sent = 2 := by
    decide +kernel
  have hone : ((fresh adaAlone {}).completed adasRun).count ⟨some "OUSD", .waterPrice⟩ = 1 := by
    decide +kernel
  obtain ⟨-, hcompleted, -, hrate⟩ := turnout_of_run rfl hbegin hcount ⟨some "OUSD", .waterPrice⟩
  refine ⟨hsent, hone, ?_⟩
  rw [hsent, hcompleted, hone] at hrate
  exact (hrate (by decide)).1

end Oracle

end WaterPeg
