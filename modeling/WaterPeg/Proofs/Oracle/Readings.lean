import WaterPeg.Proofs.Oracle.Lives

/-!
What becomes of the observations in the life of a store. A chapter keeps the observation under an
id, accepts one there, adds a peer to it or prunes it; another oracle begins with the observations
that the last one left. What acceptance gives and endorsement keeps thus holds of all observations.
-/
namespace WaterPeg

namespace Tables

structure AllReadings (t : Tables) (P : Reading WaterPrice → Prop)
    (Q : Reading ExchangeRate → Prop) : Prop where
  water : ∀ (id : Digest) r, t.water[id]? = some r → P r
  rates : ∀ (id : Digest) r, t.rates[id]? = some r → Q r

theorem allReadings_empty (P : Reading WaterPrice → Prop) (Q : Reading ExchangeRate → Prop) :
    empty.AllReadings P Q := by
  constructor
  · intro id r hr
    simp [empty] at hr
  · intro id r hr
    simp [empty] at hr

end Tables

namespace Oracle

/-! ## One chapter -/

/-- Of all that acceptance changes, only the observation itself is one. -/
theorem readings_acceptance {α : Type} (a : Acceptance α) (put : Reading α → Edit) (t : Tables) :
    ((a.edits put).foldl Tables.apply t).water = (t.apply (put a.reading)).water ∧
      ((a.edits put).foldl Tables.apply t).rates = (t.apply (put a.reading)).rates := by
  unfold Acceptance.edits
  cases a.firstSeen with
  | none => exact ⟨rfl, rfl⟩
  | some first => exact ⟨rfl, rfl⟩

inductive Passage (ω : Type) {α : Type} [Quantity ω α] (o : Oracle) (c : Chapter) (id : Digest) :
    Option (Reading α) → Option (Reading α) → Prop
  | kept (r : Option (Reading α)) : Passage ω o c id r r
  | accepted {s : Submission ω} {now : UInt64} {invite : Invite} {measured : α}
      (hscreen : o.screen s now = .ok (invite, measured)) (moments : Option Moments) :
      Passage ω o c id none (some (o.acceptance s now invite measured moments).reading)
  | endorsed {r r' : Reading α} {validator : String}
      (hc : c = .event (.request (.endorse id validator)))
      (hendorse : r.endorse validator o.params.minValidators = .ok r') :
      Passage ω o c id (some r) (some r')
  | pruned (r : Reading α) {cutoff : UInt64} (hc : c = .event (.request (.prune cutoff))) :
      Passage ω o c id (some r) none

structure Passes (o : Oracle) (c : Chapter) (t : Tables) (id : Digest) : Prop where
  water : o.Passage WaterOffer c id o.tables.water[id]? t.water[id]?
  rates : o.Passage ExchangeRate c id o.tables.rates[id]? t.rates[id]?

section

variable {ω α : Type} [Quantity ω α] {o : Oracle} {c : Chapter} {id : Digest}

theorem passage_insert_acceptance {s : Submission ω} {now : UInt64} {invite : Invite} {measured : α}
    (hscreen : o.screen s now = .ok (invite, measured)) (moments : Option Moments)
    {table : Table Digest (Reading α)} (hnew : sha3 (s.preimage measured) ∉ table) :
    o.Passage ω c id table[id]?
      (table.insert (sha3 (s.preimage measured))
        (o.acceptance s now invite measured moments).reading)[id]? := by
  rw [Std.ExtTreeMap.getElem?_insert]
  split
  · next heq =>
    obtain rfl := Std.LawfulEqCmp.eq_of_compare heq
    rw [Std.ExtTreeMap.getElem?_eq_none hnew]
    exact .accepted hscreen moments
  · exact .kept _

theorem passage_insert_endorsed {table : Table Digest (Reading α)}
    (hkeyed : ∀ (k : Digest) r, table[k]? = some r → r.id = k) {target : Digest}
    {r r' : Reading α} (hr : table[target]? = some r) {validator : String}
    (hendorse : r.endorse validator o.params.minValidators = .ok r')
    (hc : c = .event (.request (.endorse target validator))) :
    o.Passage ω c id table[id]? (table.insert r'.id r')[id]? := by
  have htarget : r'.id = target := (id_of_endorse hendorse).1.trans (hkeyed target r hr)
  rw [htarget, Std.ExtTreeMap.getElem?_insert]
  split
  · next heq =>
    obtain rfl := Std.LawfulEqCmp.eq_of_compare heq
    rw [hr]
    exact .endorsed hc hendorse
  · exact .kept _

theorem passage_thinned {before after : Option (Reading α)}
    (h : after = before ∨ after = none) {cutoff : UInt64}
    (hc : c = .event (.request (.prune cutoff))) : o.Passage ω c id before after := by
  rcases h with rfl | rfl
  · exact .kept _
  · cases before with
    | none => exact .kept _
    | some r => exact .pruned r hc

theorem passes_of_eq {t : Tables} (hwater : t.water = o.tables.water)
    (hrates : t.rates = o.tables.rates) : o.Passes c t id := by
  constructor
  · rw [hwater]
    exact .kept _
  · rw [hrates]
    exact .kept _

theorem passes_foldl_apply {edits : List Edit} (h : ∀ e ∈ edits, e.KeepsReadings) :
    o.Passes c (edits.foldl Tables.apply o.tables) id := by
  obtain ⟨hwater, hrates⟩ := o.tables.readings_foldl_apply h
  exact passes_of_eq hwater hrates

theorem passes_commit {β : Type} {edits : List Edit} (result : β)
    (h : o.Passes c (edits.foldl Tables.apply o.tables) id) :
    o.Passes c (o.commit edits result).2.tables id := by
  rcases o.tables_commit edits result with heq | heq
  · rw [heq]
    exact passes_of_eq rfl rfl
  · rw [heq]
    exact h

theorem Clerical.passes {β : Type} {out : Outcome β} (h : o.Clerical out) :
    o.Passes c out.2.tables id := by
  cases h with
  | refused => exact passes_of_eq rfl rfl
  | committed edits result hedits =>
    exact passes_commit result (passes_foldl_apply fun e he => (hedits e he).keepsReadings)

theorem passes_issue (count : Nat) (kind : MeasurementKind) (currency : Option String)
    (now blockHeight : UInt64) :
    o.Passes c (o.issue count kind currency now blockHeight).2.tables id := by
  rcases o.tables_issue count kind currency now blockHeight with heq | heq
  · rw [heq]
    exact passes_of_eq rfl rfl
  · have hkeeps : ∀ e ∈ o.issueEdits count kind currency now blockHeight, e.KeepsReadings := by
      intro e he
      rcases mem_issueEdits he with ⟨i, -, rfl⟩ | rfl
      · trivial
      · trivial
    obtain ⟨hwater, hrates⟩ := o.tables.readings_foldl_apply hkeeps
    rw [heq]
    exact passes_of_eq hwater hrates

theorem passes_issueForTarget (target : UInt64) (kind : MeasurementKind) (currency : Option String)
    (now blockHeight : UInt64) :
    o.Passes c (o.issueForTarget target kind currency now blockHeight).2.tables id := by
  rcases o.issueForTarget_cases target kind currency now blockHeight with h | ⟨count, h⟩
  · rw [h]
    exact passes_of_eq rfl rfl
  · rw [h]
    exact passes_issue ..

/-- What a submission makes of the observations is what putting the accepted one does. -/
theorem passes_submit {s : Submission ω} {now : UInt64}
    (hput : ∀ {invite : Invite} {measured : α} (moments : Option Moments),
      o.screen s now = .ok (invite, measured) →
      sha3 (s.preimage measured) ∉ Quantity.readings ω o.tables →
      o.Passes c (o.tables.apply
        (Quantity.put ω (o.acceptance s now invite measured moments).reading)) id) :
    o.Passes c (o.submit s now).2.tables id := by
  rcases o.submit_cases s now with ⟨why, h⟩ | ⟨invite, measured, moments, store, hscreen, hnew, h⟩
  · rw [h]
    exact passes_of_eq rfl rfl
  · obtain ⟨hwater, hrates⟩ := readings_acceptance (o.acceptance s now invite measured moments)
      (Quantity.put ω) o.tables
    obtain ⟨hputWater, hputRates⟩ := hput moments hscreen hnew
    rw [h]
    constructor
    · rw [hwater]
      exact hputWater
    · rw [hrates]
      exact hputRates

end

variable {o : Oracle} {c : Chapter} {id : Digest}

theorem passes_endorse (hkeyed : o.tables.Keyed) (target : Digest) (validator : String)
    (hc : c = .event (.request (.endorse target validator))) :
    o.Passes c (o.endorse target validator).2.tables id := by
  unfold endorse
  split
  · next r hr =>
    split
    · exact passes_of_eq rfl rfl
    · next r' hendorse =>
      have hwater : o.Passage WaterOffer c id o.tables.water[id]?
          (o.tables.water.insert r'.id r')[id]? :=
        passage_insert_endorsed hkeyed.water hr hendorse hc
      exact passes_commit _ ⟨hwater, .kept _⟩
  · split
    · next r hr =>
      split
      · exact passes_of_eq rfl rfl
      · next r' hendorse =>
        have hrates : o.Passage ExchangeRate c id o.tables.rates[id]?
            (o.tables.rates.insert r'.id r')[id]? :=
          passage_insert_endorsed hkeyed.rates hr hendorse hc
        exact passes_commit _ ⟨.kept _, hrates⟩
    · exact passes_of_eq rfl rfl

theorem passes_prune (cutoff : UInt64) (hc : c = .event (.request (.prune cutoff))) :
    o.Passes c (o.prune cutoff).2.tables id := by
  have hthinned := o.thinned_prune cutoff
  exact ⟨passage_thinned (hthinned.water id) hc, passage_thinned (hthinned.rates id) hc⟩

theorem passes_expireInvites (now : UInt64) : o.Passes c (o.expireInvites now).2.tables id := by
  refine passes_commit _ (passes_foldl_apply fun e he => ?_)
  obtain ⟨i, -, rfl⟩ := List.mem_map.1 he
  trivial

/-- What an event makes of the observations under an id. -/
theorem passes_step (hkeyed : o.tables.Keyed) (e : Event) (id : Digest) :
    o.Passes (.event e) (o.step e).tables id := by
  cases e with
  | storeTurns => exact passes_of_eq rfl rfl
  | request r =>
    cases r with
    | issue => exact passes_issue ..
    | issueForTarget => exact passes_issueForTarget ..
    | submitWater =>
      exact passes_submit fun moments hscreen hnew =>
        ⟨passage_insert_acceptance hscreen moments hnew, .kept _⟩
    | submitRate =>
      exact passes_submit fun moments hscreen hnew =>
        ⟨.kept _, passage_insert_acceptance hscreen moments hnew⟩
    | endorse target validator => exact passes_endorse hkeyed target validator rfl
    | prune cutoff => exact passes_prune cutoff rfl
    | expireInvites now => exact passes_expireInvites now
    | rollUpDay => exact (clerical_rollUpDay ..).passes
    | registerUrl => exact (clerical_registerUrl ..).passes
    | endorseUrl => exact (clerical_endorseUrl ..).passes
    | recordUrlCheck => exact (clerical_recordUrlCheck ..).passes

theorem Retains.passes {p : MeasurementParams} (h : o.Retains p) (hc : c.Under p) (id : Digest) :
    o.Passes c (o.through c).tables id := by
  refine through_cases (P := fun c q => c.Under p → o.Passes c q.tables id) (fun e _ => ?_)
    (fun hbegin _ => ?_) (fun _ _ _ => passes_of_eq rfl rfl) c hc
  · exact passes_step h.kept.keyed e id
  · have hrestores := (h.kept.begin? hbegin).2
    exact passes_of_eq hrestores.water hrestores.rates

/-! ## What holds of all observations -/

/-- A property that accepted observations have, and keep when peers endorse them. -/
structure Lasting (ω : Type) {α : Type} [Quantity ω α] (p : MeasurementParams)
    (P : Reading α → Prop) : Prop where
  accepted : ∀ {o : Oracle} {s : Submission ω} {now : UInt64} {invite : Invite} {measured : α},
    o.params = p → o.screen s now = .ok (invite, measured) → ∀ moments : Option Moments,
      P (o.acceptance s now invite measured moments).reading
  endorsed : ∀ {r r' : Reading α} {validator : String}, P r →
    r.endorse validator p.minValidators = .ok r' → P r'

theorem Lasting.passage {ω α : Type} [Quantity ω α] {p : MeasurementParams} {P : Reading α → Prop}
    (hP : Lasting ω p P) (hparams : o.params = p) {before after : Option (Reading α)}
    (h : o.Passage ω c id before after) (hbefore : ∀ r, before = some r → P r) :
    ∀ r, after = some r → P r := by
  intro r' hr'
  cases h with
  | kept => exact hbefore r' hr'
  | accepted hscreen moments =>
    rw [← Option.some.inj hr']
    exact hP.accepted hparams hscreen moments
  | @endorsed r _ _ _ hendorse =>
    rw [← Option.some.inj hr']
    rw [hparams] at hendorse
    exact hP.endorsed (hbefore r rfl) hendorse
  | pruned => exact nomatch hr'

section

variable {p : MeasurementParams} {P : Reading WaterPrice → Prop} {Q : Reading ExchangeRate → Prop}
  (hP : Lasting WaterOffer p P) (hQ : Lasting ExchangeRate p Q)

include hP hQ

theorem allReadings_through (h : o.Retains p) (hc : c.Under p) (hall : o.tables.AllReadings P Q) :
    (o.through c).tables.AllReadings P Q := by
  constructor
  · intro id
    exact hP.passage h.params_eq (h.passes hc id).water (hall.water id)
  · intro id
    exact hQ.passage h.params_eq (h.passes hc id).rates (hall.rates id)

theorem allReadings_live (h : o.Retains p) (hall : o.tables.AllReadings P Q) {life : List Chapter}
    (hlife : ∀ c ∈ life, c.Under p) : (o.live life).tables.AllReadings P Q := by
  refine (List.foldlRecOn life through
    (motive := fun o => o.Retains p ∧ o.tables.AllReadings P Q) ⟨h, hall⟩ fun _ ho c hc => ?_).2
  exact ⟨ho.1.through (hlife c hc), allReadings_through hP hQ ho.1 (hlife c hc) ho.2⟩

end

/-- Properties that acceptance gives and endorsement keeps hold of all observations, in every life
of a store that was empty. -/
theorem allReadings_of_empty {config : Config} {P : Reading WaterPrice → Prop}
    {Q : Reading ExchangeRate → Prop} (hP : Lasting WaterOffer config.measurement P)
    (hQ : Lasting ExchangeRate config.measurement Q) {store : Store} {directory : Directory}
    (hempty : store.entries = ∅) (hbegin : begin? store directory config = .ok o)
    {life : List Chapter} (hlife : ∀ c ∈ life, c.Under config.measurement) :
    (o.live life).tables.AllReadings P Q := by
  refine allReadings_live hP hQ (retains_of_empty hempty hbegin) ?_ hlife
  rw [tables_of_begin?_of_empty hempty hbegin]
  exact Tables.allReadings_empty P Q

/-- What acceptance gives under any parameters holds in every life, whichever parameters the oracles
begin under. -/
theorem allReadings_of_anyParams {config : Config} {P : Reading WaterPrice → Prop}
    {Q : Reading ExchangeRate → Prop} (hP : ∀ p, Lasting WaterOffer p P)
    (hQ : ∀ p, Lasting ExchangeRate p Q) {store : Store} {directory : Directory}
    (hempty : store.entries = ∅) (hbegin : begin? store directory config = .ok o)
    (life : List Chapter) : (o.live life).tables.AllReadings P Q := by
  have hbegun : o.tables.AllReadings P Q := by
    rw [tables_of_begin?_of_empty hempty hbegin]
    exact Tables.allReadings_empty P Q
  refine (List.foldlRecOn life through
    (motive := fun o => (∃ p, o.Retains p) ∧ o.tables.AllReadings P Q)
    ⟨⟨_, retains_of_empty hempty hbegin⟩, hbegun⟩ fun o ⟨⟨p, h⟩, hall⟩ c _ => ?_).2
  refine through_cases (P := fun _ q => (∃ p, q.Retains p) ∧ q.tables.AllReadings P Q)
    (fun e => ?_) (fun hbegin => ?_) (fun _ _ => ⟨⟨p, h⟩, hall⟩) c
  · have hunder : Chapter.Under p (.event e) := trivial
    exact ⟨⟨p, h.step e⟩, allReadings_through (hP p) (hQ p) h hunder hall⟩
  · have hrestores := (h.kept.begin? hbegin).2
    refine ⟨⟨_, h.begin? hbegin⟩, ⟨?_, ?_⟩⟩
    · rw [hrestores.water]
      exact hall.water
    · rw [hrestores.rates]
      exact hall.rates

end Oracle

end WaterPeg
