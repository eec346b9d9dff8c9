import WaterPeg.Proofs.Oracle.Issues
import WaterPeg.Proofs.Oracle.SingleUse

/-!
The life of a store, on which one oracle may begin after another. An oracle finds every record of the
one before it, apart from turnouts whose keys share an id. The count of the issued invites is not
stored: an oracle takes it up after the latest invite that it finds. So a place in the order of issue
is given away again exactly where the latest invite was pruned, and another oracle issues after that.
-/
namespace WaterPeg

/-! ## Loading the count -/

namespace Tables

theorem foldl_place_le {invites : List Invite} {n m : Nat} (hn : n ≤ m)
    (h : ∀ i ∈ invites, i.sequence.toNat < m) :
    invites.foldl (fun n i => max n (i.sequence.toNat + 1)) n ≤ m := by
  induction invites generalizing n with
  | nil => exact hn
  | cons i invites ih =>
    have hi := h i List.mem_cons_self
    rw [List.foldl_cons]
    exact ih (by omega) fun j hj => h j (List.mem_cons_of_mem i hj)

theorem le_foldl_place (invites : List Invite) (n : Nat) :
    n ≤ invites.foldl (fun n i => max n (i.sequence.toNat + 1)) n ∧
      ∀ i ∈ invites,
        i.sequence.toNat < invites.foldl (fun n i => max n (i.sequence.toNat + 1)) n := by
  induction invites generalizing n with
  | nil => exact ⟨Nat.le_refl n, nofun⟩
  | cons i invites ih =>
    obtain ⟨hle, hall⟩ := ih (max n (i.sequence.toNat + 1))
    rw [List.foldl_cons]
    refine ⟨by omega, fun j hj => ?_⟩
    rcases List.mem_cons.1 hj with rfl | hj
    · omega
    · exact hall j hj

theorem sequenceAfter_le {invites : Table Digest Invite} {n : Nat}
    (h : ∀ (id : Digest) i, invites[id]? = some i → i.sequence.toNat < n) :
    sequenceAfter invites ≤ n := by
  refine foldl_place_le (Nat.zero_le n) fun i hi => ?_
  obtain ⟨id, hid⟩ := Table.mem_values.1 hi
  exact h id i hid

theorem lt_sequenceAfter {invites : Table Digest Invite} {id : Digest} {i : Invite}
    (h : invites[id]? = some i) : i.sequence.toNat < sequenceAfter invites :=
  (le_foldl_place invites.values 0).2 i (Table.mem_values.2 ⟨id, h⟩)

theorem keyed_of_load {s : Store} {t : Tables} (h : load s = .ok t) : t.Keyed := by
  have hloaded := loaded_of_load h
  obtain ⟨water, -, hwater⟩ := hloaded.water
  obtain ⟨rates, -, hrates⟩ := hloaded.rates
  obtain ⟨invites, -, hinvites⟩ := hloaded.invites
  refine ⟨?_, ?_, ?_⟩
  · rw [hwater]
    exact fun id r hr => Table.key_of_getElem?_foldl_insert Reading.id water hr
  · rw [hrates]
    exact fun id r hr => Table.key_of_getElem?_foldl_insert Reading.id rates hr
  · rw [hinvites]
    exact fun id i hi => Table.key_of_getElem?_foldl_insert Invite.id invites hi

end Tables

namespace Oracle

/-! ## Lives -/

/-- Something that befalls a store: an event of the oracle over it, or the beginning of another
oracle in its place. -/
inductive Chapter
  | event (e : Event)
  | reopen (directory : Directory) (config : Config)

/-- The oracle over the store after a chapter. Where no other can begin, the former stays. -/
def through (o : Oracle) : Chapter → Oracle
  | .event e => o.step e
  | .reopen directory config =>
    match begin? o.store directory config with
    | .ok q => q
    | .error _ => o

theorem through_of_ok {o q : Oracle} {directory : Directory} {config : Config}
    (h : begin? o.store directory config = .ok q) : o.through (.reopen directory config) = q := by
  simp only [through, h]

theorem through_of_error {o : Oracle} {directory : Directory} {config : Config} {why : StoreError}
    (h : begin? o.store directory config = .error why) :
    o.through (.reopen directory config) = o := by
  simp only [through, h]

/-- A chapter ends with an event, with another oracle, or with the former one where none begins. -/
theorem through_cases {P : Chapter → Oracle → Prop} {o : Oracle}
    (hevent : ∀ e, P (.event e) (o.step e))
    (hreopen : ∀ {directory config q}, begin? o.store directory config = .ok q →
      P (.reopen directory config) q)
    (hstay : ∀ directory config, P (.reopen directory config) o) (c : Chapter) :
    P c (o.through c) := by
  cases c with
  | event e => exact hevent e
  | reopen directory config =>
    cases hbegin : begin? o.store directory config with
    | ok q =>
      rw [through_of_ok hbegin]
      exact hreopen hbegin
    | error why =>
      rw [through_of_error hbegin]
      exact hstay directory config

def live (o : Oracle) (life : List Chapter) : Oracle := life.foldl through o

/-- What edits keep, and counting on, the tables keep that they make. -/
theorem Edited.invariant {P : Tables → Prop} {t t' : Tables} (h : Edited t t')
    (hedit : ∀ (t : Tables) e, P t → P (t.apply e))
    (hcount : ∀ (t : Tables) n, P t → P { t with nextSequence := n }) (ht : P t) : P t' := by
  obtain ⟨edits, n, -⟩ := h
  refine hcount _ n ?_
  exact List.foldlRecOn edits Tables.apply ht fun t ht e _ => hedit t e ht

/-- What loading gives, and edits and counting on keep, holds of the tables all through a life. -/
theorem live_invariant {P : Tables → Prop} (hload : ∀ s t, Tables.load s = .ok t → P t)
    (hedit : ∀ (t : Tables) e, P t → P (t.apply e))
    (hcount : ∀ (t : Tables) n, P t → P { t with nextSequence := n }) {o : Oracle} (h : P o.tables)
    (life : List Chapter) : P (o.live life).tables := by
  refine List.foldlRecOn life through (motive := fun o => P o.tables) h fun o ho c _ => ?_
  refine through_cases (P := fun _ q => P q.tables) (fun e => ?_) (fun hbegin => ?_)
    (fun _ _ => ho) c
  · exact (edited_step o e).invariant hedit hcount ho
  · exact hload _ _ (tables_of_begin? hbegin).1

theorem keyed_live {store : Store} {directory : Directory} {config : Config} {o : Oracle}
    (hbegin : begin? store directory config = .ok o) (life : List Chapter) :
    (o.live life).tables.Keyed :=
  live_invariant (fun _ _ => Tables.keyed_of_load) (fun _ e h => h.apply e)
    (fun _ _ h => ⟨h.water, h.rates, h.invites⟩)
    (Tables.keyed_of_load (tables_of_begin? hbegin).1) life

/-! ## What the store keeps -/

/-- The store of the oracle can be loaded, and restores its tables. -/
def Kept (o : Oracle) : Prop := o.tables.Mirrored (fun _ => True) o.store.entries

theorem kept_of_empty {store : Store} {directory : Directory} {config : Config} {o : Oracle}
    (hempty : store.entries = ∅) (hbegin : begin? store directory config = .ok o) : o.Kept := by
  unfold Kept
  rw [tables_of_begin?_of_empty hempty hbegin, (tables_of_begin? hbegin).2, hempty]
  exact Tables.mirrored_empty

namespace Kept

variable {o : Oracle} (h : o.Kept)

include h

theorem keyed : o.tables.Keyed := Tables.Mirrored.keyed h

theorem step (e : Event) : (o.step e).Kept :=
  step_invariant (P := Tables.Mirrored fun _ => True) (fun e _ _ ht => ht.apply e.putsFor_any) h
    (fun _ _ n ht => ht.setSequence n) e

theorem begin? {directory : Directory} {config : Config} {q : Oracle}
    (hbegin : begin? o.store directory config = .ok q) :
    q.Kept ∧ o.tables.Restores q.tables := by
  obtain ⟨hload, hstore⟩ := tables_of_begin? hbegin
  refine ⟨?_, Tables.Mirrored.restores h hload⟩
  unfold Kept
  rw [hstore]
  exact Tables.Mirrored.of_load h hload

end Kept

/-! ## Lives under the same parameters -/

def Chapter.Under (p : MeasurementParams) : Chapter → Prop
  | .event _ => True
  | .reopen _ config => config.measurement = p

/-- An oracle under these parameters whose store restores its tables. -/
structure Retains (o : Oracle) (p : MeasurementParams) : Prop where
  kept : o.Kept
  params_eq : o.params = p

theorem params_of_begin? {store : Store} {directory : Directory} {config : Config} {o : Oracle}
    (h : begin? store directory config = .ok o) : o.params = config.measurement := by
  obtain ⟨tables, -, h⟩ := bind_eq_ok_iff.1 h
  obtain rfl := Except.ok.inj h
  rfl

theorem retains_of_empty {store : Store} {directory : Directory} {config : Config} {o : Oracle}
    (hempty : store.entries = ∅) (hbegin : begin? store directory config = .ok o) :
    o.Retains config.measurement :=
  ⟨kept_of_empty hempty hbegin, params_of_begin? hbegin⟩

namespace Retains

variable {o : Oracle} {p : MeasurementParams} (h : o.Retains p)

include h

theorem step (e : Event) : (o.step e).Retains p :=
  ⟨h.kept.step e, (sameSetup_step o e).params_eq.trans h.params_eq⟩

theorem begin? {directory : Directory} {config : Config} {q : Oracle}
    (hbegin : begin? o.store directory config = .ok q) : q.Retains config.measurement :=
  ⟨(h.kept.begin? hbegin).1, params_of_begin? hbegin⟩

theorem through {c : Chapter} (hc : c.Under p) : (o.through c).Retains p :=
  through_cases (P := fun c q => c.Under p → q.Retains p) (fun e _ => h.step e)
    (fun hbegin hp => hp ▸ h.begin? hbegin) (fun _ _ _ => h) c hc

theorem live {life : List Chapter} (hlife : ∀ c ∈ life, c.Under p) : (o.live life).Retains p :=
  List.foldlRecOn life Oracle.through (motive := (·.Retains p)) h
    fun _ ho c hc => ho.through (hlife c hc)

end Retains

/-! ## Invites over a life -/

def issuedBy (o : Oracle) : Chapter → List Invite
  | .event e => o.issuedIn e
  | .reopen _ _ => []

def issuedOver (o : Oracle) : List Chapter → List Invite
  | [] => []
  | c :: life => o.issuedBy c ++ (o.through c).issuedOver life

/-- The store can be read, and has lost the invite that was issued last. -/
def Forgets (o : Oracle) : Prop :=
  o.store.readsFail = false ∧ ∃ n, o.tables.nextSequence = n + 1 ∧
    ∀ (id : Digest) i, o.tables.invites[id]? = some i → i.sequence.toNat ≠ n

/-- Once an oracle has begun over a store that lost the invite that was issued last, no more are
issued. -/
def CountsOn (o : Oracle) (life : List Chapter) : Prop :=
  ∀ before directory config after, life = before ++ .reopen directory config :: after →
    (o.live before).Forgets →
      ((o.live before).through (.reopen directory config)).issuedOver after = []

theorem CountsOn.tail {o : Oracle} {c : Chapter} {life : List Chapter} (h : o.CountsOn (c :: life)) :
    (o.through c).CountsOn life := by
  intro before directory config after hlife hforgets
  exact h (c :: before) directory config after (congrArg (c :: ·) hlife) hforgets

theorem issuedOver_append (o : Oracle) (life life' : List Chapter) :
    o.issuedOver (life ++ life') = o.issuedOver life ++ (o.live life).issuedOver life' := by
  induction life generalizing o with
  | nil => rfl
  | cons c life ih =>
    exact (congrArg (o.issuedBy c ++ ·) (ih _)).trans (List.append_assoc ..).symm

/-! ## The count and the issued invites -/

/-- The places of an issue follow on each other. -/
theorem places_draft (o : Oracle) (count : Nat) (kind : MeasurementKind) (currency : Option String)
    (now blockHeight : UInt64)
    (h : o.tables.nextSequence + (o.draft count kind currency now blockHeight).length ≤
      UInt64.size) :
    (o.draft count kind currency now blockHeight).map (·.sequence.toNat) =
      List.range' o.tables.nextSequence (o.draft count kind currency now blockHeight).length := by
  refine List.ext_getElem (by simp) fun n hn _ => ?_
  rw [List.length_map] at hn
  have hplace : o.tables.nextSequence + n < UInt64.size := by omega
  simp only [List.getElem_map, List.getElem_range', Nat.one_mul, draft, List.getElem_mapIdx]
  exact UInt64.toNat_ofNat_of_lt' hplace

theorem places_issuedIn {o : Oracle} (hkeyed : o.tables.Keyed) {e : Event}
    (h : o.tables.nextSequence + (o.issuedIn e).length ≤ UInt64.size) :
    (o.issuedIn e).map (·.sequence.toNat) =
      List.range' o.tables.nextSequence (o.issuedIn e).length := by
  cases posting hkeyed e with
  | idle hissued => rw [hissued, List.map_nil, List.length_nil, List.range'_zero]
  | issue count kind currency now blockHeight hissued =>
    rw [hissued] at h ⊢
    exact o.places_draft count kind currency now blockHeight h
  | acceptance id i now hissued => rw [hissued, List.map_nil, List.length_nil, List.range'_zero]

theorem Turn.place_lt {o : Oracle} {e : Event} {id : Digest} {before after : Option Invite}
    (hturn : o.Turn e id before after)
    (hbefore : ∀ i, before = some i → i.sequence.toNat < o.tables.nextSequence)
    (hle : o.tables.nextSequence ≤ (o.step e).tables.nextSequence) {i : Invite}
    (hi : after = some i) : i.sequence.toNat < (o.step e).tables.nextSequence := by
  cases hturn with
  | kept =>
    have hold := hbefore i hi
    omega
  | issued _ _ _ hplace =>
    obtain rfl := Option.some.inj hi
    exact hplace.2
  | @used j | @expired j =>
    have hold := hbefore j rfl
    obtain rfl := Option.some.inj hi
    dsimp only
    omega
  | dropped => exact nomatch hi

structure Counted (o : Oracle) (past : List Invite) : Prop where
  kept : o.Kept
  below : ∀ (id : Digest) i, o.tables.invites[id]? = some i →
    i.sequence.toNat < o.tables.nextSequence
  /-- Every place below the count was given away. -/
  reached : ∀ n < o.tables.nextSequence, ∃ i ∈ past, i.sequence.toNat = n
  bounded : o.tables.nextSequence ≤ past.length

namespace Counted

variable {o : Oracle} {past : List Invite} (h : o.Counted past)

include h

theorem step {e : Event} (hsize : (past ++ o.issuedIn e).length ≤ UInt64.size) :
    (o.step e).Counted (past ++ o.issuedIn e) := by
  have hbounded := h.bounded
  have hnext := nextSequence_step h.kept.keyed e
  rw [List.length_append] at hsize
  have hplaces := places_issuedIn h.kept.keyed (e := e) (by omega)
  refine ⟨h.kept.step e, ?_, ?_, ?_⟩
  · intro id i hi
    have hturn := turn_step h.kept.keyed (e := e) (by omega) id
    exact hturn.place_lt (h.below id) (by omega) hi
  · intro n hn
    rcases Nat.lt_or_ge n o.tables.nextSequence with hold | hnew
    · obtain ⟨i, hi, hplace⟩ := h.reached n hold
      exact ⟨i, List.mem_append_left _ hi, hplace⟩
    · have hmem : n ∈ (o.issuedIn e).map (·.sequence.toNat) := by
        rw [hplaces, List.mem_range'_1]
        omega
      obtain ⟨i, hi, hplace⟩ := List.mem_map.1 hmem
      exact ⟨i, List.mem_append_right _ hi, hplace⟩
  · rw [List.length_append]
    omega

theorem begin? {directory : Directory} {config : Config} {q : Oracle}
    (hbegin : begin? o.store directory config = .ok q) :
    q.Counted past ∧ q.tables.nextSequence = Tables.sequenceAfter o.tables.invites := by
  obtain ⟨hkept, hrestores⟩ := h.kept.begin? hbegin
  have hnext := hrestores.nextSequence
  have hle : Tables.sequenceAfter o.tables.invites ≤ o.tables.nextSequence :=
    Tables.sequenceAfter_le h.below
  refine ⟨⟨hkept, ?_, ?_, ?_⟩, hnext⟩
  · intro id i hi
    rw [hrestores.invites] at hi
    rw [hnext]
    exact Tables.lt_sequenceAfter hi
  · exact fun n hn => h.reached n (by omega)
  · have hbounded := h.bounded
    omega

/-- Another oracle takes up the count, unless the latest invite is gone. -/
theorem nextSequence_begin? {directory : Directory} {config : Config} {q : Oracle}
    (hbegin : Oracle.begin? o.store directory config = .ok q) (hkeeps : ¬o.Forgets) :
    q.tables.nextSequence = o.tables.nextSequence := by
  obtain ⟨-, hnext⟩ := h.begin? hbegin
  obtain ⟨hload, -⟩ := tables_of_begin? hbegin
  obtain ⟨rs, hrs, -⟩ := (Tables.loaded_of_load hload).invites
  have hle : Tables.sequenceAfter o.tables.invites ≤ o.tables.nextSequence :=
    Tables.sequenceAfter_le h.below
  rw [hnext]
  cases hplace : o.tables.nextSequence with
  | zero => omega
  | succ n =>
    refine Decidable.byContradiction fun hne => ?_
    refine hkeeps ⟨Store.readsFail_of_records hrs, n, hplace, fun id i hi hlast => ?_⟩
    have hlt := Tables.lt_sequenceAfter hi
    omega

/-- Where it is gone, the count falls back. -/
theorem nextSequence_of_forgets (hforgets : o.Forgets) (directory : Directory) (config : Config) :
    (o.through (.reopen directory config)).tables.nextSequence < o.tables.nextSequence := by
  obtain ⟨hreads, n, hplace, hgone⟩ := hforgets
  obtain ⟨t, hload⟩ := Tables.Mirrored.exists_load h.kept hreads
  have hbegin := begin?_of_load hload directory config
  obtain ⟨-, hnext⟩ := h.begin? hbegin
  have hle : Tables.sequenceAfter o.tables.invites ≤ n := by
    refine Tables.sequenceAfter_le fun id i hi => ?_
    have hbelow := h.below id i hi
    have hne := hgone id i hi
    omega
  rw [through_of_ok hbegin]
  omega

theorem through {c : Chapter} (hsize : (past ++ o.issuedBy c).length ≤ UInt64.size) :
    (o.through c).Counted (past ++ o.issuedBy c) := by
  cases c with
  | event e => exact h.step hsize
  | reopen directory config =>
    have hnone : past ++ o.issuedBy (.reopen directory config) = past := List.append_nil past
    rw [hnone]
    cases hbegin : Oracle.begin? o.store directory config with
    | ok q =>
      rw [through_of_ok hbegin]
      exact (h.begin? hbegin).1
    | error why =>
      rw [through_of_error hbegin]
      exact h

theorem places_issuedBy {c : Chapter} (hsize : (past ++ o.issuedBy c).length ≤ UInt64.size) :
    (o.issuedBy c).map (·.sequence.toNat) =
      List.range' o.tables.nextSequence (o.issuedBy c).length := by
  cases c with
  | event e =>
    have hbounded := h.bounded
    have hissued : o.issuedBy (.event e) = o.issuedIn e := rfl
    rw [hissued, List.length_append] at hsize
    rw [hissued]
    exact places_issuedIn h.kept.keyed (by omega)
  | reopen => rfl

theorem nextSequence_through_le {c : Chapter} (hnone : o.issuedBy c = []) :
    (o.through c).tables.nextSequence ≤ o.tables.nextSequence := by
  refine through_cases (P := fun c q => o.issuedBy c = [] →
    q.tables.nextSequence ≤ o.tables.nextSequence) (fun e hnone => ?_) (fun hbegin _ => ?_)
    (fun _ _ _ => Nat.le_refl _) c hnone
  · have hnext := nextSequence_step h.kept.keyed e
    have hissued : o.issuedBy (.event e) = o.issuedIn e := rfl
    rw [← hissued, hnone] at hnext
    exact Nat.le_of_eq hnext
  · rw [(h.begin? hbegin).2]
    exact Tables.sequenceAfter_le h.below

theorem nextSequence_through {c : Chapter} (hkeeps : o.Forgets → ∃ e, c = .event e) :
    (o.through c).tables.nextSequence = o.tables.nextSequence + (o.issuedBy c).length := by
  cases c with
  | event e => exact nextSequence_step h.kept.keyed e
  | reopen directory config =>
    have hnone : o.issuedBy (.reopen directory config) = [] := rfl
    rw [hnone, List.length_nil, Nat.add_zero]
    cases hbegin : Oracle.begin? o.store directory config with
    | ok q =>
      rw [through_of_ok hbegin]
      refine h.nextSequence_begin? hbegin fun hforgets => ?_
      obtain ⟨e, he⟩ := hkeeps hforgets
      exact nomatch he
    | error why => rw [through_of_error hbegin]

section

variable {life : List Chapter} (hsize : (past ++ o.issuedOver life).length ≤ UInt64.size)

include hsize

theorem live : (o.live life).Counted (past ++ o.issuedOver life) := by
  induction life generalizing o past with
  | nil => rwa [issuedOver, List.append_nil]
  | cons c life ih =>
    rw [issuedOver, ← List.append_assoc] at hsize ⊢
    have hfirst : (past ++ o.issuedBy c).length ≤ UInt64.size := by
      rw [List.length_append] at hsize
      omega
    exact ih (h.through hfirst) hsize

/-- The first invite that is issued takes the place that the count stands at, or an earlier one if
oracles begin before that. -/
theorem place_head_le {i : Invite} {rest : List Invite} (hlife : o.issuedOver life = i :: rest) :
    i.sequence.toNat ≤ o.tables.nextSequence := by
  induction life generalizing o past with
  | nil => exact nomatch hlife
  | cons c life ih =>
    rw [issuedOver, ← List.append_assoc] at hsize
    rw [issuedOver] at hlife
    have hfirst : (past ++ o.issuedBy c).length ≤ UInt64.size := by
      rw [List.length_append] at hsize
      omega
    have hplaces := h.places_issuedBy hfirst
    cases hc : o.issuedBy c with
    | nil =>
      rw [hc] at hlife
      have hle := h.nextSequence_through_le hc
      have hhead := ih (h.through hfirst) hsize hlife
      omega
    | cons j issued =>
      rw [hc] at hlife hplaces
      obtain ⟨rfl, -⟩ := List.cons.inj hlife
      rw [List.map_cons, List.length_cons, List.range'_succ] at hplaces
      exact Nat.le_of_eq (List.cons.inj hplaces).1

/-- While no oracle issues after the count fell back, the places only rise. -/
theorem places_rise (hlife : o.CountsOn life) :
    ((o.issuedOver life).map (·.sequence.toNat)).Pairwise (· < ·) ∧
      ∀ n ∈ (o.issuedOver life).map (·.sequence.toNat), o.tables.nextSequence ≤ n := by
  induction life generalizing o past with
  | nil => exact ⟨.nil, nofun⟩
  | cons c life ih =>
    rw [issuedOver, ← List.append_assoc] at hsize
    have hfirst : (past ++ o.issuedBy c).length ≤ UInt64.size := by
      rw [List.length_append] at hsize
      omega
    obtain ⟨hrise, hfrom⟩ := ih (h.through hfirst) hsize hlife.tail
    rw [issuedOver, List.map_append, h.places_issuedBy hfirst]
    by_cases hkeeps : o.Forgets → ∃ e, c = .event e
    · have hnext := h.nextSequence_through hkeeps
      constructor
      · refine List.pairwise_append.2 ⟨List.pairwise_lt_range', hrise, fun a ha b hb => ?_⟩
        have hlt := (List.mem_range'_1.1 ha).2
        have hge := hfrom b hb
        omega
      · intro n hn
        rcases List.mem_append.1 hn with hn | hn
        · exact (List.mem_range'_1.1 hn).1
        · have hge := hfrom n hn
          omega
    · -- The chapter is a reopening after which nothing more is issued.
      obtain ⟨hforgets, hevent⟩ := Classical.not_imp.1 hkeeps
      cases c with
      | event e => exact absurd ⟨e, rfl⟩ hevent
      | reopen directory config =>
        have hissued : o.issuedBy (.reopen directory config) = [] := rfl
        have hnone : (o.through (.reopen directory config)).issuedOver life = [] :=
          hlife [] directory config life rfl hforgets
        rw [hissued, hnone]
        exact ⟨.nil, nofun⟩

/-- Where no place is given away twice, nothing is issued after the count fell back. -/
theorem countsOn_of_nodup (hnodup : ((past ++ o.issuedOver life).map (·.sequence.toNat)).Nodup) :
    o.CountsOn life := by
  rintro before directory config after rfl hforgets
  cases hafter : ((o.live before).through (.reopen directory config)).issuedOver after with
  | nil => rfl
  | cons i rest =>
    have hissued : (o.live before).issuedOver (.reopen directory config :: after) = i :: rest :=
      hafter
    rw [issuedOver_append, hissued, ← List.append_assoc] at hsize hnodup
    have hbefore : (past ++ o.issuedOver before).length ≤ UInt64.size := by
      rw [List.length_append] at hsize
      omega
    have hlive := h.live hbefore
    have hsame : (past ++ o.issuedOver before) ++
        (o.live before).issuedBy (.reopen directory config) = past ++ o.issuedOver before :=
      List.append_nil _
    have hreopened := hlive.through (c := .reopen directory config) (by rwa [hsame])
    rw [hsame] at hreopened
    rw [← hafter] at hsize
    have hhead := hreopened.place_head_le hsize hafter
    have hfalls := hlive.nextSequence_of_forgets hforgets directory config
    -- The place was given away before the count fell back.
    obtain ⟨j, hj, hplace⟩ := hlive.reached i.sequence.toNat (by omega)
    rw [List.map_append] at hnodup
    have hearlier : i.sequence.toNat ∈ (past ++ o.issuedOver before).map (·.sequence.toNat) :=
      List.mem_map.2 ⟨j, hj, hplace⟩
    have hlater : i.sequence.toNat ∈ (i :: rest).map (·.sequence.toNat) :=
      List.mem_map.2 ⟨i, List.mem_cons_self, rfl⟩
    exact absurd rfl ((List.nodup_append.1 hnodup).2.2 _ hearlier _ hlater)

end

end Counted

theorem counted_of_empty {store : Store} {directory : Directory} {config : Config} {o : Oracle}
    (hempty : store.entries = ∅) (hbegin : begin? store directory config = .ok o) :
    o.Counted [] := by
  have htables := tables_of_begin?_of_empty hempty hbegin
  refine ⟨kept_of_empty hempty hbegin, ?_, ?_, ?_⟩
  · intro id i hi
    rw [htables] at hi
    simp [Tables.empty] at hi
  · intro n hn
    rw [htables] at hn
    exact absurd hn (Nat.not_lt_zero n)
  · rw [htables]
    exact Nat.le_refl 0

/-- In the life of a store each invite has a later place than those issued before it, and no place
is given away twice, exactly if nothing is issued any more once an oracle has begun over the store
without the invite that was issued last. -/
theorem places_rise_iff_countsOn {store : Store} {directory : Directory} {config : Config}
    {o : Oracle} (hempty : store.entries = ∅) (hbegin : begin? store directory config = .ok o)
    {life : List Chapter} (hcount : (o.issuedOver life).length ≤ UInt64.size) :
    ((o.issuedOver life).Pairwise (fun i j => i.sequence < j.sequence) ↔ o.CountsOn life) ∧
      (((o.issuedOver life).map Invite.sequence).Nodup ↔ o.CountsOn life) := by
  have hcounted := counted_of_empty hempty hbegin
  have hrise (h : o.CountsOn life) :
      (o.issuedOver life).Pairwise fun i j => i.sequence < j.sequence := by
    have hplaces := List.pairwise_map.1 (hcounted.places_rise hcount h).1
    exact hplaces.imp fun hlt => UInt64.lt_iff_toNat_lt.2 hlt
  have hnodup (h : (o.issuedOver life).Pairwise fun i j => i.sequence < j.sequence) :
      ((o.issuedOver life).map Invite.sequence).Nodup := by
    refine List.pairwise_map.2 (h.imp fun {i j} hlt heq => ?_)
    rw [heq] at hlt
    exact absurd hlt (UInt64.lt_irrefl _)
  have hcounts (h : ((o.issuedOver life).map Invite.sequence).Nodup) : o.CountsOn life := by
    refine hcounted.countsOn_of_nodup hcount ?_
    have hplaces : (o.issuedOver life).map (·.sequence.toNat) =
        ((o.issuedOver life).map Invite.sequence).map UInt64.toNat := by simp
    rw [List.nil_append, hplaces]
    exact List.pairwise_map.2 (h.imp fun hne heq => hne (UInt64.toNat_inj.1 heq))
  exact ⟨⟨hcounts ∘ hnodup, hrise⟩, ⟨hcounts, hnodup ∘ hrise⟩⟩

/-- Ada lets an invite lapse, which is pruned. The next oracle invites her again. -/
def adasLife : List Chapter :=
  [.event (.request (.issue 1 .waterPrice (some "OUSD") 1750000000 1)),
    .event (.request (.expireInvites 1760000000)),
    .event (.request (.prune 1770000000)),
    .reopen adaAlone {},
    .event (.request (.issue 1 .waterPrice (some "OUSD") 1770000000 2))]

theorem places_of_adasLife :
    ((fresh adaAlone {}).issuedOver adasLife).map Invite.sequence = [0, 0] ∧
      ¬(fresh adaAlone {}).CountsOn adasLife := by
  have hbegin : begin? .empty adaAlone {} = .ok (fresh adaAlone {}) := rfl
  have hplaces : ((fresh adaAlone {}).issuedOver adasLife).map Invite.sequence = [0, 0] := by
    decide +kernel
  have hcount : ((fresh adaAlone {}).issuedOver adasLife).length ≤ UInt64.size := by
    decide +kernel
  have hiff := (places_rise_iff_countsOn rfl hbegin hcount).2
  rw [hplaces] at hiff
  refine ⟨hplaces, fun hcounts => ?_⟩
  exact absurd (hiff.2 hcounts) (by decide)

end Oracle

end WaterPeg
