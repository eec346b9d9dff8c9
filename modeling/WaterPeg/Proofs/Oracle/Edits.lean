import WaterPeg.Proofs.Oracle.Requests
import WaterPeg.Proofs.Tables

/-! What single edits, and edits in a row, do to the tables of the oracle. -/
namespace WaterPeg

/-! ## Keys -/

/-- Where an edit is written: under a kind of record and an id. -/
def Edit.slot : Edit → RecordKind × Bytes
  | .putWater r => (.waterPrice, r.id.bytes)
  | .putRate r => (.exchangeRate, r.id.bytes)
  | .putInvite i => (.invite, i.id.bytes)
  | .putTurnout t => (.turnout, t.key.storeId)
  | .putRollup r => (.rollup, r.key.storeId)
  | .putUrl u => (.sourceUrl, u.id.bytes)
  | .putFirstSeen currency _ => (.firstSeen, Bytes.ofString currency)
  | .dropWater id => (.waterPrice, id.bytes)
  | .dropRate id => (.exchangeRate, id.bytes)
  | .dropInvite id => (.invite, id.bytes)

theorem Edit.key_entry (e : Edit) : e.entry.1 = e.slot.1.key e.slot.2 := by
  cases e <;> rfl

structure Tables.Keyed (t : Tables) : Prop where
  water : ∀ (id : Digest) r, t.water[id]? = some r → r.id = id
  rates : ∀ (id : Digest) r, t.rates[id]? = some r → r.id = id
  invites : ∀ (id : Digest) i, t.invites[id]? = some i → i.id = id

theorem Tables.Keyed.apply {t : Tables} (h : t.Keyed) (e : Edit) : (t.apply e).Keyed := by
  cases e with
  | putWater r => exact ⟨Table.key_eq_of_insert h.water r, h.rates, h.invites⟩
  | putRate r => exact ⟨h.water, Table.key_eq_of_insert h.rates r, h.invites⟩
  | putInvite i => exact ⟨h.water, h.rates, Table.key_eq_of_insert h.invites i⟩
  | dropWater id => exact ⟨fun k r hr => h.water k r (Table.getElem?_of_erase hr), h.rates, h.invites⟩
  | dropRate id => exact ⟨h.water, fun k r hr => h.rates k r (Table.getElem?_of_erase hr), h.invites⟩
  | dropInvite id => exact ⟨h.water, h.rates, fun k i hi => h.invites k i (Table.getElem?_of_erase hi)⟩
  | putTurnout | putRollup | putUrl | putFirstSeen => exact ⟨h.water, h.rates, h.invites⟩

theorem Tables.keyed_empty : Tables.empty.Keyed := by
  refine ⟨fun id r h => ?_, fun id r h => ?_, fun id i h => ?_⟩ <;> simp [empty] at h

/-! ## Observations and their invites -/

def Tables.Names (t : Tables) (id invite : Digest) : Prop :=
  (∃ r, t.water[id]? = some r ∧ r.inviteId = invite) ∨
    ∃ r, t.rates[id]? = some r ∧ r.inviteId = invite

def Edit.Adds (id invite : Digest) : Edit → Prop
  | .putWater r => r.id = id ∧ r.inviteId = invite
  | .putRate r => r.id = id ∧ r.inviteId = invite
  | .putInvite _ | .putTurnout _ | .putRollup _ | .putUrl _ | .putFirstSeen _ _ | .dropWater _
  | .dropRate _ | .dropInvite _ => False

theorem Tables.Names.of_apply {t : Tables} {e : Edit} {id invite : Digest}
    (h : (t.apply e).Names id invite) : t.Names id invite ∨ e.Adds id invite := by
  have hinsert : ∀ {α : Type} {table : Table Digest (Reading α)} {r r' : Reading α},
      (table.insert r.id r)[id]? = some r' → r'.inviteId = invite →
        (∃ r, table[id]? = some r ∧ r.inviteId = invite) ∨ r.id = id ∧ r.inviteId = invite := by
    intro α table r r' hr' hinvite
    rw [Std.ExtTreeMap.getElem?_insert] at hr'
    split at hr'
    · next heq =>
      rw [← Option.some.inj hr'] at hinvite
      exact Or.inr ⟨Std.LawfulEqCmp.eq_of_compare heq, hinvite⟩
    · exact Or.inl ⟨r', hr', hinvite⟩
  rcases h with ⟨r', hr', hinvite⟩ | ⟨r', hr', hinvite⟩
  · cases e with
    | putWater r => exact (hinsert hr' hinvite).imp_left Or.inl
    | dropWater => exact Or.inl (Or.inl ⟨r', Table.getElem?_of_erase hr', hinvite⟩)
    | _ => exact Or.inl (Or.inl ⟨r', hr', hinvite⟩)
  · cases e with
    | putRate r => exact (hinsert hr' hinvite).imp_left Or.inr
    | dropRate => exact Or.inl (Or.inr ⟨r', Table.getElem?_of_erase hr', hinvite⟩)
    | _ => exact Or.inl (Or.inr ⟨r', hr', hinvite⟩)

theorem Tables.Names.of_foldl_apply {t : Tables} {edits : List Edit} {id invite : Digest}
    (h : (edits.foldl apply t).Names id invite) :
    t.Names id invite ∨ ∃ e ∈ edits, e.Adds id invite := by
  induction edits generalizing t with
  | nil => exact Or.inl h
  | cons e edits ih =>
    rcases ih h with h | ⟨f, hf, hadds⟩
    · exact h.of_apply.imp_right fun hadds => ⟨e, List.mem_cons_self, hadds⟩
    · exact Or.inr ⟨f, List.mem_cons_of_mem e hf, hadds⟩

def Edit.KeepsInvites : Edit → Prop
  | .putInvite _ | .dropInvite _ => False
  | .putWater _ | .putRate _ | .putTurnout _ | .putRollup _ | .putUrl _ | .putFirstSeen _ _
  | .dropWater _ | .dropRate _ => True

theorem Edit.Clerical.keepsInvites {e : Edit} (h : e.Clerical) : e.KeepsInvites := by
  cases e with
  | putRollup | putUrl => trivial
  | _ => exact h.elim

theorem Tables.invites_apply (t : Tables) {e : Edit} (h : e.KeepsInvites) :
    (t.apply e).invites = t.invites := by
  cases e <;> first | rfl | exact h.elim

theorem Tables.invites_foldl_apply (t : Tables) {edits : List Edit}
    (h : ∀ e ∈ edits, e.KeepsInvites) : (edits.foldl apply t).invites = t.invites :=
  foldl_apply_keeps invites (fun e he t => t.invites_apply (h e he)) t

theorem Tables.foldl_putInvite (t : Tables) (change : Invite → Invite) (invites : List Invite) :
    (invites.map fun i => .putInvite (change i)).foldl apply t =
      { t with
        invites := invites.foldl (fun m i => m.insert (change i).id (change i)) t.invites } := by
  induction invites generalizing t with
  | nil => rfl
  | cons i invites ih => exact ih _

theorem Tables.invites_foldl_putInvite (t : Tables) (change : Invite → Invite)
    (invites : List Invite) :
    ((invites.map fun i => .putInvite (change i)).foldl apply t).invites =
      invites.foldl (fun m i => m.insert (change i).id (change i)) t.invites := by
  rw [t.foldl_putInvite change invites]

def Edit.Drops : Edit → Prop
  | .dropWater _ | .dropRate _ | .dropInvite _ => True
  | .putWater _ | .putRate _ | .putInvite _ | .putTurnout _ | .putRollup _ | .putUrl _
  | .putFirstSeen _ _ => False

/-- What is left of some tables: each record as it was, or gone. -/
structure Tables.Thinned (t t' : Tables) : Prop where
  water : ∀ id : Digest, t'.water[id]? = t.water[id]? ∨ t'.water[id]? = none
  rates : ∀ id : Digest, t'.rates[id]? = t.rates[id]? ∨ t'.rates[id]? = none
  invites : ∀ id : Digest, t'.invites[id]? = t.invites[id]? ∨ t'.invites[id]? = none

theorem Tables.Thinned.refl (t : Tables) : t.Thinned t :=
  ⟨fun _ => Or.inl rfl, fun _ => Or.inl rfl, fun _ => Or.inl rfl⟩

theorem Tables.Thinned.apply {t t' : Tables} (h : t.Thinned t') {e : Edit} (he : e.Drops) :
    t.Thinned (t'.apply e) := by
  have herase {α : Type} {before after : Table Digest α} (key : Digest)
      (hthin : ∀ id : Digest, after[id]? = before[id]? ∨ after[id]? = none) (id : Digest) :
      (after.erase key)[id]? = before[id]? ∨ (after.erase key)[id]? = none := by
    rw [Std.ExtTreeMap.getElem?_erase]
    split
    · exact Or.inr rfl
    · exact hthin id
  cases e with
  | dropWater key => exact ⟨herase key h.water, h.rates, h.invites⟩
  | dropRate key => exact ⟨h.water, herase key h.rates, h.invites⟩
  | dropInvite key => exact ⟨h.water, h.rates, herase key h.invites⟩
  | _ => exact he.elim

theorem Tables.Thinned.foldl_apply {t t' : Tables} (h : t.Thinned t') {edits : List Edit}
    (hedits : ∀ e ∈ edits, e.Drops) : t.Thinned (edits.foldl Tables.apply t') := by
  induction edits generalizing t' with
  | nil => exact h
  | cons e edits ih =>
    have he := h.apply (hedits e List.mem_cons_self)
    exact ih he fun f hf => hedits f (List.mem_cons_of_mem e hf)

theorem Tables.nextSequence_foldl_apply (t : Tables) (edits : List Edit) :
    (edits.foldl apply t).nextSequence = t.nextSequence :=
  foldl_apply_keeps nextSequence (fun e _ t => by cases e <;> rfl) t

theorem Tables.Keyed.foldl_apply {t : Tables} (h : t.Keyed) (edits : List Edit) :
    (edits.foldl Tables.apply t).Keyed :=
  List.foldlRecOn edits Tables.apply h fun _ ht e _ => ht.apply e

end WaterPeg
