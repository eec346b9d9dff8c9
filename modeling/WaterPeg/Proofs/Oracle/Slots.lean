import WaterPeg.Proofs.Oracle.Turnouts

/-!
Edits that do not meet. Two edits of different slots can be made in either order, in memory and in
the store. What an acceptance writes of the books depends on what they hold, so it is taken apart
here: each part is done in either order with the parts of another acceptance, or is one that both do
alike.
-/
namespace WaterPeg

section

variable {σ ρ : Type} {f : σ → ρ → σ} {P : σ → Prop} (hkeep : ∀ x a, P x → P (f x a))

include hkeep

/-- A step that can change places with each of some others can be taken after all of them. -/
theorem foldl_comm {a : ρ} {bs : List ρ} (hcomm : ∀ b ∈ bs, ∀ x, P x → f (f x a) b = f (f x b) a)
    {x : σ} (hx : P x) : bs.foldl f (f x a) = f (bs.foldl f x) a := by
  induction bs generalizing x with
  | nil => rfl
  | cons b bs ih =>
    rw [List.foldl_cons, List.foldl_cons, hcomm b List.mem_cons_self x hx]
    exact ih (fun b hb => hcomm b (List.mem_cons_of_mem _ hb)) (hkeep x b hx)

theorem foldl_foldl_comm {as bs : List ρ}
    (hcomm : ∀ a ∈ as, ∀ b ∈ bs, ∀ x, P x → f (f x a) b = f (f x b) a) {x : σ} (hx : P x) :
    bs.foldl f (as.foldl f x) = as.foldl f (bs.foldl f x) := by
  induction as generalizing x with
  | nil => rfl
  | cons a as ih =>
    rw [List.foldl_cons, List.foldl_cons,
      ih (fun a ha => hcomm a (List.mem_cons_of_mem _ ha)) (hkeep x a hx),
      foldl_comm hkeep (hcomm a List.mem_cons_self) hx]

end

/-! ## Slots -/

theorem Store.applyEntry_comm (entries : Table Bytes Bytes) {e e' : Bytes × Option Bytes}
    (h : e.1 ≠ e'.1) :
    applyEntry (applyEntry entries e) e' = applyEntry (applyEntry entries e') e := by
  obtain ⟨k, _ | v⟩ := e <;> obtain ⟨k', _ | v'⟩ := e'
  · exact Table.erase_comm entries k k'
  · exact (Table.insert_erase_comm entries (Ne.symm h) v').symm
  · exact Table.insert_erase_comm entries h v
  · exact Table.insert_comm entries h v v'

theorem Tables.putTurnout_comm (t : Tables) {c c' : Turnout} (h : c.key ≠ c'.key) :
    (t.apply (.putTurnout c)).apply (.putTurnout c') =
      (t.apply (.putTurnout c')).apply (.putTurnout c) :=
  congrArg (fun turnouts => { t with turnouts }) (Table.insert_comm t.turnouts h c c')

theorem Tables.apply_comm (t : Tables) {e e' : Edit} (h : e.slot ≠ e'.slot) :
    (t.apply e).apply e' = (t.apply e').apply e := by
  cases e <;> cases e' <;> first
  | rfl
  | simp only [apply]
    congr 1
    first
    | exact Table.insert_comm _ (fun hkey => h (by simp only [Edit.slot, hkey])) _ _
    | exact Table.insert_erase_comm _ (fun hkey => h (by simp only [Edit.slot, hkey])) _
    | exact (Table.insert_erase_comm _ (fun hkey => h (by simp only [Edit.slot, hkey])) _).symm
    | exact Table.erase_comm _ _ _

/-! ## Parts of an acceptance -/

/-- Something that edits are made in, with the tables that they make. Edits of different slots can
change places. -/
structure Recording (σ : Type) where
  tables : σ → Tables
  make : σ → Edit → σ
  tables_make : ∀ x e, tables (make x e) = (tables x).apply e
  make_comm : ∀ x {e e' : Edit}, e.slot ≠ e'.slot → make (make x e) e' = make (make x e') e

namespace Recording

def memory : Recording Tables where
  tables := id
  make := Tables.apply
  tables_make _ _ := rfl
  make_comm t _ _ := t.apply_comm

def ledger : Recording (Tables × Table Bytes Bytes) where
  tables := Prod.fst
  make l e := (l.1.apply e, Store.applyEntry l.2 e.entry)
  tables_make _ _ := rfl
  make_comm l e e' h := by
    have hkeys : e.entry.1 ≠ e'.entry.1 := by
      rw [e.key_entry, e'.key_entry, Ne, RecordKind.key_inj]
      exact fun heq => h (Prod.ext heq.1 heq.2)
    exact Prod.ext (l.1.apply_comm h) (Store.applyEntry_comm l.2 hkeys)

theorem foldl_make_ledger (edits : List Edit) (l : Tables × Table Bytes Bytes) :
    edits.foldl ledger.make l =
      (edits.foldl Tables.apply l.1, (edits.map Edit.entry).foldl Store.applyEntry l.2) := by
  induction edits generalizing l with
  | nil => rfl
  | cons e edits ih => exact ih _

/-- Turnouts of these keys can be put in either order. -/
def Interchange {σ : Type} (M : Recording σ) (key key' : TurnoutKey) : Prop :=
  ∀ x (c c' : Turnout), c.key = key → c'.key = key' →
    M.make (M.make x (.putTurnout c)) (.putTurnout c') =
      M.make (M.make x (.putTurnout c')) (.putTurnout c)

theorem interchange_memory {key key' : TurnoutKey} (h : key ≠ key') :
    memory.Interchange key key' := by
  rintro t c c' rfl rfl
  exact t.putTurnout_comm h

theorem interchange_ledger {key key' : TurnoutKey} (h : key.storeId ≠ key'.storeId) :
    ledger.Interchange key key' := by
  rintro l c c' rfl rfl
  refine ledger.make_comm l fun hslot => h ?_
  exact (Prod.mk.inj hslot).2

end Recording

/-- What an acceptance does: it writes a record, counts an answer under a key, or notes a currency
that was not seen before. -/
inductive Part
  | write (e : Edit)
  | count (key : TurnoutKey)
  | note (currency : String)

namespace Part

variable (p : MeasurementParams) (now : UInt64)

def kind : Part → RecordKind
  | .write e => e.slot.1
  | .count _ => .turnout
  | .note _ => .firstSeen

/-- The edits of a part, which depend on what the tables hold. -/
def edits (t : Tables) : Part → List Edit
  | .write e => [e]
  | .count key =>
    [.putTurnout ((t.turnouts[key]?.getD (.initial key p.defaultTurnout)).recordCompleted now)]
  | .note currency =>
    if t.firstSeen.contains currency then [] else [.putFirstSeen currency now]

theorem kind_of_mem_edits {t : Tables} {a : Part} {e : Edit} (h : e ∈ a.edits p now t) :
    e.slot.1 = a.kind := by
  cases a with
  | write | count => rw [List.mem_singleton.1 h]; rfl
  | note =>
    dsimp only [edits] at h
    split at h
    · exact nomatch h
    · rw [List.mem_singleton.1 h]; rfl

/-- Edits of another kind of record do not concern the part. -/
theorem edits_apply {a : Part} {e : Edit} (h : e.slot.1 ≠ a.kind) (t : Tables) :
    a.edits p now (t.apply e) = a.edits p now t := by
  cases a with
  | write => rfl
  | count => cases e <;> first | rfl | exact absurd rfl h
  | note => cases e <;> first | rfl | exact absurd rfl h

/-- Nor do turnouts of other keys, and the first times of other currencies. -/
theorem edits_putTurnout {c : Turnout} {key : TurnoutKey} (h : c.key ≠ key) (t : Tables) :
    Part.edits p now (t.apply (.putTurnout c)) (.count key) =
      Part.edits p now t (.count key) := by
  simp only [edits, Tables.apply, Std.ExtTreeMap.getElem?_insert,
    Std.LawfulEqCmp.compare_eq_iff_eq, if_neg h]

theorem edits_putFirstSeen {currency currency' : String} (h : currency ≠ currency') (time : UInt64)
    (t : Tables) :
    Part.edits p now (t.apply (.putFirstSeen currency time)) (.note currency') =
      Part.edits p now t (.note currency') := by
  have hcompare : compare currency currency' ≠ .eq :=
    fun heq => h (Std.LawfulEqCmp.eq_of_compare heq)
  simp [edits, Tables.apply, Std.ExtTreeMap.contains_insert, hcompare]

variable {p now}

theorem exists_of_mem_edits_count {t : Tables} (h : t.TurnoutsKeyed) {key : TurnoutKey} {e : Edit}
    (he : e ∈ Part.edits p now t (.count key)) : ∃ c, e = .putTurnout c ∧ c.key = key :=
  ⟨_, List.mem_singleton.1 he, h.key_getD key p.defaultTurnout⟩

theorem eq_of_mem_edits_note {t : Tables} {currency : String} {e : Edit}
    (he : e ∈ Part.edits p now t (.note currency)) : e = .putFirstSeen currency now := by
  dsimp only [edits] at he
  split at he
  · exact nomatch he
  · exact List.mem_singleton.1 he

end Part

namespace Recording

variable {σ : Type} (M : Recording σ) (p : MeasurementParams) (now : UInt64)

def perform (x : σ) (a : Part) : σ := (a.edits p now (M.tables x)).foldl M.make x

inductive Apart : Part → Part → Prop
  | same (a : Part) : Apart a a
  | kind {a b : Part} (h : a.kind ≠ b.kind) : Apart a b
  | write {e e' : Edit} (h : e.slot ≠ e'.slot) : Apart (.write e) (.write e')
  | count {key key' : TurnoutKey} (h : key ≠ key') (hput : M.Interchange key key') :
    Apart (.count key) (.count key')
  | note {currency currency' : String} (h : currency ≠ currency') :
    Apart (.note currency) (.note currency')

variable {M p now} {x : σ} {a b : Part}

theorem tables_foldl_make (edits : List Edit) (x : σ) :
    M.tables (edits.foldl M.make x) = edits.foldl Tables.apply (M.tables x) := by
  induction edits generalizing x with
  | nil => rfl
  | cons e edits ih => rw [List.foldl_cons, List.foldl_cons, ih, M.tables_make]

theorem keyed_perform (h : (M.tables x).TurnoutsKeyed) (a : Part) :
    (M.tables (M.perform p now x a)).TurnoutsKeyed := by
  rw [perform, tables_foldl_make]
  exact List.foldlRecOn _ Tables.apply h fun t ht e _ => ht.apply e

/-- Parts change places if their edits do, and neither concerns the other. -/
theorem perform_comm_of_edits
    (hb : ∀ e ∈ a.edits p now (M.tables x), ∀ t, b.edits p now (t.apply e) = b.edits p now t)
    (ha : ∀ e ∈ b.edits p now (M.tables x), ∀ t, a.edits p now (t.apply e) = a.edits p now t)
    (hcomm : ∀ e ∈ a.edits p now (M.tables x), ∀ e' ∈ b.edits p now (M.tables x), ∀ y,
      M.make (M.make y e) e' = M.make (M.make y e') e) :
    M.perform p now (M.perform p now x a) b = M.perform p now (M.perform p now x b) a := by
  have hkeep {c : Part} {edits : List Edit}
      (h : ∀ e ∈ edits, ∀ t, c.edits p now (t.apply e) = c.edits p now t) :
      c.edits p now (M.tables (edits.foldl M.make x)) = c.edits p now (M.tables x) := by
    rw [tables_foldl_make]
    exact List.foldlRecOn edits Tables.apply (motive := fun t => c.edits p now t = _) rfl
      fun t ht e he => (h e he t).trans ht
  unfold perform
  rw [hkeep hb, hkeep ha]
  exact foldl_foldl_comm (P := fun _ => True) (fun _ _ _ => trivial)
    (fun e he e' he' y _ => hcomm e he e' he' y) trivial

/-- Where a turnout is counted on, it stays under its key. -/
theorem perform_comm (hkeys : (M.tables x).TurnoutsKeyed) (h : M.Apart a b) :
    M.perform p now (M.perform p now x a) b = M.perform p now (M.perform p now x b) a := by
  cases h with
  | same => rfl
  | kind h =>
    refine perform_comm_of_edits (fun e he => ?_) (fun e he => ?_) fun e he e' he' y => ?_
    · exact b.edits_apply p now (Part.kind_of_mem_edits p now he ▸ h)
    · exact a.edits_apply p now (Part.kind_of_mem_edits p now he ▸ h.symm)
    · refine M.make_comm y fun hslot => h ?_
      rw [← Part.kind_of_mem_edits p now he, ← Part.kind_of_mem_edits p now he', hslot]
  | write h =>
    refine perform_comm_of_edits (fun _ _ _ => rfl) (fun _ _ _ => rfl) fun e he e' he' y => ?_
    rw [List.mem_singleton.1 he, List.mem_singleton.1 he']
    exact M.make_comm y h
  | count h hput =>
    refine perform_comm_of_edits (fun e he => ?_) (fun e he => ?_) fun e he e' he' y => ?_
    · obtain ⟨c, rfl, rfl⟩ := Part.exists_of_mem_edits_count hkeys he
      exact Part.edits_putTurnout p now h
    · obtain ⟨c, rfl, rfl⟩ := Part.exists_of_mem_edits_count hkeys he
      exact Part.edits_putTurnout p now h.symm
    · obtain ⟨c, rfl, hc⟩ := Part.exists_of_mem_edits_count hkeys he
      obtain ⟨c', rfl, hc'⟩ := Part.exists_of_mem_edits_count hkeys he'
      exact hput y c c' hc hc'
  | note h =>
    refine perform_comm_of_edits (fun e he => ?_) (fun e he => ?_) fun e he e' he' y => ?_
    · rw [Part.eq_of_mem_edits_note he]
      exact Part.edits_putFirstSeen p now h now
    · rw [Part.eq_of_mem_edits_note he]
      exact Part.edits_putFirstSeen p now h.symm now
    · rw [Part.eq_of_mem_edits_note he, Part.eq_of_mem_edits_note he']
      refine M.make_comm y fun hslot => h ?_
      exact Bytes.ofString_injective (Prod.mk.inj hslot).2

theorem foldl_perform_comm {as bs : List Part} (h : ∀ a ∈ as, ∀ b ∈ bs, M.Apart a b)
    (hkeys : (M.tables x).TurnoutsKeyed) :
    bs.foldl (M.perform p now) (as.foldl (M.perform p now) x) =
      as.foldl (M.perform p now) (bs.foldl (M.perform p now) x) :=
  foldl_foldl_comm (P := fun x => (M.tables x).TurnoutsKeyed) (fun _ a hx => keyed_perform hx a)
    (fun a ha b hb _ hx => perform_comm hx (h a ha b hb)) hkeys

/-- Memory takes the same course with the store and without. -/
theorem fst_foldl_perform_ledger (as : List Part) (l : Tables × Table Bytes Bytes) :
    (as.foldl (ledger.perform p now) l).1 = as.foldl (memory.perform p now) l.1 := by
  induction as generalizing l with
  | nil => rfl
  | cons a as ih =>
    rw [List.foldl_cons, List.foldl_cons, ih, perform, foldl_make_ledger]
    rfl

end Recording

end WaterPeg
