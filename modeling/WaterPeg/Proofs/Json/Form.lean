import WaterPeg.Proofs.Calendar.Text
import WaterPeg.Proofs.Json.Printing
import WaterPeg.Json.Form

/-! Values survive their JSON form. -/
namespace WaterPeg

/-- A JSON form that is printed without loss and from which each value is read back. -/
class LawfulJsonForm (α : Type) [JsonForm α] : Prop where
  written_toJson (a : α) : (toJson a).Written
  ofJson?_toJson (a : α) : ofJson? (toJson a) = some a

export LawfulJsonForm (written_toJson ofJson?_toJson)

attribute [simp] LawfulJsonForm.ofJson?_toJson

/-- The stored form of a value is read as the value. -/
@[simp] theorem decode?_encode {α : Type} [JsonForm α] [LawfulJsonForm α] (a : α) :
    decode? (encode a) = some a := by
  unfold decode? encode
  rw [(written_toJson a).read?_print]
  exact ofJson?_toJson a

theorem encode_injective {α : Type} [JsonForm α] [LawfulJsonForm α] {a b : α}
    (h : encode a = encode b) : a = b := by
  have hread : (decode? (encode a) : Option α) = decode? (encode b) := by rw [h]
  simpa using hread

namespace Json

/-! ## Records -/

theorem record_eq (names : List String) (values : List Json) :
    record names values = .object ((names.zip values).map fun f => (quote f.1, f.2)) := by
  rw [record, List.zip_map_left]
  rfl

theorem written_record {names : List String} {values : List Json} (h : ∀ j ∈ values, Written j) :
    Written (record names values) := by
  rw [record_eq]
  exact .object fun f hf => h f.2 (List.of_mem_zip hf).2

theorem keyed?_map_quote (fields : List (String × Json)) :
    keyed? (fields.map fun f => (quote f.1, f.2)) = some fields := by
  induction fields with
  | nil => rfl
  | cons f fs ih => simp [keyed?, ih]

theorem map_lookup_zip {α : Type} {names : List String} {values : List α} (hnames : names.Nodup)
    (hlength : values.length = names.length) :
    names.map (fun n => (names.zip values).lookup n) = values.map some := by
  induction names generalizing values with
  | nil => rw [List.length_eq_zero_iff.1 hlength]; rfl
  | cons n ns ih =>
    obtain ⟨v, vs, rfl⟩ := List.exists_cons_of_length_eq_add_one hlength
    obtain ⟨hn, hns⟩ := List.nodup_cons.1 hnames
    have htail : ns.map (fun m => ((n, v) :: ns.zip vs).lookup m) =
        ns.map fun m => (ns.zip vs).lookup m := by
      refine List.map_congr_left fun m hm => ?_
      have hmn : (m == n) = false := by
        rw [beq_eq_false_iff_ne]
        rintro rfl
        exact hn hm
      rw [List.lookup_cons, hmn]
    rw [List.zip_cons_cons, List.map_cons, htail, ih hns (Nat.succ.inj hlength)]
    simp

/-- The fields of a record are found under their names. -/
theorem fields?_record {names : List String} {values : List Json} (hnames : names.Nodup)
    (hlength : values.length = names.length) :
    fields? names (record names values) = some (values.map some) := by
  have honce : names.all fun n => ((names.zip values).countP fun e => e.1 == n) ≤ 1 := by
    rw [List.all_eq_true]
    intro n _
    have hcount : (names.zip values).countP (fun e => e.1 == n) = names.count n := by
      have hfst : (names.zip values).map Prod.fst = names :=
        List.map_fst_zip (Nat.le_of_eq hlength.symm)
      have hmap := List.countP_map (p := (· == n)) (f := Prod.fst) (l := names.zip values)
      rw [hfst] at hmap
      exact hmap.symm
    rw [decide_eq_true_iff, hcount]
    exact List.nodup_iff_count.1 hnames n
  rw [record_eq, fields?, keyed?_map_quote]
  dsimp only
  rw [if_pos honce, map_lookup_zip hnames hlength]

@[simp] theorem required?_toJson {α : Type} [JsonForm α] [LawfulJsonForm α] (a : α) :
    required? (some (toJson a)) = some a := ofJson?_toJson a

@[simp] theorem optional?_toJson {α : Type} [JsonForm α] [LawfulJsonForm (Option α)]
    (a : Option α) : optional? (some (toJson a)) = some a := ofJson?_toJson a

/-! ## Choices -/

theorem choice?_choice {α : Type} {all : List α} {name : α → String} {a : α}
    (h : (all.find? fun b => name b == name a) = some a) :
    choice? all name (choice (name a)) = some a := by
  simp only [choice?, choice, choiceName?, unquote?_quote]
  exact h

theorem items_map_toJson {α : Type} [JsonForm α] [LawfulJsonForm α] (as : List α) :
    items (as.map toJson) = some as := by
  induction as with
  | nil => rfl
  | cons a as ih => simp [items, ih]

end Json

/-! ## Plain values -/

instance : LawfulJsonForm Bool where
  written_toJson := .bool
  ofJson?_toJson _ := rfl

instance : LawfulJsonForm UInt8 where
  written_toJson b := .number b.toNat
  ofJson?_toJson b := by
    change (Json.natural? (Json.decimal b.toNat)).bind _ = _
    rw [Json.natural?_decimal, Option.bind_some, if_pos b.toNat_lt, UInt8.ofNat_toNat]

instance : LawfulJsonForm UInt64 where
  written_toJson w := .number w.toNat
  ofJson?_toJson w := by
    change (Json.natural? (Json.decimal w.toNat)).bind _ = _
    rw [Json.natural?_decimal, Option.bind_some, word?, if_pos w.toNat_lt, UInt64.ofNat_toNat]

instance : LawfulJsonForm UInt128 where
  written_toJson x := .number x.toNat
  ofJson?_toJson x := by
    change (Json.natural? (Json.decimal x.toNat)).bind _ = _
    rw [Json.natural?_decimal, Option.bind_some, UInt128.ofNat?_toNat]

instance : LawfulJsonForm String where
  written_toJson := .string
  ofJson?_toJson := Json.unquote?_quote

instance {α : Type} [JsonForm α] [LawfulJsonForm α] : LawfulJsonForm (List α) where
  written_toJson as := by
    refine .array fun j hj => ?_
    obtain ⟨a, -, rfl⟩ := List.mem_map.1 hj
    exact written_toJson a
  ofJson?_toJson := Json.items_map_toJson

/-- A value that may be missing is told from a missing one where no value is written as null. -/
theorem lawfulJsonForm_option {α : Type} [JsonForm α] [LawfulJsonForm α]
    (h : ∀ a : α, toJson a ≠ .null) : LawfulJsonForm (Option α) where
  written_toJson
    | some a => written_toJson a
    | none => .null
  ofJson?_toJson
    | some a => by
      change Json.optional? (some (toJson a)) = _
      unfold Json.optional?
      split
      · next heq => exact nomatch heq
      · next heq => exact absurd (Option.some.inj heq) (h a)
      · next heq =>
        rw [← Option.some.inj heq, ofJson?_toJson]
        rfl
    | none => rfl

instance : LawfulJsonForm (Option String) := lawfulJsonForm_option nofun

instance : LawfulJsonForm (Option UInt64) := lawfulJsonForm_option nofun

instance {α β : Type} [JsonForm α] [LawfulJsonForm α] [JsonForm β] [LawfulJsonForm β] :
    LawfulJsonForm (α × β) where
  written_toJson p := by
    refine .array fun j hj => ?_
    rcases List.mem_cons.1 hj with rfl | hj
    · exact written_toJson p.1
    · rw [List.mem_singleton.1 hj]
      exact written_toJson p.2
  ofJson?_toJson p := by
    change (match (ofJson? (toJson p.1) : Option α), (ofJson? (toJson p.2) : Option β) with
      | some a, some b => some (a, b)
      | _, _ => none) = _
    rw [ofJson?_toJson, ofJson?_toJson]

instance : LawfulJsonForm Digest where
  written_toJson d := written_toJson d.bytes
  ofJson?_toJson d := by
    change (ofJson? (toJson d.bytes) : Option Bytes).bind _ = _
    rw [ofJson?_toJson, Option.bind_some, Digest.ofBytes?_bytes]

instance : LawfulJsonForm Date where
  written_toJson d := written_toJson d.text
  ofJson?_toJson d := by
    change (ofJson? (toJson d.text) : Option String).bind _ = _
    rw [ofJson?_toJson, Option.bind_some, Date.ofText?_text]

instance : LawfulJsonForm MeasurementKind where
  written_toJson k := .string k.name
  ofJson?_toJson k := Json.choice?_choice (by cases k <;> rfl)

instance : LawfulJsonForm Source where
  written_toJson s := .string s.name
  ofJson?_toJson s := Json.choice?_choice (by cases s <;> rfl)

end WaterPeg
