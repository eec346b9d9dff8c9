import WaterPeg.Proofs.Json.Tokens

/-! A printed tree reads back as the same tree. -/
namespace WaterPeg.Json
open Reader

/-- The trees that values are written as: numbers are natural, and every text is quoted. -/
inductive Written : Json → Prop
  | null : Written .null
  | bool (value : Bool) : Written (.bool value)
  | number (n : Nat) : Written (.number (decimal n))
  | string (s : String) : Written (.string (quote s))
  | array {items : List Json} (h : ∀ j ∈ items, Written j) : Written (.array items)
  | object {fields : List (String × Json)} (h : ∀ f ∈ fields, Written f.2) :
    Written (.object (fields.map fun f => (quote f.1, f.2)))

/-! ## First bytes -/

theorem skipBlanks_cons {b : UInt8} (h : isBlank b = false) (rest : Bytes) :
    skipBlanks (b :: rest) = b :: rest := by
  simp [skipBlanks, h]

theorem isDigit_of_decimal {n : Nat} {d : UInt8} {ds : Bytes} (h : decimal n = d :: ds) :
    48 ≤ d.toNat ∧ d.toNat ≤ 57 := by
  have hdigit : isDigit d := isDigit_of_mem_decimal (h ▸ List.mem_cons_self)
  simpa [isDigit, UInt8.le_iff_toNat_le] using hdigit

theorem isBlank_of_digit {d : UInt8} (h : 48 ≤ d.toNat ∧ d.toNat ≤ 57) : isBlank d = false := by
  simp only [isBlank, Bool.or_eq_false_iff, beq_eq_false_iff_ne, ne_eq]
  refine ⟨⟨⟨?_, ?_⟩, ?_⟩, ?_⟩ <;>
  · rintro rfl
    exact absurd h (by decide)

/-- A value begins with neither a blank nor a closing bracket. -/
theorem Written.print_eq_cons {j : Json} (h : Written j) :
    ∃ b rest, print j = b :: rest ∧ isBlank b = false ∧ b ≠ 0x5D := by
  cases h with
  | null => exact ⟨_, _, rfl, rfl, by decide⟩
  | bool value => cases value <;> exact ⟨_, _, rfl, rfl, by decide⟩
  | number n =>
    obtain ⟨d, ds, hds⟩ := List.exists_cons_of_ne_nil (decimal_ne_nil n)
    have hdigit := isDigit_of_decimal hds
    refine ⟨d, ds, hds, isBlank_of_digit hdigit, ?_⟩
    rintro rfl
    exact absurd hdigit (by decide)
  | string s => exact ⟨_, _, rfl, rfl, by decide⟩
  | @array items => cases items <;> exact ⟨_, _, rfl, rfl, by decide⟩
  | @object fields => cases fields <;> exact ⟨_, _, rfl, rfl, by decide⟩

theorem stops_comma (rest : Bytes) : Stops (0x2C :: rest) := by
  rintro b ⟨⟩
  exact Or.inl rfl

theorem stops_printItems (items : List Json) (rest : Bytes) : Stops (printItems items ++ rest) := by
  cases items with
  | nil => rintro b ⟨⟩; exact Or.inr (Or.inl rfl)
  | cons x xs => exact stops_comma _

theorem stops_printFields (fields : List (Bytes × Json)) (rest : Bytes) :
    Stops (printFields fields ++ rest) := by
  cases fields with
  | nil => rintro b ⟨⟩; exact Or.inr (Or.inr rfl)
  | cons f fs => exact stops_comma _

/-! ## Steps of the reader -/

theorem value?_string (limit : Nat) (s : String) (rest : Bytes) :
    value? (limit + 1) (print (.string (quote s)) ++ rest) = some (.string (quote s), rest) := by
  have hbody := stringBody?_quote_append s rest
  have hprint : print (.string (quote s)) ++ rest = 0x22 :: (quote s ++ 0x22 :: rest) := by
    simp [print]
  rw [hprint, value?, skipBlanks_cons rfl]
  change (stringBody? (quote s ++ 0x22 :: rest)).map _ = _
  rw [hbody, Option.map_some]

theorem value?_array_cons {limit : Nat} {x : Json} {b : UInt8} {bs rest rest' : Bytes}
    (hb : isBlank b = false ∧ b ≠ 0x5D) (h : value? limit (b :: bs) = some (x, rest)) {xs : List Json}
    (hitems : items? limit rest = some (xs, rest')) :
    value? (limit + 1) (0x5B :: b :: bs) = some (.array (x :: xs), rest') := by
  rw [value?, skipBlanks_cons rfl]
  simp only [skipBlanks_cons hb.1]
  split
  · next heq => exact absurd (List.cons.inj heq).1 hb.2
  · rw [h]
    simp only [hitems, Option.map_some]

theorem items?_cons {limit : Nat} {x : Json} {b rest rest' : Bytes}
    (h : value? limit b = some (x, rest)) {xs : List Json}
    (hitems : items? limit rest = some (xs, rest')) :
    items? (limit + 1) (0x2C :: b) = some (x :: xs, rest') := by
  rw [items?, skipBlanks_cons rfl]
  simp only [h, hitems, Option.map_some]

theorem field?_quote {limit : Nat} {key : String} {value : Json} {b rest : Bytes}
    (h : value? limit b = some (value, rest)) :
    field? (limit + 1) (0x22 :: (quote key ++ 0x22 :: 0x3A :: b)) =
      some ((quote key, value), rest) := by
  rw [field?, skipBlanks_cons rfl]
  simp only [stringBody?_quote_append, skipBlanks_cons (b := 0x3A) rfl, h, Option.map_some]

theorem value?_object_cons {limit : Nat} {f : Bytes × Json} {b rest rest' : Bytes}
    (h : field? limit (0x22 :: b) = some (f, rest)) {fs : List (Bytes × Json)}
    (hfields : fields? limit rest = some (fs, rest')) :
    value? (limit + 1) (0x7B :: 0x22 :: b) = some (.object (f :: fs), rest') := by
  rw [value?, skipBlanks_cons rfl]
  simp only [skipBlanks_cons (b := 0x22) rfl, h, hfields, Option.map_some]
  rfl

theorem fields?_cons {limit : Nat} {f : Bytes × Json} {b rest rest' : Bytes}
    (h : field? limit b = some (f, rest)) {fs : List (Bytes × Json)}
    (hfields : fields? limit rest = some (fs, rest')) :
    fields? (limit + 1) (0x2C :: b) = some (f :: fs, rest') := by
  rw [fields?, skipBlanks_cons rfl]
  simp only [h, hfields, Option.map_some]

/-! ## Whole trees -/

/-- A printed tree is read up to what follows it. Each call takes in a byte at least, so the length
of the text is enough of a limit. -/
def ReadsBack (j : Json) : Prop :=
  ∀ (limit : Nat) (rest : Bytes), (print j).length ≤ limit → Stops rest →
    value? limit (print j ++ rest) = some (j, rest)

theorem readsBack_number (n : Nat) : ReadsBack (.number (decimal n)) := by
  intro limit rest hlimit hrest
  obtain ⟨d, ds, hds⟩ := List.exists_cons_of_ne_nil (decimal_ne_nil n)
  have hdigit := isDigit_of_decimal hds
  have hread := number?_decimal_append n hrest
  obtain ⟨limit, rfl⟩ : ∃ k, limit = k + 1 := by
    refine ⟨limit - 1, ?_⟩
    have hlength : (print (.number (decimal n))).length = ds.length + 1 := by
      rw [print, hds, List.length_cons]
    omega
  rw [print, value?]
  rw [hds, List.cons_append] at hread ⊢
  rw [skipBlanks_cons (isBlank_of_digit hdigit)]
  -- A digit is the first byte of no other token.
  split
  case h_7 => rw [hread, Option.map_some]
  all_goals
    next heq =>
      obtain ⟨rfl, -⟩ := List.cons.inj heq
      exact absurd hdigit (by decide)

theorem items?_printItems (limit : Nat) {items : List Json} (h : ∀ j ∈ items, ReadsBack j)
    (rest : Bytes) (hlimit : (printItems items).length ≤ limit) :
    items? limit (printItems items ++ rest) = some (items, rest) := by
  induction items generalizing limit with
  | nil =>
    obtain ⟨limit, rfl⟩ := Nat.exists_eq_add_of_le' hlimit
    rfl
  | cons x xs ih =>
    rw [printItems, List.length_cons, List.length_append] at hlimit
    obtain ⟨limit, rfl⟩ : ∃ k, limit = k + 1 := ⟨limit - 1, by omega⟩
    have hx := h x List.mem_cons_self limit (printItems xs ++ rest) (by omega)
      (stops_printItems xs rest)
    have hxs := ih limit (fun j hj => h j (List.mem_cons_of_mem x hj)) (by omega)
    rw [printItems, List.cons_append, List.append_assoc]
    exact items?_cons hx hxs

theorem field?_printField (limit : Nat) {f : String × Json} (h : ReadsBack f.2) {rest : Bytes}
    (hrest : Stops rest) (hlimit : (printField (quote f.1, f.2)).length ≤ limit) :
    field? limit (printField (quote f.1, f.2) ++ rest) = some ((quote f.1, f.2), rest) := by
  simp only [printField, List.length_cons, List.length_append] at hlimit
  obtain ⟨limit, rfl⟩ : ∃ k, limit = k + 1 := ⟨limit - 1, by omega⟩
  have hvalue := h limit rest (by omega) hrest
  simp only [printField, List.cons_append, List.append_assoc]
  exact field?_quote hvalue

theorem fields?_printFields (limit : Nat) {fields : List (String × Json)}
    (h : ∀ f ∈ fields, ReadsBack f.2) (rest : Bytes)
    (hlimit : (printFields (fields.map fun f => (quote f.1, f.2))).length ≤ limit) :
    fields? limit (printFields (fields.map fun f => (quote f.1, f.2)) ++ rest) =
      some (fields.map fun f => (quote f.1, f.2), rest) := by
  induction fields generalizing limit with
  | nil =>
    obtain ⟨limit, rfl⟩ := Nat.exists_eq_add_of_le' hlimit
    rfl
  | cons f fs ih =>
    rw [List.map_cons, printFields, List.length_cons, List.length_append] at hlimit
    obtain ⟨limit, rfl⟩ : ∃ k, limit = k + 1 := ⟨limit - 1, by omega⟩
    have hf := field?_printField limit (h f List.mem_cons_self)
      (stops_printFields (fs.map fun f => (quote f.1, f.2)) rest) (by omega)
    have hfs := ih limit (fun g hg => h g (List.mem_cons_of_mem f hg)) (by omega)
    rw [List.map_cons, printFields, List.cons_append, List.append_assoc]
    exact fields?_cons hf hfs

theorem Written.readsBack {j : Json} (h : Written j) : ReadsBack j := by
  induction h with
  | null =>
    intro limit rest hlimit _
    obtain ⟨limit, rfl⟩ := Nat.exists_eq_add_of_le' hlimit
    rfl
  | bool value =>
    intro limit rest hlimit _
    cases value <;>
    · obtain ⟨limit, rfl⟩ := Nat.exists_eq_add_of_le' hlimit
      rfl
  | number n => exact readsBack_number n
  | string s =>
    intro limit rest hlimit _
    obtain ⟨limit, rfl⟩ : ∃ k, limit = k + 1 := by
      refine ⟨limit - 1, ?_⟩
      rw [print, List.length_cons] at hlimit
      omega
    exact value?_string limit s rest
  | @array items hitems ih =>
    intro limit rest hlimit _
    cases items with
    | nil =>
      obtain ⟨limit, rfl⟩ := Nat.exists_eq_add_of_le' hlimit
      rfl
    | cons x xs =>
      rw [print, List.length_cons, List.length_append] at hlimit
      obtain ⟨limit, rfl⟩ : ∃ k, limit = k + 1 := ⟨limit - 1, by omega⟩
      have hx := ih x List.mem_cons_self limit (printItems xs ++ rest) (by omega)
        (stops_printItems xs rest)
      have hxs := items?_printItems limit
        (fun j hj => ih j (List.mem_cons_of_mem x hj)) rest (by omega)
      obtain ⟨b, bs, hprint, hb⟩ := (hitems x List.mem_cons_self).print_eq_cons
      rw [print, List.cons_append, List.append_assoc]
      rw [hprint, List.cons_append] at hx ⊢
      exact value?_array_cons hb hx hxs
  | @object fields hfields ih =>
    intro limit rest hlimit _
    cases fields with
    | nil =>
      obtain ⟨limit, rfl⟩ := Nat.exists_eq_add_of_le' hlimit
      rfl
    | cons f fs =>
      rw [List.map_cons, print, List.length_cons, List.length_append] at hlimit
      obtain ⟨limit, rfl⟩ : ∃ k, limit = k + 1 := ⟨limit - 1, by omega⟩
      have hf := field?_printField limit (ih f List.mem_cons_self)
        (stops_printFields (fs.map fun f => (quote f.1, f.2)) rest) (by omega)
      have hfs := fields?_printFields limit
        (fun g hg => ih g (List.mem_cons_of_mem f hg)) rest (by omega)
      rw [List.map_cons, print, List.cons_append, List.append_assoc]
      exact value?_object_cons hf hfs

/-- What was printed reads as the tree it was printed from. -/
theorem Written.read?_print {j : Json} (h : Written j) : read? (print j) = some j := by
  have hstops : Stops [] := nofun
  have hread := h.readsBack (2 * (print j).length + 2) [] (by omega) hstops
  rw [List.append_nil] at hread
  unfold read?
  rw [hread]
  rfl

end WaterPeg.Json
