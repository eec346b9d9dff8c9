import WaterPeg.Json.Reader

/-! The tokens of a printed text read back: quoted texts as raw strings, numbers as lexemes. -/
namespace WaterPeg.Json
open Reader

/-! ## Quoted texts -/

theorem hex4?_control {b : UInt8} (h : b < 32) :
    hex4? 0x30 0x30 (UInt8.ofNat (Bytes.hexDigit (b.toNat / 16)).toNat)
      (UInt8.ofNat (Bytes.hexDigit (b.toNat % 16)).toNat) = some b.toNat := by
  have hall : ∀ n < 32, hex4? 0x30 0x30 (UInt8.ofNat (Bytes.hexDigit (n / 16)).toNat)
      (UInt8.ofNat (Bytes.hexDigit (n % 16)).toNat) = some n := by decide
  exact hall b.toNat (UInt8.lt_iff_toNat_lt.1 h)

theorem encodePoint_control {b : UInt8} (h : b < 32) : encodePoint b.toNat = [b] := by
  have hall : ∀ n < 32, encodePoint n = [UInt8.ofNat n] := by decide +kernel
  rw [hall b.toNat (UInt8.lt_iff_toNat_lt.1 h), UInt8.ofNat_toNat]

/-- A byte is escaped by a letter or by its code, or it stands for itself. -/
theorem escapeByte_cases (b : UInt8) :
    (∃ e, e ≠ 0x75 ∧ letterEscape? e = some b ∧ escapeByte b = [0x5C, e]) ∨
      (∃ x y, b < 32 ∧ hex4? 0x30 0x30 x y = some b.toNat ∧
        escapeByte b = [0x5C, 0x75, 0x30, 0x30, x, y]) ∨
      (b ≠ 0x22 ∧ b ≠ 0x5C ∧ ¬ b < 32 ∧ escapeByte b = [b]) := by
  by_cases hquote : b = 0x22
  · subst hquote; exact Or.inl ⟨0x22, by decide⟩
  by_cases hslash : b = 0x5C
  · subst hslash; exact Or.inl ⟨0x5C, by decide⟩
  by_cases hletter : b = 8 ∨ b = 12 ∨ b = 10 ∨ b = 13 ∨ b = 9
  · left
    rcases hletter with rfl | rfl | rfl | rfl | rfl
    · exact ⟨0x62, by decide⟩
    · exact ⟨0x66, by decide⟩
    · exact ⟨0x6E, by decide⟩
    · exact ⟨0x72, by decide⟩
    · exact ⟨0x74, by decide⟩
  simp only [not_or] at hletter
  obtain ⟨h8, h12, h10, h13, h9⟩ := hletter
  by_cases hcontrol : b < 32
  · refine Or.inr (Or.inl ⟨_, _, hcontrol, hex4?_control hcontrol, ?_⟩)
    simp [escapeByte, hquote, hslash, h8, h12, h10, h13, h9, hcontrol]
  · refine Or.inr (Or.inr ⟨hquote, hslash, hcontrol, ?_⟩)
    simp [escapeByte, hquote, hslash, h8, h12, h10, h13, h9, hcontrol]

theorem unescape?_escapeByte_append (b : UInt8) (rest : Bytes) :
    unescape? (escapeByte b ++ rest) = (unescape? rest).map (b :: ·) := by
  rcases escapeByte_cases b with ⟨e, he, hletter, h⟩ | ⟨x, y, hcontrol, hcode, h⟩ | ⟨-, hb, -, h⟩
  · rw [h]
    simp [unescape?, he, hletter]
  · have hlow : b.toNat < 0xD800 := by
      have := b.toNat_lt
      omega
    rw [h]
    simp [unescape?, hcode, hlow, encodePoint_control hcontrol]
  · rw [h]
    simp [unescape?, hb]

theorem unescape?_flatMap_escapeByte (b : Bytes) : unescape? (b.flatMap escapeByte) = some b := by
  induction b with
  | nil => rfl
  | cons x b ih => rw [List.flatMap_cons, unescape?_escapeByte_append, ih, Option.map_some]

@[simp] theorem unquote?_quote (s : String) : unquote? (quote s) = some s := by
  simp [unquote?, quote, unescape?_flatMap_escapeByte]

theorem stringBody?_escapeByte_append (b : UInt8) (rest : Bytes) :
    stringBody? (escapeByte b ++ rest) =
      (stringBody? rest).map fun p => (escapeByte b ++ p.1, p.2) := by
  rcases escapeByte_cases b with
    ⟨e, he, hletter, h⟩ | ⟨x, y, -, hcode, h⟩ | ⟨hquote, hslash, hcontrol, h⟩
  · rw [h]
    simp [stringBody?, he, hletter]
  · rw [h]
    simp [stringBody?, hcode]
  · rw [h]
    simp [stringBody?, hslash, hcontrol]

/-- A quoted text is read up to its closing quote. -/
theorem stringBody?_quote_append (s : String) (rest : Bytes) :
    stringBody? (quote s ++ 0x22 :: rest) = some (quote s, rest) := by
  unfold quote
  induction Bytes.ofString s with
  | nil => rfl
  | cons b bs ih =>
    rw [List.flatMap_cons, List.append_assoc, stringBody?_escapeByte_append, ih, Option.map_some]

/-! ## Numbers -/

theorem toNat_digit {c : Char} (h : c.isDigit) :
    48 ≤ c.toNat ∧ c.toNat ≤ 57 ∧ (UInt8.ofNat c.toNat).toNat = c.toNat := by
  have hc : 48 ≤ c.toNat ∧ c.toNat ≤ 57 := by
    simpa [Char.isDigit, UInt32.le_iff_toNat_le] using h
  refine ⟨hc.1, hc.2, ?_⟩
  rw [UInt8.toNat_ofNat']
  omega

theorem isDigit_of_mem_decimal {n : Nat} {b : UInt8} (h : b ∈ decimal n) : isDigit b := by
  obtain ⟨c, hc, rfl⟩ := List.mem_map.1 h
  obtain ⟨hlo, hhi, heq⟩ := toNat_digit (Nat.isDigit_of_mem_toDigits (by decide) (by decide) hc)
  simp only [isDigit, Bool.and_eq_true, decide_eq_true_eq, UInt8.le_iff_toNat_le, heq]
  exact ⟨hlo, hhi⟩

theorem decimal_ne_nil (n : Nat) : decimal n ≠ [] := by
  simp [decimal, Nat.toDigits_ne_nil]

theorem natural?_decimal (n : Nat) : natural? (decimal n) = some n := by
  have hfold : ∀ (cs : List Char) (init : Nat), (∀ c ∈ cs, c.isDigit) →
      (cs.map fun c => UInt8.ofNat c.toNat).foldl (fun n b => 10 * n + (b.toNat - 48)) init =
        Nat.ofDigitChars 10 cs init := by
    intro cs
    induction cs with
    | nil => intro init _; rfl
    | cons c cs ih =>
      intro init h
      obtain ⟨-, -, heq⟩ := toNat_digit (h c List.mem_cons_self)
      rw [List.map_cons, List.foldl_cons, heq, ih _ fun d hd => h d (List.mem_cons_of_mem c hd),
        Nat.ofDigitChars_cons]
      rfl
  have hall : (decimal n).all isDigit := List.all_eq_true.2 fun b hb => isDigit_of_mem_decimal hb
  unfold natural?
  rw [if_pos ⟨decimal_ne_nil n, hall⟩, decimal,
    hfold _ 0 fun c hc => Nat.isDigit_of_mem_toDigits (by decide) (by decide) hc,
    Nat.ofDigitChars_ten_toDigits]

theorem head?_toDigits_ne_zero {n : Nat} (h : n ≠ 0) : (Nat.toDigits 10 n).head? ≠ some '0' := by
  induction n using Nat.strongRecOn with
  | _ n ih =>
    rw [Nat.toDigits_eq_if (by decide)]
    split
    · have hall : ∀ n < 10, n ≠ 0 → [n.digitChar].head? ≠ some '0' := by decide
      exact hall n ‹_› h
    · have hfirst := ih (n / 10) (by omega) (by omega)
      cases hds : Nat.toDigits 10 (n / 10) with
      | nil => exact absurd hds Nat.toDigits_ne_nil
      | cons d ds =>
        rw [hds] at hfirst
        exact hfirst

/-- What may follow a value within a text: nothing, a comma, or a closing bracket. -/
def Stops (rest : Bytes) : Prop := ∀ b ∈ rest.head?, b = 0x2C ∨ b = 0x5D ∨ b = 0x7D

theorem digits?_decimal_append (n : Nat) {rest : Bytes} (h : Stops rest) :
    digits? (decimal n ++ rest) = some (decimal n, rest) := by
  have hrest : rest.takeWhile isDigit = [] ∧ rest.dropWhile isDigit = rest := by
    cases rest with
    | nil => exact ⟨rfl, rfl⟩
    | cons b rest =>
      have hb : isDigit b = false := by
        rcases h b rfl with rfl | rfl | rfl <;> rfl
      simp [hb]
  have hdigits : ∀ b ∈ decimal n, isDigit b = true := fun b hb => isDigit_of_mem_decimal hb
  unfold digits?
  rw [List.takeWhile_append_of_pos hdigits, List.dropWhile_append_of_pos hdigits, hrest.1, hrest.2,
    List.append_nil]
  simp [decimal_ne_nil]

theorem whole?_decimal_append (n : Nat) {rest : Bytes} (h : Stops rest) :
    whole? (decimal n ++ rest) = some (decimal n, rest) := by
  by_cases hn : n = 0
  · subst hn
    rfl
  · have hhead : (decimal n ++ rest).head? ≠ some 0x30 := by
      cases hds : Nat.toDigits 10 n with
      | nil => exact absurd hds Nat.toDigits_ne_nil
      | cons c cs =>
        have hc : c.isDigit :=
          Nat.isDigit_of_mem_toDigits (by decide) (by decide) (hds ▸ List.mem_cons_self)
        have hzero : c ≠ '0' := by
          have := head?_toDigits_ne_zero hn
          rw [hds] at this
          simpa using this
        simp only [decimal, hds, List.map_cons, List.cons_append, List.head?_cons, ne_eq,
          Option.some.injEq]
        intro heq
        have hcode := (toNat_digit hc).2.2
        rw [heq] at hcode
        exact hzero (Char.toNat_inj.1 hcode.symm)
    rw [← digits?_decimal_append n h]
    unfold whole?
    split
    · next heq => rw [heq] at hhead; exact absurd rfl hhead
    · rfl

/-- A natural number is read up to what follows it. -/
theorem number?_decimal_append (n : Nat) {rest : Bytes} (h : Stops rest) :
    number? (decimal n ++ rest) = some (decimal n, rest) := by
  obtain ⟨d, ds, hds⟩ := List.exists_cons_of_ne_nil (decimal_ne_nil n)
  have hminus : d ≠ 0x2D := by
    rintro rfl
    have := isDigit_of_mem_decimal (hds ▸ List.mem_cons_self : (0x2D : UInt8) ∈ decimal n)
    exact absurd this (by decide)
  have hfraction : fraction? rest = some ([], rest) := by
    unfold fraction?
    split
    · rcases h 0x2E rfl with h | h | h <;> exact absurd h (by decide)
    · rfl
  have hpower : power? rest = some ([], rest) := by
    cases rest with
    | nil => rfl
    | cons b rest =>
      have hb : ¬ (b = 0x65 ∨ b = 0x45) := by
        rcases h b rfl with rfl | rfl | rfl <;> decide
      simp [power?, hb]
  unfold number?
  simp only [hds, List.cons_append]
  split
  · next heq => exact absurd (List.cons.inj heq).1 hminus
  · next b hb =>
    have hwhole := whole?_decimal_append n h
    rw [hds, List.cons_append] at hwhole
    rw [hwhole]
    simp [hfraction, hpower]

end WaterPeg.Json
