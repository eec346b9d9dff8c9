import WaterPeg.Calendar

/-! The text of a date reads back as the date. -/
namespace WaterPeg.Date

/-! ## Digits -/

theorem isDigit_of_mem_digits {width n : Nat} {c : Char} (h : c ∈ digits width n) : c.isDigit := by
  unfold digits at h
  rcases List.mem_append.1 h with h | h
  · rw [(List.mem_replicate.1 h).2]
    rfl
  · exact Nat.isDigit_of_mem_toDigits (by decide) (by decide) h

theorem ofDigitChars_digits (width n : Nat) : Nat.ofDigitChars 10 (digits width n) 0 = n := by
  rw [digits, Nat.ofDigitChars_append, Nat.ofDigitChars_replicate_zero, Nat.mul_zero,
    Nat.ofDigitChars_ten_toDigits]

theorem digits_ne_nil (width n : Nat) : digits width n ≠ [] := by
  simp [digits, Nat.toDigits_ne_nil]

theorem length_digits (width n : Nat) :
    (digits width n).length = max width (Nat.toDigits 10 n).length := by
  rw [digits, List.length_append, List.length_replicate]
  omega

theorem length_digits_two {n : Nat} (h : n < 100) : (digits 2 n).length = 2 := by
  rw [length_digits, Nat.max_eq_left ((Nat.length_toDigits_le_iff (by decide) (by decide)).2 h)]

theorem length_digits_four {n : Nat} (h : n ≤ 9999) : (digits 4 n).length = 4 := by
  have hlength := Nat.length_toDigits_le_iff (b := 10) (n := n) (by decide) (by decide : 0 < 4)
  rw [length_digits, Nat.max_eq_left (hlength.2 (Nat.lt_succ_of_le h))]

theorem number?_digits_append (width : Option Nat) (w n : Nat) {rest : List Char}
    (hwidth : ∀ k ∈ width, (digits w n).length ≤ k) (hrest : ∀ c ∈ rest.head?, ¬ c.isDigit) :
    number? width (digits w n ++ rest) = some (n, rest) := by
  have hrun : (digits w n ++ rest).takeWhile Char.isDigit = digits w n := by
    rw [List.takeWhile_append_of_pos fun c hc => isDigit_of_mem_digits hc]
    cases rest with
    | nil => simp
    | cons c rest => simp [hrest c rfl]
  have htake : ∀ k ∈ width, (digits w n).take k = digits w n :=
    fun k hk => List.take_of_length_le (hwidth k hk)
  unfold number?
  cases width with
  | none => simp [hrun, digits_ne_nil, ofDigitChars_digits]
  | some k => simp [hrun, htake k rfl, digits_ne_nil, ofDigitChars_digits]

/-! ## Parts -/

theorem not_isDigit_head?_hyphen (rest : List Char) : ∀ c ∈ ('-' :: rest).head?, ¬ c.isDigit := by
  have hhyphen : '-'.isDigit = false := rfl
  simp [hhyphen]

theorem dropWhile_isBlank_digits_append (w n : Nat) (rest : List Char) :
    (digits w n ++ rest).dropWhile Text.isBlank = digits w n ++ rest := by
  obtain ⟨d, ds, hds⟩ := List.exists_cons_of_ne_nil (digits_ne_nil w n)
  have hdigit : d.isDigit := isDigit_of_mem_digits (hds ▸ List.mem_cons_self)
  have hblank : Text.isBlank d = false := by
    have hrange : 48 ≤ d.toNat ∧ d.toNat ≤ 57 := by
      simpa [Char.isDigit, UInt32.le_iff_toNat_le] using hdigit
    simp only [Text.isBlank, Bool.or_eq_false_iff, Bool.and_eq_false_iff, decide_eq_false_iff_not,
      beq_eq_false_iff_ne, ne_eq]
    omega
  rw [hds, List.cons_append, List.dropWhile_cons_of_neg (by simp [hblank])]

theorem year?_yearText_append (year : Int) (rest : List Char) :
    year? (yearText year ++ '-' :: rest) = some (year, '-' :: rest) := by
  have hhyphen := not_isDigit_head?_hyphen rest
  unfold yearText
  split
  · next n =>
    split
    · next hn =>
      have hread := number?_digits_append (some 4) 4 n
        (fun k hk => Option.some.inj hk ▸ Nat.le_of_eq (length_digits_four hn)) hhyphen
      unfold year?
      rw [dropWhile_isBlank_digits_append]
      obtain ⟨d, ds, hds⟩ := List.exists_cons_of_ne_nil (digits_ne_nil 4 n)
      have hdigit : d.isDigit := isDigit_of_mem_digits (hds ▸ List.mem_cons_self)
      -- A digit is not a sign.
      split
      case h_3 =>
        rw [hread]
        rfl
      all_goals
        next heq =>
          rw [hds] at heq
          rw [(List.cons.inj heq).1] at hdigit
          exact absurd hdigit (by decide)
    · have hread := number?_digits_append none 4 n nofun hhyphen
      change (number? none (digits 4 n ++ '-' :: rest)).map _ = _
      rw [hread]
      rfl
  · next n =>
    have hread := number?_digits_append none 4 (n + 1) nofun hhyphen
    change (number? none (digits 4 (n + 1) ++ '-' :: rest)).map _ = _
    rw [hread]
    rfl

theorem field?_digits_append {n : Nat} (hn : n < 100) (rest : List Char)
    (hrest : ∀ c ∈ rest.head?, ¬ c.isDigit) :
    field? ('-' :: (digits 2 n ++ rest)) = some (n, rest) := by
  change number? (some 2) ((digits 2 n ++ rest).dropWhile Text.isBlank) = _
  rw [dropWhile_isBlank_digits_append]
  exact number?_digits_append _ _ _
    (fun k hk => Option.some.inj hk ▸ Nat.le_of_eq (length_digits_two hn)) hrest

theorem ofParts?_parts (d : Date) : ofParts? d.year d.month d.day = some d := by
  simp [ofParts?, d.year_mem, d.month_mem, d.day_mem]

theorem month_lt (d : Date) : d.month < 100 := by
  have := d.month_mem
  omega

theorem day_lt (d : Date) : d.day < 100 := by
  have hall : ∀ leap : Bool, ∀ month < 13, daysInMonth leap month < 100 := by decide
  have hmonth := hall (isLeapYear d.year) d.month (by have := d.month_mem; omega)
  have := d.day_mem
  omega

/-- The text of a date reads back as the date. -/
@[simp] theorem ofText?_text (d : Date) : ofText? d.text = some d := by
  have hyear := year?_yearText_append d.year (digits 2 d.month ++ '-' :: digits 2 d.day)
  have hmonth := field?_digits_append d.month_lt ('-' :: digits 2 d.day)
    (not_isDigit_head?_hyphen _)
  have hday := field?_digits_append d.day_lt [] nofun
  rw [List.append_nil] at hday
  unfold ofText? text
  rw [String.toList_ofList, List.append_assoc, List.cons_append, hyear]
  simp only [Option.bind_eq_bind, Option.bind_some, hmonth, hday, List.dropWhile_nil,
    List.isEmpty_nil, if_true, ofParts?_parts]

theorem text_injective {a b : Date} (h : a.text = b.text) : a = b := by
  have := congrArg ofText? h
  simpa using this

end WaterPeg.Date
