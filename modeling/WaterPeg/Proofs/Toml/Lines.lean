import Mathlib.Algebra.Group.Nat.Defs
import WaterPeg.Proofs.Json.Tokens
import WaterPeg.Toml.Reader

/-!
The lines of a plain document read back: headers of one bare name, and bare keys with a whole number, a
quoted number or a truth value behind an equals sign. Each line is read up to its line break, whatever
comes after it, so that the lines of a document are read one by one.
-/
namespace WaterPeg.Toml

theorem skipBlanks_cons {c : Char} (h : isBlank c = false) (cs : List Char) :
    skipBlanks (c :: cs) = c :: cs := by
  simp [skipBlanks, h]

/-! ## Classes of characters -/

section Classes

variable {p : Char → Bool} {c : Char} (hc : p c)

include hc

theorem ne_of_class {d : Char} (hd : p d = false) : c ≠ d := by
  rintro rfl
  exact absurd hc (Bool.eq_false_iff.1 hd)

theorem isBlank_of_class (hspace : p ' ' = false) (htab : p '\t' = false) : isBlank c = false := by
  simp [isBlank, ne_of_class hc hspace, ne_of_class hc htab]

end Classes

/-! ## Numbers -/

theorem isDigit_of_mem_toDigits {n : Nat} {c : Char} (h : c ∈ Nat.toDigits 10 n) : c.isDigit :=
  Nat.isDigit_of_mem_toDigits (by decide) (by decide) h

theorem isPrintable_of_isDigit {c : Char} (h : c.isDigit) : isPrintable c := by
  have hall : ∀ n < 58, 48 ≤ n → isPrintable (Char.ofNat n) := by decide
  obtain ⟨hlo, hhi, -⟩ := Json.toNat_digit h
  rw [← Char.ofNat_toNat c]
  exact hall c.toNat (by omega) hlo

section Digits

variable {ds : List Char} (hds : ∀ c ∈ ds, c.isDigit) (rest : List Char)

include hds

theorem moreDigits?_append :
    moreDigits? Char.isDigit (ds ++ '\n' :: rest) = some (ds, '\n' :: rest) := by
  induction ds with
  | nil => rfl
  | cons c ds ih =>
    have hc : c.isDigit := hds c List.mem_cons_self
    have hscore : c ≠ '_' := ne_of_class hc (by decide)
    rw [List.cons_append]
    unfold moreDigits?
    split
    · next heq => exact nomatch heq
    · next heq => exact absurd (List.cons.inj heq).1 hscore
    · next heq => exact absurd (List.cons.inj heq).1 hscore
    · next heq =>
      obtain ⟨rfl, rfl⟩ := List.cons.inj heq
      rw [if_pos hc, ih fun d hd => hds d (List.mem_cons_of_mem _ hd), Option.map_some]

theorem digits?_append (hne : ds ≠ []) :
    digits? Char.isDigit (ds ++ '\n' :: rest) = some (ds, '\n' :: rest) := by
  obtain ⟨c, ds, rfl⟩ := List.exists_cons_of_ne_nil hne
  rw [List.cons_append, digits?, if_pos (hds c List.mem_cons_self),
    moreDigits?_append (fun d hd => hds d (List.mem_cons_of_mem c hd)), Option.map_some]

/-- However the text is split, what ends the digits at its front is the line break. -/
theorem eq_lineBreak_of_append (es : List Char) {c : Char} {rest' : List Char}
    (hes : es.all Char.isDigit) (hc : c.isDigit = false)
    (h : ds ++ '\n' :: rest = es ++ c :: rest') : c = '\n' := by
  have hdrop := congrArg (List.dropWhile Char.isDigit) h
  rw [List.dropWhile_append_of_pos hds, List.dropWhile_append_of_pos (List.all_eq_true.1 hes),
    List.dropWhile_cons_of_neg (by decide), List.dropWhile_cons_of_neg (by simp [hc])] at hdrop
  exact (List.cons.inj hdrop).1.symm

/-- Digits that go on to a line break do not begin a date, where they go on to a hyphen. -/
theorem beginsDate_append : beginsDate (ds ++ '\n' :: rest) = false := by
  unfold beginsDate
  split
  · next w x y z rest' heq =>
    rw [Bool.eq_false_iff]
    intro hdigits
    have hmark := eq_lineBreak_of_append hds rest [w, x, y, z]
      (by simpa [Bool.and_assoc] using hdigits) (by decide) heq
    exact absurd hmark (by decide)
  · rfl

/-- Nor do they begin a time, where they go on to a colon. -/
theorem beginsTime_append : beginsTime (ds ++ '\n' :: rest) = false := by
  unfold beginsTime
  split
  · next x y rest' heq =>
    rw [Bool.eq_false_iff]
    intro hdigits
    have hmark := eq_lineBreak_of_append hds rest [x, y] (by simpa using hdigits) (by decide) heq
    exact absurd hmark (by decide)
  · rfl

end Digits

theorem whole?_toDigits (n : Nat) (rest : List Char) :
    whole? (Nat.toDigits 10 n ++ '\n' :: rest) = some (Nat.toDigits 10 n, '\n' :: rest) := by
  by_cases hn : n = 0
  · subst hn
    rfl
  · obtain ⟨d, ds, hds⟩ := List.exists_cons_of_ne_nil (Nat.toDigits_ne_nil (b := 10) (n := n))
    have hzero : d ≠ '0' := by
      have hhead := Json.head?_toDigits_ne_zero hn
      rw [hds] at hhead
      simpa using hhead
    rw [← digits?_append (fun c hc => isDigit_of_mem_toDigits hc) rest Nat.toDigits_ne_nil, hds]
    unfold whole?
    split
    · next heq => exact absurd (List.cons.inj heq).1 hzero
    · rfl

/-- What begins with digits is a decimal number: neither the mark of another base nor a sign or word
comes first. -/
theorem number?_append {d : Char} {ds : List Char} (hds : ∀ c ∈ d :: ds, c.isDigit)
    (rest : List Char) :
    number? (d :: ds ++ '\n' :: rest) = decimal? false (d :: ds ++ '\n' :: rest) := by
  have hd : d.isDigit := hds d List.mem_cons_self
  have hsecond : ∀ c cs, ds ++ '\n' :: rest = c :: cs → c.isDigit ∨ c = '\n' := by
    intro c cs heq
    cases ds with
    | nil => exact Or.inr (List.cons.inj heq).1.symm
    | cons e es =>
      obtain ⟨rfl, -⟩ := List.cons.inj heq
      exact Or.inl (hds _ (List.mem_cons_of_mem d List.mem_cons_self))
  rw [List.cons_append]
  unfold number?
  split
  case h_6 =>
    unfold unsigned?
    split
    case h_3 => rfl
    all_goals
      next heq =>
        obtain ⟨rfl, -⟩ := List.cons.inj heq
        exact absurd hd (by decide)
  case h_1 | h_2 | h_3 =>
    next heq => exact absurd (hsecond _ _ (List.cons.inj heq).2) (by decide)
  all_goals
    next heq =>
      obtain ⟨rfl, -⟩ := List.cons.inj heq
      exact absurd hd (by decide)

/-- A whole number that signed words hold is read up to its line break. -/
theorem scalar?_toDigits {n : Nat} (hn : n < 2 ^ 63) (rest : List Char) :
    scalar? (Nat.toDigits 10 n ++ '\n' :: rest) = some (.integer n, '\n' :: rest) := by
  have hdigits : ∀ c ∈ Nat.toDigits 10 n, c.isDigit := fun c hc => isDigit_of_mem_toDigits hc
  have hword : integer? n = some (.integer n) := by
    refine if_pos ⟨?_, ?_⟩
    · exact Int.le_trans (by decide : Int64.minValue.toInt ≤ 0) (Int.natCast_nonneg n)
    · have hmax : Int64.maxValue.toInt = 2 ^ 63 - 1 := rfl
      omega
  have hdecimal : decimal? false (Nat.toDigits 10 n ++ '\n' :: rest) =
      some (.integer n, '\n' :: rest) := by
    simp [decimal?, whole?_toDigits, fraction?, power?, Nat.ofDigitChars_ten_toDigits, hword]
  obtain ⟨d, ds, hds⟩ := List.exists_cons_of_ne_nil (Nat.toDigits_ne_nil (b := 10) (n := n))
  unfold scalar?
  rw [beginsDate_append hdigits, beginsTime_append hdigits, ← hdecimal, hds]
  exact number?_append (hds ▸ hdigits) rest

/-! ## Quoted digits -/

section Quoted

variable {ds : List Char} (hds : ∀ c ∈ ds, c.isDigit) (rest : List Char)

include hds

theorem quoted?_append : quoted? (ds ++ '"' :: rest) = some (ds, rest) := by
  induction ds with
  | nil => rfl
  | cons c ds ih =>
    have hc : c.isDigit := hds c List.mem_cons_self
    have hquote : c ≠ '"' := ne_of_class hc (by decide)
    have hslash : c ≠ '\\' := ne_of_class hc (by decide)
    rw [List.cons_append]
    unfold quoted?
    split
    · next heq => exact nomatch heq
    · next heq => exact absurd (List.cons.inj heq).1 hquote
    · next heq => exact absurd (List.cons.inj heq).1 hslash
    · next heq =>
      obtain ⟨rfl, rfl⟩ := List.cons.inj heq
      rw [if_pos (isPrintable_of_isDigit hc), ih fun d hd => hds d (List.mem_cons_of_mem _ hd),
        Option.map_some]

theorem unescape?_digits : unescape? false ds = some ds := by
  induction ds with
  | nil => rfl
  | cons c ds ih =>
    have hc : c.isDigit := hds c List.mem_cons_self
    have hslash : c ≠ '\\' := ne_of_class hc (by decide)
    unfold unescape?
    split
    case h_1 heq => exact nomatch heq
    case h_6 heq =>
      obtain ⟨rfl, rfl⟩ := List.cons.inj heq
      rw [Bool.false_and, if_neg Bool.false_ne_true,
        ih fun d hd => hds d (List.mem_cons_of_mem _ hd), Option.map_some]
    all_goals
      next heq => exact absurd (List.cons.inj heq).1 hslash

/-- Digits between quotes are the text of the digits. -/
theorem text?_quoted (hne : ds ≠ []) :
    text? ('"' :: (ds ++ '"' :: rest)) = some (String.ofList ds, rest) := by
  have hline : lineText? ('"' :: (ds ++ '"' :: rest)) = some (String.ofList ds, rest) := by
    simp [lineText?, quoted?_append hds, unescape?_digits hds]
  obtain ⟨c, cs, rfl⟩ := List.exists_cons_of_ne_nil hne
  have hquote : c ≠ '"' := ne_of_class (hds c List.mem_cons_self) (by decide)
  rw [← hline]
  unfold text?
  split
  · next heq => exact absurd (List.cons.inj (List.cons.inj heq).2).1 hquote
  · next heq => exact absurd (List.cons.inj heq).1 (by decide)
  · rfl

end Quoted

/-! ## Values -/

structure Reads (cs : List Char) (v : Toml) : Prop where
  isBlank_head? : ∀ c ∈ cs.head?, isBlank c = false
  value?_append : ∀ limit depth rest,
    Reader.value? (limit + 1) depth (cs ++ '\n' :: rest) = some (v, '\n' :: rest)

theorem reads_bool (b : Bool) : Reads (if b then "true" else "false").toList (.bool b) := by
  have htext : (if b then "true" else "false").toList =
      if b then ['t', 'r', 'u', 'e'] else ['f', 'a', 'l', 's', 'e'] := by cases b <;> rfl
  rw [htext]
  refine ⟨fun c hc => ?_, fun limit depth rest => ?_⟩
  · cases b <;> obtain rfl := Option.some.inj hc <;> decide
  · cases b with
    | false =>
      change Reader.value? (limit + 1) depth ('f' :: 'a' :: 'l' :: 's' :: 'e' :: '\n' :: rest) = _
      rw [Reader.value?]
    | true =>
      change Reader.value? (limit + 1) depth ('t' :: 'r' :: 'u' :: 'e' :: '\n' :: rest) = _
      rw [Reader.value?]

theorem reads_text {ds : List Char} (hds : ∀ c ∈ ds, c.isDigit) (hne : ds ≠ []) :
    Reads ('"' :: (ds ++ ['"'])) (.string (String.ofList ds)) := by
  refine ⟨fun c hc => by obtain rfl := Option.some.inj hc; decide, fun limit depth rest => ?_⟩
  have htext := text?_quoted hds ('\n' :: rest) hne
  rw [List.cons_append, List.append_assoc, List.singleton_append, Reader.value?, htext,
    Option.map_some]

theorem reads_integer {n : Nat} (hn : n < 2 ^ 63) : Reads (Nat.toDigits 10 n) (.integer n) := by
  have hdigit : ∀ c ∈ Nat.toDigits 10 n, c.isDigit := fun c hc => isDigit_of_mem_toDigits hc
  refine ⟨fun c hc => ?_, fun limit depth rest => ?_⟩
  · exact isBlank_of_class (hdigit c (List.mem_of_mem_head? hc)) (by decide) (by decide)
  · have hscalar := scalar?_toDigits hn rest
    obtain ⟨d, ds, hds⟩ := List.exists_cons_of_ne_nil (Nat.toDigits_ne_nil (b := 10) (n := n))
    have hd : d.isDigit := hdigit d (hds ▸ List.mem_cons_self)
    rw [hds, List.cons_append] at hscalar ⊢
    unfold Reader.value?
    -- A digit begins no text, truth value, array or table.
    split
    case h_7 => exact hscalar
    all_goals
      next heq =>
        obtain ⟨rfl, -⟩ := List.cons.inj heq
        exact absurd hd (by decide)

/-! ## Keys -/

def IsBareKey (cs : List Char) : Prop := cs ≠ [] ∧ cs.all isBare

instance : DecidablePred IsBareKey := fun _ => inferInstanceAs (Decidable (_ ∧ _))

theorem IsBareKey.isBare {cs : List Char} (h : IsBareKey cs) {c : Char} (hc : c ∈ cs) :
    isBare c := List.all_eq_true.1 h.2 c hc

section Keys

variable {cs : List Char} (hcs : IsBareKey cs) {c : Char} (hc : isBare c = false)

include hcs

theorem skipBlanks_bare (rest : List Char) : skipBlanks (cs ++ rest) = cs ++ rest := by
  obtain ⟨d, ds, rfl⟩ := List.exists_cons_of_ne_nil hcs.1
  have hblank : isBlank d = false :=
    isBlank_of_class (hcs.isBare List.mem_cons_self) (by decide) (by decide)
  exact skipBlanks_cons hblank _

include hc

theorem keyPart?_append (rest : List Char) :
    keyPart? (cs ++ c :: rest) = some (String.ofList cs, c :: rest) := by
  have hbare : ∀ d ∈ cs, isBare d := fun _ hd => hcs.isBare hd
  have htake : (cs ++ c :: rest).takeWhile isBare = cs := by
    simp [List.takeWhile_append_of_pos hbare, hc]
  have hdrop : (cs ++ c :: rest).dropWhile isBare = c :: rest := by
    simp [List.dropWhile_append_of_pos hbare, hc]
  obtain ⟨d, ds, rfl⟩ := List.exists_cons_of_ne_nil hcs.1
  have hd : isBare d := hbare d List.mem_cons_self
  unfold keyPart?
  split
  · next heq => exact absurd (List.cons.inj heq).1 (ne_of_class hd (by decide))
  · next heq => exact absurd (List.cons.inj heq).1 (ne_of_class hd (by decide))
  · rw [htake, hdrop]
    rfl

/-- A bare key is read up to what follows it and the blanks after it, if that is no point. -/
theorem key?_append {rest : List Char} {d : Char} {after : List Char}
    (hskip : skipBlanks (c :: rest) = d :: after) (hd : d ≠ '.') :
    key? (cs ++ c :: rest) = some (([], String.ofList cs), d :: after) := by
  have hparts : keyParts? maxDepth (cs ++ c :: rest) = some ([String.ofList cs], d :: after) := by
    unfold maxDepth keyParts?
    rw [skipBlanks_bare hcs, keyPart?_append hcs hc]
    dsimp only
    rw [hskip]
    split
    · next heq => exact absurd (List.cons.inj heq).1 hd
    · rfl
  simp [key?, hparts]

end Keys

/-! ## Lines -/

def ReadsLine (cs : List Char) (line : Reader.Line) : Prop :=
  ∀ rest, Reader.line? (cs ++ rest) = some (line, rest)

theorem readsLine_empty : ReadsLine ['\n'] .empty := fun _ => rfl

theorem readsLine_header {name : List Char} (h : IsBareKey name) :
    ReadsLine ('[' :: (name ++ [']', '\n'])) (.header ⟨[], String.ofList name, false⟩) := by
  intro rest
  have hkey : key? (name ++ ']' :: '\n' :: rest) =
      some (([], String.ofList name), ']' :: '\n' :: rest) :=
    key?_append h (by decide) (skipBlanks_cons (by decide) _) (by decide)
  have htext : '[' :: (name ++ [']', '\n']) ++ rest = '[' :: (name ++ ']' :: '\n' :: rest) := by simp
  have hblank : skipBlanks ('[' :: (name ++ ']' :: '\n' :: rest)) = _ :=
    skipBlanks_cons (by decide) _
  obtain ⟨d, ds, rfl⟩ := List.exists_cons_of_ne_nil h.1
  have hd : isBare d := h.isBare List.mem_cons_self
  rw [htext]
  unfold Reader.line?
  rw [hblank]
  -- A second bracket would open the header of one of several tables.
  split
  case h_4 heq =>
    exact absurd (List.cons.inj (List.cons.inj heq).2).1 (ne_of_class hd (by decide))
  case h_5 heq =>
    obtain rfl := (List.cons.inj heq).2
    rw [hkey]
    rfl
  case h_6 hno => exact absurd rfl (hno _)
  all_goals
    next heq => exact absurd (List.cons.inj heq).1 (by decide)

theorem pair?_append {name value : List Char} {v : Toml} (hname : IsBareKey name)
    (hvalue : Reads value v) (limit depth : Nat) (rest : List Char) :
    Reader.pair? (limit + 2) depth (name ++ ' ' :: '=' :: ' ' :: (value ++ '\n' :: rest)) =
      some (⟨[], String.ofList name, v⟩, '\n' :: rest) := by
  have hkey : key? (name ++ ' ' :: '=' :: ' ' :: (value ++ '\n' :: rest)) =
      some (([], String.ofList name), '=' :: ' ' :: (value ++ '\n' :: rest)) :=
    key?_append hname (by decide) (skipBlanks_cons (c := '=') (by decide) _) (by decide)
  have hskip : skipBlanks (' ' :: (value ++ '\n' :: rest)) = value ++ '\n' :: rest := by
    change skipBlanks (value ++ '\n' :: rest) = _
    cases value with
    | nil => rfl
    | cons c cs => exact skipBlanks_cons (hvalue.isBlank_head? c rfl) _
  simp only [Reader.pair?, hkey, hskip, hvalue.value?_append, Option.map_some]

theorem readsLine_pair {name value : List Char} {v : Toml} (hname : IsBareKey name)
    (hvalue : Reads value v) :
    ReadsLine (name ++ ' ' :: '=' :: ' ' :: (value ++ ['\n']))
      (.pair ⟨[], String.ofList name, v⟩) := by
  intro rest
  have htext : name ++ ' ' :: '=' :: ' ' :: (value ++ ['\n']) ++ rest =
      name ++ ' ' :: '=' :: ' ' :: (value ++ '\n' :: rest) := by simp
  have hblank := skipBlanks_bare hname (' ' :: '=' :: ' ' :: (value ++ '\n' :: rest))
  have hpair := fun limit => pair?_append hname hvalue limit maxDepth rest
  rw [htext]
  obtain ⟨d, ds, rfl⟩ := List.exists_cons_of_ne_nil hname.1
  have hd : isBare d := hname.isBare List.mem_cons_self
  unfold Reader.line?
  rw [hblank]
  -- A bare key begins no comment, line break or header.
  split
  case h_6 =>
    rw [hpair]
    rfl
  all_goals
    next heq =>
      obtain ⟨rfl, -⟩ := List.cons.inj heq
      exact absurd hd (by decide)

inductive ReadsLines : List Char → List Reader.Line → Prop
  | nil : ReadsLines [] []
  | cons {cs cs' : List Char} {line : Reader.Line} {lines : List Reader.Line} :
      ReadsLine cs line → ReadsLines cs' lines → ReadsLines (cs ++ cs') (line :: lines)

theorem ReadsLines.append {cs cs' : List Char} {lines lines' : List Reader.Line}
    (h : ReadsLines cs lines) (h' : ReadsLines cs' lines') :
    ReadsLines (cs ++ cs') (lines ++ lines') := by
  induction h with
  | nil => exact h'
  | cons hline _ ih => exact List.append_assoc .. ▸ ReadsLines.cons hline ih

/-- What is read as a line is not blank. -/
theorem skipBlanks_ne_nil {cs : List Char} {r : Reader.Line × List Char}
    (h : Reader.line? cs = some r) : skipBlanks cs ≠ [] := by
  intro hblank
  unfold Reader.line? at h
  have hpair : Reader.pair? 2 maxDepth [] = none := by
    simp [Reader.pair?, key?, maxDepth, keyParts?, keyPart?, skipBlanks]
  rw [hblank] at h
  simp [hpair] at h

theorem ReadsLines.lines? {cs : List Char} {lines : List Reader.Line} (h : ReadsLines cs lines) :
    Reader.lines? (cs.length + 1) cs = some lines := by
  suffices hlimit : ∀ limit, cs.length < limit → Reader.lines? limit cs = some lines from
    hlimit _ (Nat.lt_succ_self _)
  induction h with
  | nil =>
    intro limit hlimit
    obtain ⟨limit, rfl⟩ := Nat.exists_eq_succ_of_ne_zero (Nat.ne_of_gt hlimit)
    rfl
  | @cons cs cs' line lines hline _ ih =>
    intro limit hlimit
    obtain ⟨limit, rfl⟩ := Nat.exists_eq_succ_of_ne_zero (Nat.ne_of_gt (Nat.zero_lt_of_lt hlimit))
    have hne : cs ≠ [] := by
      rintro rfl
      exact absurd rfl (skipBlanks_ne_nil (hline []))
    have hpos : 0 < cs.length := List.length_pos_iff.2 hne
    have hrest := ih limit (by rw [List.length_append] at hlimit; omega)
    simp [Reader.lines?, hline cs', hrest, skipBlanks_ne_nil (hline cs')]

end WaterPeg.Toml
