import Mathlib.Data.Int.CardIntervalMod
import Mathlib.Data.List.Dedup
import WaterPeg.Invite
import WaterPeg.Proofs.Random

/-!
Whom invites go to. The users of three tiers are drawn in a round, which has each of them once and the
tiers one after the other, and the round is repeated until there are enough. How the directory lists
the users of a tier does not matter.
-/
namespace WaterPeg.Invite

variable {u : String} {us vs round : List String} {seen : Std.ExtTreeSet String}

/-! ## Users in the order of their first occurrence -/

theorem firstOccurrences_cons_of_mem (h : u ∈ seen) :
    firstOccurrences seen (u :: us) = firstOccurrences seen us :=
  if_pos (Std.ExtTreeSet.contains_iff_mem.2 h)

theorem firstOccurrences_cons_of_notMem (h : u ∉ seen) :
    firstOccurrences seen (u :: us) = u :: firstOccurrences (seen.insert u) us :=
  if_neg fun hc => h (Std.ExtTreeSet.contains_iff_mem.1 hc)

theorem mem_insert_iff {v : String} : u ∈ seen.insert v ↔ u = v ∨ u ∈ seen := by
  rw [Std.ExtTreeSet.mem_insert, Std.LawfulEqCmp.compare_eq_iff_eq, eq_comm]

theorem mem_firstOccurrences : u ∈ firstOccurrences seen us ↔ u ∈ us ∧ u ∉ seen := by
  induction us generalizing seen with
  | nil => simp [firstOccurrences]
  | cons v us ih =>
    by_cases hv : v ∈ seen
    · rw [firstOccurrences_cons_of_mem hv, ih, List.mem_cons]
      refine ⟨fun h => ⟨.inr h.1, h.2⟩, fun h => ⟨h.1.resolve_left ?_, h.2⟩⟩
      rintro rfl
      exact h.2 hv
    · rw [firstOccurrences_cons_of_notMem hv, List.mem_cons, ih, List.mem_cons, mem_insert_iff]
      by_cases huv : u = v
      · simp [huv, hv]
      · simp [huv]

theorem nodup_firstOccurrences (seen : Std.ExtTreeSet String) (us : List String) :
    (firstOccurrences seen us).Nodup := by
  induction us generalizing seen with
  | nil => exact .nil
  | cons v us ih =>
    by_cases hv : v ∈ seen
    · rw [firstOccurrences_cons_of_mem hv]
      exact ih seen
    · rw [firstOccurrences_cons_of_notMem hv]
      refine List.nodup_cons.2 ⟨fun h => ?_, ih _⟩
      exact (mem_firstOccurrences.1 h).2 (mem_insert_iff.2 (.inl rfl))

/-- Those that come after some users are listed without them. -/
theorem firstOccurrences_append (seen : Std.ExtTreeSet String) (us vs : List String) :
    ∃ seen' : Std.ExtTreeSet String, (∀ u, u ∈ seen' ↔ u ∈ seen ∨ u ∈ us) ∧
      firstOccurrences seen (us ++ vs) =
        firstOccurrences seen us ++ firstOccurrences seen' vs := by
  induction us generalizing seen with
  | nil => exact ⟨seen, by simp, rfl⟩
  | cons v us ih =>
    rw [List.cons_append]
    by_cases hv : v ∈ seen
    · obtain ⟨seen', hseen', heq⟩ := ih seen
      rw [firstOccurrences_cons_of_mem hv, firstOccurrences_cons_of_mem hv]
      refine ⟨seen', fun u => ?_, heq⟩
      rw [hseen', List.mem_cons]
      refine ⟨fun h => h.imp_right .inr, ?_⟩
      rintro (h | rfl | h)
      · exact .inl h
      · exact .inl hv
      · exact .inr h
    · obtain ⟨seen', hseen', heq⟩ := ih (seen.insert v)
      rw [firstOccurrences_cons_of_notMem hv, firstOccurrences_cons_of_notMem hv]
      refine ⟨seen', fun u => ?_, by rw [heq, List.cons_append]⟩
      rw [hseen', mem_insert_iff, List.mem_cons, or_assoc, or_left_comm]

/-! ## Repeating a round -/

/-- The round from the beginning again and again, up to `count` users. -/
def cycled (round : List String) (count : Nat) : List String :=
  (List.range count).filterMap fun i => round[i % round.length]?

theorem cycled_nil (count : Nat) : cycled [] count = [] := by simp [cycled]

theorem cycled_eq_map (hpos : 0 < round.length) (count : Nat) :
    cycled round count =
      (List.range count).map fun i => round.get ⟨i % round.length, Nat.mod_lt i hpos⟩ := by
  rw [← List.filterMap_eq_map']
  exact List.filterMap_congr fun i _ => List.getElem?_eq_getElem (Nat.mod_lt i hpos)

theorem length_cycled (hpos : 0 < round.length) (count : Nat) :
    (cycled round count).length = count := by
  rw [cycled_eq_map hpos, List.length_map, List.length_range]

theorem getElem?_cycled (hpos : 0 < round.length) {count i : Nat} (hi : i < count) :
    (cycled round count)[i]? = round[i % round.length]? := by
  rw [cycled_eq_map hpos, List.getElem?_map, List.getElem?_range hi,
    List.getElem?_eq_getElem (Nat.mod_lt i hpos)]
  rfl

/-- The beginning of what is drawn is that of the round. -/
theorem take_cycled (hpos : 0 < round.length) (count : Nat) :
    (cycled round count).take round.length = round.take count := by
  refine List.ext_getElem? fun i => ?_
  rw [List.getElem?_take, List.getElem?_take]
  by_cases hround : i < round.length
  · rw [if_pos hround]
    by_cases hcount : i < count
    · rw [if_pos hcount, getElem?_cycled hpos hcount, Nat.mod_eq_of_lt hround]
    · rw [if_neg hcount, List.getElem?_eq_none]
      rw [length_cycled hpos]
      omega
  · rw [if_neg hround, List.getElem?_eq_none (Nat.le_of_not_lt hround), ite_self]

theorem mem_cycled (hpos : 0 < round.length) {count : Nat} :
    u ∈ cycled round count ↔ u ∈ round.take count := by
  rw [← take_cycled hpos]
  refine ⟨fun h => ?_, List.mem_of_mem_take⟩
  obtain ⟨i, hi⟩ := List.mem_iff_getElem?.1 h
  have hcount : i < count := by
    have hlt := (List.getElem?_eq_some_iff.1 hi).1
    rwa [length_cycled hpos] at hlt
  have hmod : i % round.length < count := Nat.lt_of_le_of_lt (Nat.mod_le ..) hcount
  rw [getElem?_cycled hpos hcount] at hi
  refine List.mem_iff_getElem?.2 ⟨i % round.length, ?_⟩
  rw [List.getElem?_take, if_pos (Nat.mod_lt i hpos), getElem?_cycled hpos hmod, Nat.mod_mod, hi]

/-- A user is drawn once in each whole round, and perhaps in the last. -/
theorem count_cycled (hnodup : round.Nodup) {a : Nat} (ha : round[a]? = some u) (count : Nat) :
    (cycled round count).count u =
      count / round.length + if a < count % round.length then 1 else 0 := by
  have hlt : a < round.length := (List.getElem?_eq_some_iff.1 ha).1
  have hpos : 0 < round.length := Nat.zero_lt_of_lt hlt
  have hplace (i : Nat) : ((round[i % round.length]?.map (· == u)).getD false) =
      decide (i ≡ a [MOD round.length]) := by
    have hi := Nat.mod_lt i hpos
    have hsame := List.getElem?_inj (j := a) hi hnodup
    rw [ha, List.getElem?_eq_getElem hi, Option.some_inj] at hsame
    rw [List.getElem?_eq_getElem hi, Bool.eq_iff_iff, decide_eq_true_eq, Nat.ModEq,
      Nat.mod_eq_of_lt hlt, ← hsame]
    exact beq_iff_eq
  rw [List.count_eq_countP, cycled, List.countP_filterMap, funext hplace]
  have hcount := Nat.count_modEq_card count hpos a
  rw [Nat.mod_eq_of_lt hlt] at hcount
  exact hcount

/-! ## Users at the front of a round -/

def AtFront (P : String → Prop) (round : List String) : Prop :=
  ∃ front rest, front ++ rest = round ∧ (∀ u ∈ front, P u) ∧ ∀ u ∈ rest, ¬ P u

theorem atFront_firstOccurrences {P : String → Prop} (hP : ∀ u, u ∈ us ↔ P u) (vs : List String) :
    AtFront P (firstOccurrences ∅ (us ++ vs)) := by
  obtain ⟨seen, hseen, happend⟩ := firstOccurrences_append ∅ us vs
  refine ⟨_, _, happend.symm, fun u hu => ?_, fun u hu => ?_⟩
  · exact (hP u).1 (mem_firstOccurrences.1 hu).1
  · intro hPu
    exact (mem_firstOccurrences.1 hu).2 ((hseen u).2 (.inr ((hP u).2 hPu)))

namespace AtFront

variable {P : String → Prop} (h : AtFront P round)

include h

theorem pairwise : round.Pairwise fun u v => P v → P u := by
  obtain ⟨front, rest, rfl, hfront, hrest⟩ := h
  refine List.pairwise_append.2 ⟨?_, ?_, fun u hu _ _ _ => hfront u hu⟩
  · exact List.pairwise_of_forall_mem_list fun u hu _ _ _ => hfront u hu
  · exact List.pairwise_of_forall_mem_list fun _ _ v hv hPv => absurd hPv (hrest v hv)

/-- They are all drawn before any other user is, in whatever round. -/
theorem mem_take_cycled {count i : Nat} (hi : (cycled round count)[i]? = some u) (hu : ¬ P u)
    {v : String} (hv : v ∈ round) (hPv : P v) : v ∈ (cycled round count).take i := by
  obtain ⟨front, rest, rfl, hfront, hrest⟩ := h
  have hpos : 0 < (front ++ rest).length := List.length_pos_iff.2 (List.ne_nil_of_mem hv)
  have hvfront : v ∈ front := (List.mem_append.1 hv).resolve_right fun hvrest => hrest v hvrest hPv
  have hcount : i < count := by
    have hlt := (List.getElem?_eq_some_iff.1 hi).1
    rwa [length_cycled hpos] at hlt
  have hlater : front.length ≤ i := by
    rw [getElem?_cycled hpos hcount] at hi
    by_contra hlt
    have hmod := Nat.mod_le i (front ++ rest).length
    rw [List.getElem?_append_left (by omega)] at hi
    exact hu (hfront u (List.mem_of_getElem? hi))
  have htake : (cycled (front ++ rest) count).take front.length = front := by
    have hbegin := congrArg (List.take front.length) (take_cycled hpos count)
    have hle : front.length ≤ (front ++ rest).length := by
      rw [List.length_append]
      omega
    rwa [List.take_take, List.take_take, Nat.min_eq_left hle, Nat.min_eq_left (by omega),
      List.take_left] at hbegin
  rw [← htake] at hvfront
  exact List.take_subset_take_left _ hlater hvfront

end AtFront

/-! ## The order of a tier -/

theorem sorted_eq_of_perm (h : us.Perm vs) : sorted us = sorted vs := by
  have hsorted (l : List String) : (sorted l).Pairwise fun a b => decide (a ≤ b) = true := by
    apply List.pairwise_mergeSort
    · intro a b c hab hbc
      exact decide_eq_true (String.le_trans (of_decide_eq_true hab) (of_decide_eq_true hbc))
    · intro a b
      simpa only [Bool.or_eq_true, decide_eq_true_eq] using String.le_total a b
  have hperm : (sorted us).Perm (sorted vs) :=
    (List.mergeSort_perm us _).trans (h.trans (List.mergeSort_perm vs _).symm)
  exact hperm.eq_of_pairwise
    (fun a b _ _ hab hba => String.le_antisymm (of_decide_eq_true hab) (of_decide_eq_true hba))
    (hsorted us) (hsorted vs)

/-! ## Drawing in turn -/

def natives (d : Directory) (currency : Option String) : List String :=
  (currency.map d.native).getD []

def neighbours (d : Directory) (currency : Option String) : List String :=
  (currency.map d.regional).getD []

def distinct (native regional general : List String) : List String :=
  (native ++ (regional ++ general)).dedup

/-- How `count` users are picked from three tiers. Among the first picks, as many as there are distinct
users, the tiers come one after the other. -/
structure InTurn (native regional general : List String) (count : Nat) (picked : List String) :
    Prop where
  eq_nil_iff : picked = [] ↔ native = [] ∧ regional = [] ∧ general = []
  length_eq : picked ≠ [] → picked.length = count
  subset : picked ⊆ distinct native regional general
  nodup : count ≤ (distinct native regional general).length → picked.Nodup
  /-- If there are too few users, each is picked, -/
  whole : (distinct native regional general).length ≤ count →
    (picked.take (distinct native regional general).length).Perm (distinct native regional general)
  /-- and then all are again, in the same order. -/
  again : ∀ i, i + (distinct native regional general).length < count →
    picked[i + (distinct native regional general).length]? = picked[i]?
  count_le : ∀ u ∈ distinct native regional general, ∀ v ∈ distinct native regional general,
    picked.count u ≤ picked.count v + 1
  natives_first : (picked.take (distinct native regional general).length).Pairwise
    fun u v => v ∈ native → u ∈ native
  general_last : (picked.take (distinct native regional general).length).Pairwise
    fun u v => v ∈ native ∨ v ∈ regional → u ∈ native ∨ u ∈ regional
  /-- No other user is picked before all natives are, -/
  natives_used : ∀ i u, picked[i]? = some u → u ∉ native → native ⊆ picked.take i
  /-- and none from elsewhere before all of the region are. -/
  regional_used : ∀ i u, picked[i]? = some u → u ∉ native → u ∉ regional →
    regional ⊆ picked.take i

structure Round (native regional general round : List String) : Prop where
  perm : round.Perm (distinct native regional general)
  natives : AtFront (· ∈ native) round
  regional : AtFront (fun u => u ∈ native ∨ u ∈ regional) round

variable {native regional general native' regional' general' : List String}

theorem round_firstOccurrences (hnative : native'.Perm native) (hregional : regional'.Perm regional)
    (hgeneral : general'.Perm general) :
    Round native regional general (firstOccurrences ∅ (native' ++ (regional' ++ general'))) where
  perm := by
    refine (List.perm_ext_iff_of_nodup (nodup_firstOccurrences ∅ _) (List.nodup_dedup _)).2 ?_
    intro u
    rw [mem_firstOccurrences, and_iff_left Std.ExtTreeSet.not_mem_empty, List.mem_dedup]
    exact (hnative.append (hregional.append hgeneral)).mem_iff
  natives := atFront_firstOccurrences (fun _ => hnative.mem_iff) _
  regional := by
    rw [← List.append_assoc]
    refine atFront_firstOccurrences (fun u => ?_) _
    rw [List.mem_append, hnative.mem_iff, hregional.mem_iff]

theorem inTurn_nil (count : Nat) : InTurn [] [] [] count [] := by
  constructor <;> simp [distinct]

namespace Round

variable (h : Round native regional general round)

include h

theorem mem_iff : u ∈ round ↔ u ∈ native ∨ u ∈ regional ∨ u ∈ general := by
  rw [h.perm.mem_iff, distinct, List.mem_dedup, List.mem_append, List.mem_append]

theorem eq_nil_iff : round = [] ↔ native = [] ∧ regional = [] ∧ general = [] := by
  rw [← List.length_eq_zero_iff, h.perm.length_eq, List.length_eq_zero_iff, distinct,
    List.dedup_eq_nil, List.append_eq_nil_iff, List.append_eq_nil_iff]

theorem inTurn {count : Nat} (hcount : 0 < count) :
    InTurn native regional general count (cycled round count) := by
  by_cases hnil : round = []
  · obtain ⟨rfl, rfl, rfl⟩ := h.eq_nil_iff.1 hnil
    rw [hnil, cycled_nil]
    exact inTurn_nil count
  have hpos : 0 < round.length := List.length_pos_iff.2 hnil
  have hnodup : round.Nodup := h.perm.nodup_iff.2 (List.nodup_dedup _)
  have hlength : (distinct native regional general).length = round.length := h.perm.length_eq.symm
  have hbegin := take_cycled hpos count
  have hpicked : cycled round count ≠ [] := by
    rw [← List.length_pos_iff, length_cycled hpos]
    exact hcount
  constructor
  case eq_nil_iff => exact iff_of_false hpicked fun hempty => hnil (h.eq_nil_iff.2 hempty)
  case length_eq => exact fun _ => length_cycled hpos count
  case subset =>
    exact fun u hu => h.perm.mem_iff.1 (List.mem_of_mem_take ((mem_cycled hpos).1 hu))
  case nodup =>
    intro hle
    have hall : (cycled round count).take round.length = cycled round count :=
      List.take_of_length_le (by rwa [length_cycled hpos, ← hlength])
    rw [← hall, hbegin]
    exact hnodup.sublist (List.take_sublist _ _)
  case whole =>
    intro hle
    rw [hlength] at hle ⊢
    rw [hbegin, List.take_of_length_le hle]
    exact h.perm
  case again =>
    intro i hi
    rw [hlength] at hi ⊢
    rw [getElem?_cycled hpos hi, Nat.add_mod_right, getElem?_cycled hpos (by omega)]
  case count_le =>
    intro u hu v hv
    obtain ⟨a, ha⟩ := List.mem_iff_getElem?.1 (h.perm.mem_iff.2 hu)
    obtain ⟨b, hb⟩ := List.mem_iff_getElem?.1 (h.perm.mem_iff.2 hv)
    rw [count_cycled hnodup ha, count_cycled hnodup hb]
    split <;> split <;> omega
  case natives_first =>
    rw [hlength, hbegin]
    exact h.natives.pairwise.sublist (List.take_sublist _ _)
  case general_last =>
    rw [hlength, hbegin]
    exact h.regional.pairwise.sublist (List.take_sublist _ _)
  case natives_used =>
    intro i u hi hu v hv
    exact h.natives.mem_take_cycled hi hu (h.mem_iff.2 (.inl hv)) hv
  case regional_used =>
    intro i u hi hu hu' v hv
    exact h.regional.mem_take_cycled hi (not_or.2 ⟨hu, hu'⟩) (h.mem_iff.2 (.inr (.inl hv)))
      (.inr hv)

end Round

/-- What is drawn from a directory is the round through some order of its tiers. -/
theorem candidates_eq_cycled {count : Nat} (hcount : 0 < count) (d : Directory)
    (currency : Option String) (s : RandomStream) :
    ∃ native regional general,
      native.Perm (natives d currency) ∧ regional.Perm (neighbours d currency) ∧
        general.Perm d.everyone ∧
          (candidates d currency count s).1 =
            cycled (firstOccurrences ∅ (native ++ (regional ++ general))) count := by
  have hshuffled {s s' : RandomStream} {users drawn : List String}
      (h : s.shuffle (sorted users) = (drawn, s')) : drawn.Perm users := by
    have hperm := RandomStream.shuffle_perm s (sorted users)
    rw [h] at hperm
    exact hperm.trans (List.mergeSort_perm users _)
  rcases hnative : s.shuffle (sorted (natives d currency)) with ⟨native, s'⟩
  rcases hregional : s'.shuffle (sorted (neighbours d currency)) with ⟨regional, s''⟩
  rcases hgeneral : s''.shuffle (sorted d.everyone) with ⟨general, _⟩
  refine ⟨native, regional, general, hshuffled hnative, hshuffled hregional, hshuffled hgeneral, ?_⟩
  unfold natives at hnative
  unfold neighbours at hregional
  unfold candidates
  rw [if_neg (Nat.ne_of_gt hcount), hnative]
  dsimp only
  rw [hregional]
  dsimp only
  rw [hgeneral]
  simp only [List.getElem?_toArray, List.size_toArray]
  rfl

theorem candidates_eq_of_perm {d d' : Directory} {currency : Option String}
    (hnative : (natives d' currency).Perm (natives d currency))
    (hregional : (neighbours d' currency).Perm (neighbours d currency))
    (heveryone : d'.everyone.Perm d.everyone) (count : Nat) (s : RandomStream) :
    candidates d' currency count s = candidates d currency count s := by
  have hsorted := sorted_eq_of_perm hnative
  have hsorted' := sorted_eq_of_perm hregional
  unfold natives at hsorted
  unfold neighbours at hsorted'
  unfold candidates
  rw [hsorted, hsorted', sorted_eq_of_perm heveryone]

/-- Users are drawn tier by tier, each once before any is drawn twice, and no tier is touched before
the ones above it are used up. The order in which a directory lists a tier changes nothing. -/
theorem candidates_inTurn {count : Nat} (hcount : 0 < count) (d : Directory)
    (currency : Option String) (s : RandomStream) :
    InTurn (natives d currency) (neighbours d currency) d.everyone count
        (candidates d currency count s).1 ∧
      ∀ d' : Directory, (natives d' currency).Perm (natives d currency) →
        (neighbours d' currency).Perm (neighbours d currency) →
          d'.everyone.Perm d.everyone →
            candidates d' currency count s = candidates d currency count s := by
  refine ⟨?_, fun d' hnative hregional heveryone =>
    candidates_eq_of_perm hnative hregional heveryone count s⟩
  obtain ⟨native, regional, general, hnative, hregional, hgeneral, heq⟩ :=
    candidates_eq_cycled hcount d currency s
  rw [heq]
  exact (round_firstOccurrences hnative hregional hgeneral).inTurn hcount

/-- A register that lists a native twice, and others in more than one tier. -/
def carelessRegister : Directory where
  native _ := ["ben", "ada", "ben"]
  regional _ := ["cleo", "ada"]
  everyone := ["dora", "cleo", "ben", "ada"]
  supply _ := 0

def tidyRegister : Directory where
  native _ := ["ada", "ben", "ben"]
  regional _ := ["ada", "cleo"]
  everyone := ["ada", "ben", "cleo", "dora"]
  supply _ := 0

def dollarStream : RandomStream := selection (some "OUSD") .waterPrice 1750000000 0

/-- Six invites go to four users, whose order does not depend on the register. -/
theorem candidates_inTurn_carelessRegister :
    InTurn ["ben", "ada", "ben"] ["cleo", "ada"] ["dora", "cleo", "ben", "ada"] 6
        (candidates carelessRegister (some "OUSD") 6 dollarStream).1 ∧
      (candidates carelessRegister (some "OUSD") 6 dollarStream).1.length = 6 ∧
      ((candidates carelessRegister (some "OUSD") 6 dollarStream).1.take 4).Perm
        ["dora", "cleo", "ben", "ada"] ∧
      candidates tidyRegister (some "OUSD") 6 dollarStream =
        candidates carelessRegister (some "OUSD") 6 dollarStream := by
  have hpos : 0 < 6 := by decide
  obtain ⟨hturn, horder⟩ := candidates_inTurn hpos carelessRegister (some "OUSD") dollarStream
  have hsome : (candidates carelessRegister (some "OUSD") 6 dollarStream).1 ≠ [] := by
    rw [Ne, hturn.eq_nil_iff]
    decide
  exact ⟨hturn, hturn.length_eq hsome, hturn.whole (by decide),
    horder tidyRegister (by decide) (by decide) (by decide)⟩

end WaterPeg.Invite
