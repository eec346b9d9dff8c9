import Mathlib.Data.List.Permutation
import Mathlib.Data.Set.Card
import WaterPeg.Proofs.Random
import WaterPeg.Stability.Recipients

/-!
Shuffling is fair. What a shuffle draws is a number for each exchange, and what it does with the
numbers is a bijection onto the arrangements of the items: the last place tells the first number, and
what is left is a shuffle of one item less.
-/
namespace WaterPeg.RandomStream

variable {α : Type}

/-! ## What is drawn, and what becomes of it -/

def draws : List Nat → RandomStream → List Nat × RandomStream
  | [], s => ([], s)
  | bound :: bounds, s =>
    let (j, s) := s.below (UInt64.ofNat bound)
    let (js, s) := draws bounds s
    (j.toNat :: js, s)

/-- The bounds of a shuffle of `n` items: `n`, `n - 1`, and so on, down to 2. -/
def bounds : Nat → List Nat
  | 0 => []
  | 1 => []
  | n + 2 => (n + 2) :: bounds (n + 1)

def Drawn (n : Nat) (js : List Nat) : Prop := List.Forall₂ (· < ·) js (bounds n)

theorem Drawn.eq_nil {js : List Nat} (h : Drawn 1 js) : js = [] := List.forall₂_nil_right_iff.1 h

theorem Drawn.exists_cons {n : Nat} {js : List Nat} (h : Drawn (n + 2) js) :
    ∃ j ks, js = j :: ks ∧ j < n + 2 ∧ Drawn (n + 1) ks := by
  obtain ⟨j, ks, hj, hks, rfl⟩ := List.forall₂_cons_right_iff.1 h
  exact ⟨j, ks, rfl, hj, hks⟩

/-- Exchange the item at `i`, then at `i - 1`, and so on, with those at the numbers. -/
def exchange : Nat → List Nat → Array α → Array α
  | i + 1, j :: js, xs => exchange i js (xs.swapIfInBounds (i + 1) j)
  | _, _, xs => xs

def arrange (items : List α) (js : List Nat) : List α :=
  (exchange (items.length - 1) js items.toArray).toList

theorem firstInZone_lt {bound : UInt64} (hbound : 0 < bound) (limit : Nat) (s : RandomStream) :
    (firstInZone bound limit s).1 < bound := by
  induction limit generalizing s with
  | zero => exact hbound
  | succ limit ih =>
    unfold firstInZone
    dsimp only
    split
    · exact UInt64.mod_lt _ hbound
    · exact ih _

theorem toNat_below_lt {bound : Nat} (hbound : 0 < bound) (s : RandomStream) :
    (s.below (UInt64.ofNat bound)).1.toNat < bound := by
  have hle : (UInt64.ofNat bound).toNat ≤ bound := by
    rw [UInt64.toNat_ofNat']
    exact Nat.mod_le ..
  unfold below
  split
  · exact hbound
  · next hne =>
    have hpos : 0 < UInt64.ofNat bound := UInt64.pos_iff_ne_zero.2 hne
    have hlt := UInt64.lt_iff_toNat_lt.1 (firstInZone_lt hpos s.wordsLeft s)
    omega

theorem drawn_draws (n : Nat) (s : RandomStream) : Drawn n (s.draws (bounds n)).1 := by
  induction n using bounds.induct generalizing s with
  | case1 => exact .nil
  | case2 => exact .nil
  | case3 n ih => exact .cons (toNat_below_lt (Nat.succ_pos _) s) (ih _)

theorem shuffleFrom_eq (i : Nat) (xs : Array α) (s : RandomStream) :
    shuffleFrom i xs s =
      (exchange i (s.draws (bounds (i + 1))).1 xs, (s.draws (bounds (i + 1))).2) := by
  induction i generalizing xs s with
  | zero => rfl
  | succ i ih =>
    rw [shuffleFrom]
    dsimp only
    rw [ih]
    rfl

theorem shuffle_eq (items : List α) (s : RandomStream) :
    s.shuffle items =
      (arrange items (s.draws (bounds items.length)).1, (s.draws (bounds items.length)).2) := by
  unfold shuffle arrange
  dsimp only
  rw [shuffleFrom_eq, List.size_toArray]
  cases items with
  | nil => rfl
  | cons x items => rfl

/-! ## Arrangements -/

/-- An arrangement of the items up to `i`; the ones behind stay where they are. -/
structure Rearranges (i : Nat) (xs ys : Array α) : Prop where
  perm : ys.Perm xs
  behind : ∀ p, i < p → ys[p]? = xs[p]?

theorem getElem?_swapIfInBounds_left {xs : Array α} {i j : Nat} (hi : i < xs.size)
    (hj : j < xs.size) : (xs.swapIfInBounds i j)[i]? = xs[j]? := by
  rw [Array.getElem?_eq_getElem (by rwa [Array.size_swapIfInBounds]),
    Array.getElem_swapIfInBounds_left hj, Array.getElem?_eq_getElem hj]

theorem getElem?_swapIfInBounds_of_ne {xs : Array α} {i j p : Nat} (hi : p ≠ i) (hj : p ≠ j) :
    (xs.swapIfInBounds i j)[p]? = xs[p]? := by
  unfold Array.swapIfInBounds
  split
  · split
    · rw [Array.getElem?_swap, if_neg (Ne.symm hj), if_neg (Ne.symm hi)]
    · rfl
  · rfl

theorem nodup_swapIfInBounds {xs : Array α} (hxs : xs.toList.Nodup) (i j : Nat) :
    (xs.swapIfInBounds i j).toList.Nodup :=
  (perm_swapIfInBounds xs i j).toList.nodup_iff.2 hxs

namespace Rearranges

variable {i : Nat} {xs ys zs : Array α}

theorem refl (i : Nat) (xs : Array α) : Rearranges i xs xs := ⟨.rfl, fun _ _ => rfl⟩

theorem trans (h : Rearranges i xs ys) (h' : Rearranges i ys zs) : Rearranges i xs zs :=
  ⟨h'.perm.trans h.perm, fun p hp => (h'.behind p hp).trans (h.behind p hp)⟩

theorem succ (h : Rearranges i xs ys) : Rearranges (i + 1) xs ys :=
  ⟨h.perm, fun p hp => h.behind p (Nat.lt_of_succ_lt hp)⟩

theorem swap {j : Nat} (hj : j ≤ i) : Rearranges i xs (xs.swapIfInBounds i j) :=
  ⟨perm_swapIfInBounds xs i j, fun p hp => getElem?_swapIfInBounds_of_ne (by omega) (by omega)⟩

theorem exchange {js : List Nat} (hjs : Drawn (i + 1) js) :
    Rearranges i xs (exchange i js xs) := by
  induction i generalizing xs js with
  | zero =>
    rw [hjs.eq_nil]
    exact .refl 0 xs
  | succ i ih =>
    obtain ⟨j, ks, rfl, hj, hks⟩ := hjs.exists_cons
    exact (swap (Nat.le_of_lt_succ hj)).trans (ih hks).succ

/-- The item that comes to stand at `i` was there or before. -/
theorem exists_le_getElem? (h : Rearranges i xs ys) (hxs : xs.toList.Nodup) (hi : i < xs.size) :
    ∃ j ≤ i, xs[j]? = ys[i]? := by
  have hys : i < ys.size := h.perm.size_eq ▸ hi
  have hlast : ys[i]? = some ys[i] := Array.getElem?_eq_getElem hys
  obtain ⟨j, hj⟩ := Array.mem_iff_getElem?.1 (h.perm.mem_iff.1 (Array.getElem_mem hys))
  refine ⟨j, ?_, hj.trans hlast.symm⟩
  by_contra hbehind
  have hmoved : ys[i]? = ys[j]? := by
    rw [h.behind j (Nat.lt_of_not_le hbehind), hj, hlast]
  have hnodup : ys.toList.Nodup := h.perm.toList.nodup_iff.2 hxs
  rw [← Array.getElem?_toList, ← Array.getElem?_toList, List.getElem?_inj hys hnodup] at hmoved
  omega

end Rearranges

section Exchange

variable {i : Nat} {xs : Array α} (hxs : xs.toList.Nodup) (hi : i < xs.size)

include hxs hi

/-- Different numbers arrange the items differently, the first of them by what ends up last. -/
theorem eq_of_exchange_eq {js js' : List Nat} (hjs : Drawn (i + 1) js) (hjs' : Drawn (i + 1) js')
    (h : exchange i js xs = exchange i js' xs) : js = js' := by
  induction i generalizing xs js js' with
  | zero => rw [hjs.eq_nil, hjs'.eq_nil]
  | succ i ih =>
    obtain ⟨j, ks, rfl, hj, hks⟩ := hjs.exists_cons
    obtain ⟨j', ks', rfl, hj', hks'⟩ := hjs'.exists_cons
    have hlast {k : Nat} {ls : List Nat} (hk : k < i + 2) (hls : Drawn (i + 1) ls) :
        (exchange (i + 1) (k :: ls) xs)[i + 1]? = xs[k]? := by
      rw [exchange, (Rearranges.exchange hls).behind (i + 1) (Nat.lt_succ_self i),
        getElem?_swapIfInBounds_left hi (Nat.lt_of_lt_of_le hk hi)]
    have hsame : xs[j]? = xs[j']? := by rw [← hlast hj hks, h, hlast hj' hks']
    rw [← Array.getElem?_toList, ← Array.getElem?_toList,
      List.getElem?_inj (Nat.lt_of_lt_of_le hj hi) hxs] at hsame
    subst hsame
    have hswapped := nodup_swapIfInBounds hxs (i + 1) j
    have hsize : i < (xs.swapIfInBounds (i + 1) j).size := by
      rw [Array.size_swapIfInBounds]
      exact Nat.lt_of_succ_lt hi
    rw [ih hswapped hsize hks hks' h]

/-- Every arrangement comes about, the first number being the place of the item that is to be last. -/
theorem exists_exchange_eq {ys : Array α} (h : Rearranges i xs ys) :
    ∃ js, Drawn (i + 1) js ∧ exchange i js xs = ys := by
  induction i generalizing xs with
  | zero =>
    obtain ⟨j, hj, hlast⟩ := h.exists_le_getElem? hxs hi
    refine ⟨[], .nil, Array.ext_getElem? fun p => ?_⟩
    cases p with
    | zero => rwa [Nat.le_zero.1 hj] at hlast
    | succ p => exact (h.behind (p + 1) (Nat.succ_pos p)).symm
  | succ i ih =>
    obtain ⟨j, hj, hlast⟩ := h.exists_le_getElem? hxs hi
    have hswapped := nodup_swapIfInBounds hxs (i + 1) j
    have hsize : i < (xs.swapIfInBounds (i + 1) j).size := by
      rw [Array.size_swapIfInBounds]
      exact Nat.lt_of_succ_lt hi
    have hrest : Rearranges i (xs.swapIfInBounds (i + 1) j) ys := by
      refine ⟨h.perm.trans (perm_swapIfInBounds xs (i + 1) j).symm, fun p hp => ?_⟩
      by_cases hp' : p = i + 1
      · rw [hp', getElem?_swapIfInBounds_left hi (Nat.lt_of_le_of_lt hj hi), hlast]
      · rw [h.behind p (by omega), getElem?_swapIfInBounds_of_ne hp' (by omega)]
    obtain ⟨js, hjs, heq⟩ := ih hswapped hsize hrest
    exact ⟨j :: js, .cons (Nat.lt_succ_of_le hj) hjs, heq⟩

end Exchange

/-! ## How many draws lead to an arrangement -/

variable {items : List α}

theorem setOf_perm_take_eq {count : Nat} {first others : List α}
    (hperm : items.Perm (first ++ others)) (hlength : first.length = min count items.length) :
    {ys : List α | ys.Perm items ∧ ys.take count = first} =
      (first ++ ·) '' {zs : List α | zs.Perm others} := by
  ext ys
  constructor
  · rintro ⟨hys, htake⟩
    have hsplit : first ++ ys.drop count = ys := htake ▸ List.take_append_drop count ys
    refine ⟨ys.drop count, (List.perm_append_left_iff first).1 ?_, hsplit⟩
    rw [hsplit]
    exact hys.trans hperm
  · rintro ⟨zs, hzs, rfl⟩
    refine ⟨((List.perm_append_left_iff first).2 hzs).trans hperm.symm, ?_⟩
    change (first ++ zs).take count = first
    have hall := hperm.length_eq
    rw [List.length_append] at hall
    rcases Nat.le_total count items.length with hle | hge
    · exact List.take_left' (hlength.trans (Nat.min_eq_left hle))
    · have hnil : zs = [] := List.length_eq_zero_iff.1 (by rw [hzs.length_eq]; omega)
      rw [hnil, List.append_nil, List.take_of_length_le (by omega)]

section Counts

variable (hitems : items.Nodup)

include hitems

theorem arrange_bijOn :
    Set.BijOn (arrange items) {js | Drawn items.length js} {ys : List α | ys.Perm items} := by
  cases items with
  | nil =>
    refine .mk (fun _ _ => List.Perm.nil) (fun js hjs js' hjs' _ => ?_) fun ys hys => ?_
    · rw [List.forall₂_nil_right_iff.1 hjs, List.forall₂_nil_right_iff.1 hjs']
    · exact ⟨[], .nil, (List.perm_nil.1 hys).symm⟩
  | cons x xs =>
    have hi : xs.length < (x :: xs).toArray.size := Nat.lt_succ_self _
    refine .mk (fun js hjs => ?_) (fun js hjs js' hjs' h => ?_) fun ys hys => ?_
    · exact (Rearranges.exchange hjs).perm.toList
    · exact eq_of_exchange_eq hitems hi hjs hjs' (Array.toList_inj.1 h)
    · have hrearranges : Rearranges xs.length (x :: xs).toArray ys.toArray := by
        refine ⟨hys.toArray, fun p hp => ?_⟩
        have hys : ys.length = xs.length + 1 := hys.length_eq
        rw [Array.getElem?_eq_none (by simp; omega), Array.getElem?_eq_none (by simp; omega)]
      obtain ⟨js, hjs, heq⟩ := exists_exchange_eq hitems hi hrearranges
      exact ⟨js, hjs, congrArg Array.toList heq⟩

theorem ncard_perm : {ys : List α | ys.Perm items}.ncard = items.length.factorial := by
  classical
  have hset : {ys : List α | ys.Perm items} = ↑items.permutations.toFinset := by
    ext ys
    simp
  rw [hset, Set.ncard_coe_finset, List.toFinset_card_of_nodup (List.nodup_permutations _ hitems),
    List.length_permutations]

/-- The arrangements that begin with certain items are those of the others. -/
theorem ncard_perm_take {count : Nat} {first : List α} (hfirst : first.Nodup)
    (hsub : first ⊆ items) (hlength : first.length = min count items.length) :
    {ys : List α | ys.Perm items ∧ ys.take count = first}.ncard = (items.length - count).factorial := by
  obtain ⟨kept, hkept, hsublist⟩ := hfirst.subperm hsub
  obtain ⟨others, hothers⟩ := hsublist.exists_perm_append
  have hperm : items.Perm (first ++ others) := hothers.trans (hkept.append_right others)
  have hrest : others.length = items.length - count := by
    have hall := hperm.length_eq
    rw [List.length_append] at hall
    omega
  have hnodup : others.Nodup := (hperm.nodup_iff.1 hitems).of_append_right
  rw [setOf_perm_take_eq hperm hlength,
    Set.InjOn.ncard_image (List.append_right_injective first).injOn, ncard_perm hnodup, hrest]

/-- Each beginning comes about by as many draws as there are arrangements of the other items. -/
theorem ncard_drawn_take {count : Nat} {first : List α} (hfirst : first.Nodup)
    (hsub : first ⊆ items) (hlength : first.length = min count items.length) :
    {js | Drawn items.length js ∧ (arrange items js).take count = first}.ncard =
      (items.length - count).factorial := by
  have hbij := arrange_bijOn hitems
  have hset : {js | Drawn items.length js ∧ (arrange items js).take count = first} =
      {js | Drawn items.length js} ∩
        Set.preimage (arrange items) {ys : List α | ys.Perm items ∧ ys.take count = first} := by
    ext js
    exact ⟨fun h => ⟨h.1, hbij.mapsTo h.1, h.2⟩, fun h => ⟨h.1, h.2.2⟩⟩
  have hpart := hbij.subset_right
    (r := {ys : List α | ys.Perm items ∧ ys.take count = first}) fun _ h => h.1
  rw [hset, hpart.ncard_eq, ncard_perm_take hitems hfirst hsub hlength]

end Counts

theorem select_eq (pool : List String) (count : Nat) (blockHash : Digest) (currency : String) :
    Recipients.select pool count blockHash currency =
      (arrange pool ((Recipients.stream blockHash currency).draws (bounds pool.length)).1).take
        count := by
  unfold Recipients.select
  split
  · next h =>
    rw [Bool.or_eq_true, List.isEmpty_iff, beq_iff_eq] at h
    rcases h with rfl | rfl
    · exact List.take_nil.symm
    · exact List.take_zero.symm
  · rw [shuffle_eq]

/-- A shuffle draws a number below `n`, one below `n - 1`, and so on, down to 2, and what it makes of
them is a bijection between such draws and the `n!` arrangements of the items. Each arrangement comes
about by one draw, and the first items are any that they can be by the same number of draws; the
recipients of a payout are such first items. -/
theorem shuffle_unbiased {items : List α} (hitems : items.Nodup) :
    (∀ s : RandomStream,
      s.shuffle items =
          (arrange items (s.draws (bounds items.length)).1, (s.draws (bounds items.length)).2) ∧
        Drawn items.length (s.draws (bounds items.length)).1) ∧
      Set.BijOn (arrange items) {js | Drawn items.length js} {ys : List α | ys.Perm items} ∧
      {js | Drawn items.length js}.ncard = items.length.factorial ∧
      (∀ count (first : List α), first.Nodup → first ⊆ items →
        first.length = min count items.length →
          {js | Drawn items.length js ∧ (arrange items js).take count = first}.ncard =
            (items.length - count).factorial) ∧
      ∀ pool count blockHash currency,
        Recipients.select pool count blockHash currency =
          (arrange pool ((Recipients.stream blockHash currency).draws (bounds pool.length)).1).take
            count := by
  have hbij := arrange_bijOn hitems
  refine ⟨fun s => ⟨shuffle_eq items s, drawn_draws items.length s⟩, hbij, ?_, ?_, select_eq⟩
  · rw [hbij.ncard_eq, ncard_perm hitems]
  · intro count first hfirst hsub hlength
    exact ncard_drawn_take hitems hfirst hsub hlength

theorem shuffle_unbiased_threeUsers :
    ["ada", "ben", "cleo"].Nodup ∧ {js | Drawn 3 js}.ncard = 6 ∧
      {js | Drawn 3 js ∧ (arrange ["ada", "ben", "cleo"] js).take 1 = ["cleo"]}.ncard = 2 := by
  have hnodup : ["ada", "ben", "cleo"].Nodup := by decide
  obtain ⟨-, -, hall, hfirst, -⟩ := shuffle_unbiased hnodup
  exact ⟨hnodup, hall, hfirst 1 ["cleo"] (by decide) (by decide) rfl⟩

end WaterPeg.RandomStream
