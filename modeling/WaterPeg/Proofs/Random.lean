import WaterPeg.Random

/-! Shuffling draws an arrangement of the items: nothing is lost, added or repeated. -/
namespace WaterPeg.RandomStream

theorem perm_swapIfInBounds {α : Type} (xs : Array α) (i j : Nat) :
    (xs.swapIfInBounds i j).Perm xs := by
  unfold Array.swapIfInBounds
  split
  · split
    · exact Array.swap_perm _ _
    · exact .rfl
  · exact .rfl

theorem shuffleFrom_perm {α : Type} (n : Nat) (xs : Array α) (s : RandomStream) :
    (shuffleFrom n xs s).1.Perm xs := by
  induction n generalizing xs s with
  | zero => exact .rfl
  | succ n ih => exact (ih _ _).trans (perm_swapIfInBounds xs _ _)

theorem shuffle_perm {α : Type} (s : RandomStream) (items : List α) :
    (s.shuffle items).1.Perm items :=
  (shuffleFrom_perm _ items.toArray s).toList

end WaterPeg.RandomStream
