import Std.Data.ExtTreeMap
import Std.Data.ExtTreeSet

/-! Orders on record keys, each read off a list or pair of ordered parts, and the tables over them. -/
namespace WaterPeg

/-- A finite map that lists its entries by ascending key. -/
abbrev Table (κ α : Type) [Ord κ] := Std.ExtTreeMap κ α

/-- Comparing by a part that determines the whole tells different values apart. -/
theorem lawfulEqCmp_compareOn {α β : Type} [Ord β] [Std.LawfulEqOrd β] (f : α → β)
    (hf : ∀ a b, f a = f b → a = b) : Std.LawfulEqCmp (compareOn f) where
  compare_self := Std.ReflCmp.compare_self
  eq_of_compare {a b} h := hf a b (Std.LawfulEqCmp.eq_of_compare h)

/-- Comparing by two parts that together determine the whole tells different values apart. -/
theorem lawfulEqCmp_compareLex {α β γ : Type} [Ord β] [Ord γ] [Std.LawfulEqOrd β]
    [Std.LawfulEqOrd γ] (f : α → β) (g : α → γ) (hfg : ∀ a b, f a = f b → g a = g b → a = b) :
    Std.LawfulEqCmp (compareLex (compareOn f) (compareOn g)) where
  compare_self := Std.ReflCmp.compare_self
  eq_of_compare {a b} h := by
    obtain ⟨hf, hg⟩ := Ordering.then_eq_eq.1 h
    exact hfg a b (Std.LawfulEqCmp.eq_of_compare hf) (Std.LawfulEqCmp.eq_of_compare hg)

end WaterPeg
