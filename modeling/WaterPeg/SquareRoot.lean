/-! The integer square root, by Newton's method from above. -/
namespace WaterPeg

def newtonStep (n x : Nat) : Nat := (x + n / x) / 2

/-- Take the next estimate `y` in place of `x` as long as it is smaller, `limit` times at most. -/
def newtonDescent (n : Nat) : Nat → Nat → Nat → Nat
  | 0, x, _ => x
  | limit + 1, x, y => if y < x then newtonDescent n limit y (newtonStep n y) else x

/-- The largest number whose square is at most `n`. The estimates fall from `n`, so `n` steps do. -/
def squareRoot (n : Nat) : Nat := if n = 0 then 0 else newtonDescent n n n ((n + 1) / 2)

end WaterPeg
