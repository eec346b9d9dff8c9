/-!
Binary floating point numbers of 64 bits, as exact values. Every operation forms an exact quotient
of natural numbers and rounds it once, to the nearest number, ties to the even one.
-/
namespace WaterPeg

/-- A finite number is `mantissa * 2 ^ exponent`, negated or not. -/
inductive Binary64
  | finite (negative : Bool) (mantissa : Nat) (exponent : Int)
  | infinite (negative : Bool)
  | nan
deriving DecidableEq

namespace Binary64

def minExponent : Int := -1074

def maxExponent : Int := 971

/-- Read the sign bit, eleven bits of exponent and 52 of mantissa. -/
def ofBits (w : UInt64) : Binary64 :=
  let n := w.toNat
  let negative := decide (Nat.pow 2 63 ≤ n)
  let field : Nat := n / Nat.pow 2 52 % Nat.pow 2 11
  let fraction := n % Nat.pow 2 52
  if field = 2047 then (if fraction = 0 then .infinite negative else .nan)
  else if field = 0 then .finite negative fraction minExponent
  else .finite negative (Nat.pow 2 52 + fraction) ((field : Int) - 1075)

/-- The bits of a number whose mantissa has 53 bits, or fewer at the least exponent. -/
def toBits : Binary64 → UInt64
  | .finite negative mantissa exponent =>
    let sign := if negative then Nat.pow 2 63 else 0
    if mantissa < Nat.pow 2 52 then UInt64.ofNat (sign + mantissa)
    else UInt64.ofNat (sign + (exponent + 1075).toNat * Nat.pow 2 52 + (mantissa - Nat.pow 2 52))
  | .infinite negative => UInt64.ofNat ((if negative then Nat.pow 2 63 else 0) + 2047 * Nat.pow 2 52)
  | .nan => UInt64.ofNat (4095 * Nat.pow 2 51)

/-- A quotient rounded to the nearest number, ties to even. -/
def roundHalfEven (num den : Nat) : Nat :=
  let q := num / den
  let r := num % den
  if 2 * r < den then q else if den < 2 * r then q + 1 else q + q % 2

/-- `num / den / 2 ^ e` as a quotient of natural numbers. -/
def shifted (num den : Nat) (e : Int) : Nat × Nat :=
  if 0 ≤ e then (num, den * Nat.pow 2 e.toNat) else (num * Nat.pow 2 (-e).toNat, den)

/-- The exponent at which `num / den` has a mantissa of 53 bits, or the least exponent. -/
def exponentOf (num den : Nat) : Int :=
  let e : Int := (num.log2 : Int) - (den.log2 : Int) - 52
  let (n, d) := shifted num den e
  max (if n / d < Nat.pow 2 52 then e - 1 else e) minExponent

/-- The number nearest to `num / den`; beyond the largest one it is infinite. -/
def ofQuotient (negative : Bool) (num den : Nat) : Binary64 :=
  if num = 0 then .finite negative 0 minExponent
  else
    let e := exponentOf num den
    let (n, d) := shifted num den e
    let m := roundHalfEven n d
    let (m, e) := if m = Nat.pow 2 53 then (Nat.pow 2 52, e + 1) else (m, e)
    if maxExponent < e then .infinite negative else .finite negative m e

def quotient (mantissa : Nat) (exponent : Int) : Nat × Nat :=
  if 0 ≤ exponent then (mantissa * Nat.pow 2 exponent.toNat, 1) else (mantissa, Nat.pow 2 (-exponent).toNat)

def scale (x : Binary64) (k : Nat) : Binary64 :=
  match x with
  | .finite negative m e =>
    let (n, d) := quotient m e
    ofQuotient negative (n * k) d
  | x => x

def unscale (x : Binary64) (k : Nat) : Binary64 :=
  match x with
  | .finite negative m e =>
    let (n, d) := quotient m e
    ofQuotient negative n (d * k)
  | x => x

/-- The nearest whole number, ties away from zero; `none` for what is not finite. -/
def round? : Binary64 → Option Int
  | .finite negative m e =>
    let (n, d) := quotient m e
    let k := Int.ofNat ((2 * n + d) / (2 * d))
    some (if negative then -k else k)
  | _ => none

def within (x : Binary64) (k : Nat) : Bool :=
  match x with
  | .finite _ m e =>
    let (n, d) := quotient m e
    decide (n ≤ k * d)
  | _ => false

end Binary64

end WaterPeg
