import WaterPeg.Binary64

/-!
Reading a decimal numeral as the binary number nearest to it. A numeral is an optional sign and then
digits with at most one point and an optional exponent, or one of the words for infinity and NaN.
-/
namespace WaterPeg.Binary64

/-- A numeral without its sign: `digits * 10 ^ exponent`. -/
structure Numeral where
  digits : Nat
  /-- How many digits were written, leading zeros included. -/
  count : Nat
  exponent : Int

/-- Read `e` or `E`, an optional sign and digits; nothing at all counts as exponent 0. -/
def exponent? : List Char → Option Int
  | [] => some 0
  | c :: rest =>
    if c = 'e' ∨ c = 'E' then
      let (negative, ds) := match rest with
        | '-' :: ds => (true, ds)
        | '+' :: ds => (false, ds)
        | ds => (false, ds)
      if ds.isEmpty || !ds.all Char.isDigit then none
      else
        let n : Int := Nat.ofDigitChars 10 ds 0
        some (if negative then -n else n)
    else none

def numeral? (cs : List Char) : Option Numeral :=
  let whole := cs.takeWhile Char.isDigit
  let rest := cs.dropWhile Char.isDigit
  let (fraction, rest) := match rest with
    | '.' :: r => (r.takeWhile Char.isDigit, r.dropWhile Char.isDigit)
    | r => ([], r)
  if whole.isEmpty && fraction.isEmpty then none
  else
    (exponent? rest).map fun e =>
      { digits := Nat.ofDigitChars 10 (whole ++ fraction) 0
        count := whole.length + fraction.length
        exponent := e - fraction.length }

/-- The value of a numeral. Far beyond either end of the range no power of ten is formed. -/
def Numeral.toBinary64 (negative : Bool) (n : Numeral) : Binary64 :=
  if n.digits = 0 then .finite negative 0 minExponent
  else if 400 < n.exponent then .infinite negative
  else if (n.count : Int) + n.exponent < -400 then .finite negative 0 minExponent
  else if 0 ≤ n.exponent then ofQuotient negative (n.digits * Nat.pow 10 n.exponent.toNat) 1
  else ofQuotient negative n.digits (Nat.pow 10 (-n.exponent).toNat)

/-- Read a numeral with an optional sign, or a word for infinity or NaN in either case. -/
def ofText? (s : String) : Option Binary64 :=
  let (negative, cs) := match s.toList with
    | '-' :: cs => (true, cs)
    | '+' :: cs => (false, cs)
    | cs => (false, cs)
  let word := String.ofList (cs.map Char.toLower)
  if word = "inf" ∨ word = "infinity" then some (.infinite negative)
  else if word = "nan" then some .nan
  else (numeral? cs).map (Numeral.toBinary64 negative)

end WaterPeg.Binary64
