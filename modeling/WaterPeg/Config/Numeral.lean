import WaterPeg.Word

/-! Numbers in settings that are written as text: decimal digits with at most a plus sign before. -/
namespace WaterPeg.Numeral

/-- The value of a text of one digit or more, with at most a plus sign before them. -/
def natural? (s : String) : Option Nat :=
  let digits := match s.toList with
    | '+' :: cs => cs
    | cs => cs
  if digits.isEmpty || !digits.all Char.isDigit then none
  else some (Nat.ofDigitChars 10 digits 0)

def word? (s : String) : Option UInt64 := natural? s >>= WaterPeg.word?

def amount? (s : String) : Option UInt128 := natural? s >>= UInt128.ofNat?

end WaterPeg.Numeral
