/-! Currency codes. A pegged currency is an `O` before the code of the fiat money it follows. -/
namespace WaterPeg.Currency

/-- The fiat code behind the `O` of a pegged currency: a capital letter and at least one more. -/
def fiat? (code : String) : Option String :=
  match code.toList with
  | 'O' :: c :: d :: rest => if c.isUpper then some (String.ofList (c :: d :: rest)) else none
  | _ => none

def isPegged (code : String) : Bool := (fiat? code).isSome

end WaterPeg.Currency
