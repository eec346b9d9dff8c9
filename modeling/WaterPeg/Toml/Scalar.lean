import WaterPeg.Binary64.Decimal
import WaterPeg.Calendar
import WaterPeg.Toml.Text

/-! Numbers, dates and times of TOML. -/
namespace WaterPeg.Toml

/-! ## Numbers -/

/-- Digits after the first one; an underscore stands between two digits. -/
def moreDigits? (isDigit : Char → Bool) : List Char → Option (List Char × List Char)
  | [] => some ([], [])
  | ['_'] => none
  | '_' :: c :: rest =>
    if isDigit c then (moreDigits? isDigit rest).map fun (ds, rest) => (c :: ds, rest) else none
  | c :: rest =>
    if isDigit c then (moreDigits? isDigit rest).map fun (ds, rest) => (c :: ds, rest)
    else some ([], c :: rest)

def digits? (isDigit : Char → Bool) : List Char → Option (List Char × List Char)
  | [] => none
  | c :: rest =>
    if isDigit c then (moreDigits? isDigit rest).map fun (ds, rest) => (c :: ds, rest) else none

/-- The digits of a whole number: 0 alone, or digits that do not begin with 0. -/
def whole? : List Char → Option (List Char × List Char)
  | '0' :: rest => some (['0'], rest)
  | cs => digits? Char.isDigit cs

def power? : List Char → Option (List Char × List Char)
  | [] => some ([], [])
  | e :: rest =>
    if e = 'e' ∨ e = 'E' then
      match rest with
      | '+' :: rest => (digits? Char.isDigit rest).map fun (ds, rest) => ('e' :: '+' :: ds, rest)
      | '-' :: rest => (digits? Char.isDigit rest).map fun (ds, rest) => ('e' :: '-' :: ds, rest)
      | rest => (digits? Char.isDigit rest).map fun (ds, rest) => ('e' :: ds, rest)
    else some ([], e :: rest)

def fraction? : List Char → Option (List Char × List Char)
  | '.' :: rest => (digits? Char.isDigit rest).map fun (ds, rest) => ('.' :: ds, rest)
  | cs => some ([], cs)

/-- Signed words hold the integers from `-2 ^ 63` to `2 ^ 63 - 1`. -/
def integer? (n : Int) : Option Toml :=
  if Int64.minValue.toInt ≤ n ∧ n ≤ Int64.maxValue.toInt then some (.integer n) else none

/-- A decimal number with its sign read. A decimal fraction must not be above all finite numbers. -/
def decimal? (negative : Bool) (cs : List Char) : Option (Toml × List Char) := do
  let (whole, cs) ← whole? cs
  let (fraction, cs) ← fraction? cs
  let (power, cs) ← power? cs
  if fraction.isEmpty && power.isEmpty then
    let n : Int := Nat.ofDigitChars 10 whole 0
    some (← integer? (if negative then -n else n), cs)
  else
    let x ← Binary64.ofText? (String.ofList (whole ++ fraction ++ power))
    if !negative && x == .infinite false then none else some (.float, cs)

def based? (base : Nat) (isDigit : Char → Bool) (cs : List Char) : Option (Toml × List Char) := do
  let (ds, cs) ← digits? isDigit cs
  let n := ds.foldl (fun n c => base * n + (hexValue? c).getD 0) 0
  some (← integer? n, cs)

/-- A decimal number, or one of the words for infinity and NaN, with its sign read. -/
def unsigned? (negative : Bool) : List Char → Option (Toml × List Char)
  | 'i' :: 'n' :: 'f' :: rest => some (.float, rest)
  | 'n' :: 'a' :: 'n' :: rest => some (.float, rest)
  | cs => decimal? negative cs

def number? : List Char → Option (Toml × List Char)
  | '0' :: 'x' :: rest => based? 16 (fun c => (hexValue? c).isSome) rest
  | '0' :: 'o' :: rest => based? 8 (fun c => '0' ≤ c && c ≤ '7') rest
  | '0' :: 'b' :: rest => based? 2 (fun c => c == '0' || c == '1') rest
  | '+' :: rest => unsigned? false rest
  | '-' :: rest => unsigned? true rest
  | cs => unsigned? false cs

/-! ## Dates and times -/

def twoDigits? (lo hi : Nat) : List Char → Option (Nat × List Char)
  | a :: b :: rest =>
    if a.isDigit && b.isDigit then
      let n := Nat.ofDigitChars 10 [a, b] 0
      if lo ≤ n ∧ n ≤ hi then some (n, rest) else none
    else none
  | _ => none

def mark? (c : Char) : List Char → Option (List Char)
  | d :: rest => if d = c then some rest else none
  | [] => none

/-- Two digits and a colon come next, which only a time begins with. -/
def beginsTime : List Char → Bool
  | a :: b :: ':' :: _ => a.isDigit && b.isDigit
  | _ => false

/-- Four digits and a hyphen come next, which only a date begins with. -/
def beginsDate : List Char → Bool
  | a :: b :: c :: d :: '-' :: _ => a.isDigit && b.isDigit && c.isDigit && d.isDigit
  | _ => false

/-- An hour, a minute and a second, and a fraction of it if a point and a digit come next. -/
def time? (cs : List Char) : Option (List Char) := do
  let (_, cs) ← twoDigits? 0 23 cs
  let (_, cs) ← twoDigits? 0 59 (← mark? ':' cs)
  let (_, cs) ← twoDigits? 0 60 (← mark? ':' cs)
  match cs with
  | '.' :: d :: rest => if d.isDigit then some (rest.dropWhile Char.isDigit) else some cs
  | _ => some cs

def offset? : List Char → Option (List Char)
  | [] => some []
  | c :: rest =>
    if c = 'Z' ∨ c = 'z' then some rest
    else if c = '+' ∨ c = '-' then do
      let (_, cs) ← twoDigits? 0 23 rest
      let (_, cs) ← twoDigits? 0 59 (← mark? ':' cs)
      some cs
    else some (c :: rest)

def afterDate? (cs : List Char) : Option (List Char) :=
  match cs with
  | c :: rest =>
    if (c = 'T' ∨ c = 't' ∨ c = ' ') ∧ beginsTime rest then time? rest >>= offset? else some cs
  | [] => some cs

/-- A date of a year of four digits, and what may come with it. -/
def date? : List Char → Option (List Char)
  | a :: b :: c :: d :: rest => do
    let year := Nat.ofDigitChars 10 [a, b, c, d] 0
    let (month, cs) ← twoDigits? 1 12 (← mark? '-' rest)
    let (_, cs) ← twoDigits? 1 (daysInMonth (isLeapYear year) month) (← mark? '-' cs)
    afterDate? cs
  | _ => none

def scalar? (cs : List Char) : Option (Toml × List Char) :=
  if beginsDate cs then (date? cs).map fun rest => (.moment, rest)
  else if beginsTime cs then (time? cs).map fun rest => (.moment, rest)
  else number? cs

end WaterPeg.Toml
