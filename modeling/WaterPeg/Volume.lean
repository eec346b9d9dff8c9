import WaterPeg.Json.Form
import WaterPeg.Text

/-!
Container volumes. The peg is calibrated to one liter, so the price of a container, labelled in
whatever unit, is brought to the price of a liter. Volumes count thousandths of their unit.
-/
namespace WaterPeg

inductive VolumeUnit
  | liters
  | milliliters
  | fluidOunces
  | gallonsUs
  | gallonsUk
  | pints
  | quarts
deriving DecidableEq, Repr

namespace VolumeUnit

def all : List VolumeUnit :=
  [.liters, .milliliters, .fluidOunces, .gallonsUs, .gallonsUk, .pints, .quarts]

/-- Nanoliters in one unit. Ounces, pints and quarts are those of the United States. -/
def nanoLiters : VolumeUnit → Nat
  | .liters => 1000000000
  | .milliliters => 1000000
  | .fluidOunces => 29573530
  | .gallonsUs => 3785411784
  | .gallonsUk => 4546090000
  | .pints => 473176473
  | .quarts => 946352946

def symbol : VolumeUnit → String
  | .liters => "L"
  | .milliliters => "mL"
  | .fluidOunces => "fl oz"
  | .gallonsUs => "US gal"
  | .gallonsUk => "UK gal"
  | .pints => "pt"
  | .quarts => "qt"

/-- The small-letter labels of a unit. A bare gallon is that of the United States. -/
def labels : VolumeUnit → List String
  | .liters => ["l", "liter", "liters", "litre", "litres"]
  | .milliliters => ["ml", "milliliter", "milliliters", "millilitre", "millilitres"]
  | .fluidOunces => ["oz", "fl oz", "floz", "fluid ounce", "fluid ounces"]
  | .gallonsUs => ["gal", "gallon", "gallons", "us gal", "us gallon", "us gallons"]
  | .gallonsUk => ["uk gal", "uk gallon", "uk gallons", "imp gal", "imperial gallon"]
  | .pints => ["pt", "pint", "pints"]
  | .quarts => ["qt", "quart", "quarts"]

/-- The unit of a label in any case, or the label itself, trimmed and in small letters. -/
def ofLabel (s : String) : Except String VolumeUnit :=
  let label := Text.lower (Text.trim s)
  match all.find? fun u => (labels u).contains label with
  | some u => .ok u
  | none => .error label

def unknownLabel (label : String) : String := s!"unsupported volume unit: {label}"

def name : VolumeUnit → String
  | .liters => "Liters"
  | .milliliters => "Milliliters"
  | .fluidOunces => "FluidOunces"
  | .gallonsUs => "GallonsUs"
  | .gallonsUk => "GallonsUk"
  | .pints => "Pints"
  | .quarts => "Quarts"

instance : JsonForm VolumeUnit where
  toJson u := .choice u.name
  ofJson? := Json.choice? all name

end VolumeUnit

/-- A container as it is labelled: so many thousandths of a unit. -/
structure Container where
  amountMilli : UInt64
  unit : VolumeUnit
deriving DecidableEq

namespace Container

def liter : Container := ⟨1000, .liters⟩

/-- The volume in microliters, to the nearest, at most the largest word. -/
def microLiters (c : Container) : UInt64 :=
  let nano := c.amountMilli.toNat * c.unit.nanoLiters / 1000
  UInt64.ofNatClamp ((nano + 500) / 1000)

def text (c : Container) : String :=
  let amount := c.amountMilli.toNat
  s!"{amount / 1000}." ++ String.ofList (Date.digits 3 (amount % 1000)) ++ s!" {c.unit.symbol}"

def fields : List String := ["amount_milli", "unit"]

instance : JsonForm Container where
  toJson c := .record fields [toJson c.amountMilli, toJson c.unit]
  ofJson? j :=
    match j.fields? fields with
    | some [amount, unit] => do
      some { amountMilli := ← Json.required? amount, unit := ← Json.required? unit }
    | _ => none

end Container

/-- The price of a liter, to the nearest micro unit, if the container is not empty and a word holds
the price. -/
def pricePerLiter? (price volume : UInt64) : Option UInt64 :=
  if volume = 0 then none
  else word? ((price.toNat * 1000000 + volume.toNat / 2) / volume.toNat)

end WaterPeg
