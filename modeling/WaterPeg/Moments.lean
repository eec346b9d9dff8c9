import WaterPeg.Json.Form
import WaterPeg.SquareRoot
import WaterPeg.Units

/-!
Means and deviations of samples in whole numbers. The mean is rounded down, and a value is compared
with a multiple of the standard deviation `s` in squares, `d * d * (n - 1) <= k * k * S`, where `S` is
the sum of squared distances from the mean, so that no root decides anything.
-/
namespace WaterPeg

/-- The number of samples, their mean rounded down, and the sum of their squared distances from it,
at most the largest number of 128 bits. -/
structure Moments where
  count : Nat
  mean : UInt64
  squares : UInt128
deriving DecidableEq

def total (values : List UInt64) : Nat := values.foldl (fun sum v => sum + v.toNat) 0

namespace Moments

def squaredDistance (mean value : UInt64) : Nat :=
  absDiff value.toNat mean.toNat * absDiff value.toNat mean.toNat

def of? (values : List UInt64) : Option Moments :=
  if values.isEmpty then none
  else
    let mean := UInt64.ofNat (total values / values.length)
    some
      { count := values.length
        mean
        squares := UInt128.ofNatClamp (values.foldl (fun sum v => sum + squaredDistance mean v) 0) }

/-- The standard deviation of a sample, rounded down. -/
def stdDev (m : Moments) : UInt64 :=
  if m.count < 2 then 0 else UInt64.ofNat (squareRoot (m.squares.toNat / (m.count - 1)))

def clampedMul (a b : Nat) : Nat := min (a * b) (UInt128.size - 1)

/-- The value is within `k` thousandths of a standard deviation of the mean. One sample has no
spread, so everything is. -/
def within (m : Moments) (value k : UInt64) : Bool :=
  if m.count < 2 then true
  else
    clampedMul (clampedMul (squaredDistance m.mean value) (m.count - 1)) 1000000
      ≤ clampedMul (k.toNat * k.toNat) m.squares.toNat

/-- The standard deviation in basis points of the mean. -/
def variation (m : Moments) : UInt64 :=
  if m.mean = 0 then 0
  else UInt64.ofNat (m.stdDev.toNat * basisPoints / m.mean.toNat)

end Moments

/-- The samples within `k` thousandths of a standard deviation of their mean. -/
def withoutOutliers (values : List UInt64) (k : UInt64) : List UInt64 :=
  match Moments.of? values with
  | some m => values.filter fun v => m.within v k
  | none => []

/-- The mean of the samples without outliers, or of all if none is left. -/
def gaussianMean? (values : List UInt64) (k : UInt64) : Option UInt64 :=
  match Moments.of? values with
  | none => none
  | some raw =>
    match Moments.of? (withoutOutliers values k) with
    | some kept => some kept.mean
    | none => some raw.mean

inductive Confidence
  | insufficient
  | low
  | high
  | veryHigh
deriving DecidableEq, Repr

namespace Confidence

/-- Below 5, below 10, below 20, or more samples. -/
def ofCount (n : Nat) : Confidence :=
  if n < 5 then .insufficient else if n < 10 then .low else if n < 20 then .high else .veryHigh

def all : List Confidence := [.insufficient, .low, .high, .veryHigh]

def name : Confidence → String
  | .insufficient => "InsufficientData"
  | .low => "Low"
  | .high => "High"
  | .veryHigh => "VeryHigh"

instance : JsonForm Confidence where
  toJson c := .choice c.name
  ofJson? := Json.choice? all name

end Confidence

structure Summary where
  /-- Mean without outliers. -/
  value : UInt64
  rawMean : UInt64
  stdDev : UInt64
  sampleCount : Nat
  /-- Samples left without outliers. -/
  keptCount : Nat
  confidence : Confidence
  isSignificant : Bool
deriving DecidableEq

/-- Summarise a list that has samples; from `minSignificant` samples on it is significant. -/
def Summary.of? (values : List UInt64) (k minSignificant : UInt64) : Option Summary :=
  match Moments.of? values with
  | none => none
  | some raw =>
    let kept := withoutOutliers values k
    some
      { value := ((Moments.of? kept).map Moments.mean).getD raw.mean
        rawMean := raw.mean
        stdDev := raw.stdDev
        sampleCount := raw.count
        keptCount := kept.length
        confidence := .ofCount raw.count
        isSignificant := minSignificant.toNat ≤ raw.count }

def Summary.json (s : Summary) : Json :=
  .record
    ["value_micro", "raw_mean_micro", "std_dev_micro", "sample_count", "filtered_count",
      "confidence", "is_significant"]
    [toJson s.value, toJson s.rawMean, toJson s.stdDev, .count s.sampleCount, .count s.keptCount,
      toJson s.confidence, toJson s.isSignificant]

/-- What a new value is held against. -/
structure Band where
  /-- Thousandths of a standard deviation. -/
  width : UInt64
  /-- With fewer samples than this everything is accepted. -/
  minHistory : UInt64
  /-- Basis points of the mean that are accepted when all samples are alike. -/
  tolerance : UInt64

/-- Accept a value beside its history, or give the moments that speak against it. -/
def Band.judge (band : Band) (history : List UInt64) (value : UInt64) :
    Except Moments (Option Moments) :=
  match Moments.of? history with
  | none => .ok none
  | some m =>
    if m.count < band.minHistory.toNat then .ok (some m)
    else if m.squares = 0 then
      if absDiff value.toNat m.mean.toNat ≤ m.mean.toNat * band.tolerance.toNat / basisPoints then
        .ok (some m)
      else .error m
    else if m.within value band.width then .ok (some m)
    else .error m

end WaterPeg
