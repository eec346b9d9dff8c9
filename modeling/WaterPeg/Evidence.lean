import WaterPeg.Binary64.Decimal
import WaterPeg.Bytes
import WaterPeg.Measurement
import WaterPeg.Text

/-!
The form of the evidence that comes with an observation: a URL for online sources, and a place with
the hash of a photo for offline ones. Only the form is checked here.
-/
namespace WaterPeg

inductive Axis
  | latitude
  | longitude
deriving DecidableEq, Repr

namespace Axis

def name : Axis → String
  | .latitude => "latitude"
  | .longitude => "longitude"

def limit : Axis → Nat
  | .latitude => 90
  | .longitude => 180

end Axis

namespace Evidence

inductive Fault
  | urlLength (bytes : Nat)
  | urlScheme
  | urlHost
  | urlBlank
  | placeParts
  | notNumber (axis : Axis)
  | outOfRange (axis : Axis)
  | photoHash
deriving DecidableEq, Repr

def minUrlLength : Nat := 10

def maxUrlLength : Nat := 2048

def minPhotoHashLength : Nat := 32

def Fault.message : Fault → String
  | .urlLength n => s!"url length {n} outside [{minUrlLength}, {maxUrlLength}]"
  | .urlScheme => "url must use http or https"
  | .urlHost => "url has no host"
  | .urlBlank => "url contains whitespace"
  | .placeParts => "offline proof must be \"lat,lon,photohash\""
  | .notNumber axis => axis.name ++ " is not a number"
  | .outOfRange axis => axis.name ++ " out of range"
  | .photoHash => "photo hash must be hex, at least 32 characters"

def afterScheme? (url : List Char) : Option (List Char) :=
  match "https://".toList.isPrefixOf? url with
  | some rest => some rest
  | none => "http://".toList.isPrefixOf? url

/-- A web address: its length in bytes is in range, a host follows the scheme, no character is
blank. -/
def checkUrl (url : String) : Except Fault Unit := do
  let length := url.utf8ByteSize
  if length < minUrlLength ∨ maxUrlLength < length then .error (.urlLength length)
  let some rest := afterScheme? url.toList | .error .urlScheme
  if rest.isEmpty ∨ rest.head? = some '/' then .error .urlHost
  if url.toList.any Text.isBlank then .error .urlBlank

/-- A place in millionths of a degree, and the hash of a photo in small letters. -/
structure Place where
  latitude : Int
  longitude : Int
  photoHash : String
deriving DecidableEq

/-- Read a number of degrees as millionths, to the nearest, halves away from zero. -/
def coordinate (axis : Axis) (s : String) : Except Fault Int := do
  let some x := Binary64.ofText? (Text.trim s) | .error (.notNumber axis)
  if x.within axis.limit then
    match (x.scale 1000000).round? with
    | some n => .ok n
    | none => .error (.outOfRange axis)
  else .error (.outOfRange axis)

def isHexDigit (c : Char) : Bool :=
  c.isDigit || ('a' ≤ c && c ≤ 'f') || ('A' ≤ c && c ≤ 'F')

def splitOn (separator : Char) : List Char → List (List Char)
  | [] => [[]]
  | c :: cs =>
    match splitOn separator cs with
    | [] => [[c]]
    | part :: parts => if c = separator then [] :: part :: parts else (c :: part) :: parts

/-- Read a latitude, a longitude and the hash of a photo, with commas between them. -/
def readPlace (s : String) : Except Fault Place := do
  let [a, b, c] := splitOn ',' s.toList | .error .placeParts
  let latitude ← coordinate .latitude (String.ofList a)
  let longitude ← coordinate .longitude (String.ofList b)
  let hash := Text.trim (String.ofList c)
  if hash.utf8ByteSize < minPhotoHashLength ∨ ¬ hash.toList.all isHexDigit then .error .photoHash
  .ok ⟨latitude, longitude, Text.lower hash⟩

def check (source : Source) (evidence : String) : Except Fault Unit :=
  if source.isOffline then (readPlace evidence).map fun _ => () else checkUrl evidence

end Evidence

end WaterPeg
