import WaterPeg.Calendar
import WaterPeg.Digest
import WaterPeg.Json.Reader
import WaterPeg.Measurement
import WaterPeg.Word

/-!
The JSON form of values and records. A record is written as an object with its fields in order. It
is read from an object with the fields in any order, where unknown fields are passed over and a
field may not come twice, or from an array of all its fields in order.
-/
namespace WaterPeg

/-- Types whose values are written and read as JSON. -/
class JsonForm (α : Type) where
  toJson : α → Json
  ofJson? : Json → Option α

export JsonForm (toJson ofJson?)

def encode {α : Type} [JsonForm α] (a : α) : Bytes := (toJson a).print

def decode? {α : Type} [JsonForm α] (b : Bytes) : Option α := Json.read? b >>= ofJson?

namespace Json

/-! ## Records -/

def record (names : List String) (values : List Json) : Json :=
  .object ((names.map quote).zip values)

/-- The keys of an object as texts, if all are. -/
def keyed? : List (Bytes × Json) → Option (List (String × Json))
  | [] => some []
  | (key, value) :: rest =>
    match unquote? key, keyed? rest with
    | some k, some r => some ((k, value) :: r)
    | _, _ => none

/-- The fields of a record by the order of their names; a field may be missing from an object. -/
def fields? (names : List String) : Json → Option (List (Option Json))
  | .object entries =>
    match keyed? entries with
    | some entries =>
      if names.all fun n => (entries.countP fun e => e.1 == n) ≤ 1 then
        some (names.map fun n => entries.lookup n)
      else none
    | none => none
  | .array items => if items.length = names.length then some (items.map some) else none
  | _ => none

def count (n : Nat) : Json := .number (decimal n)

def required? {α : Type} [JsonForm α] (field : Option Json) : Option α := field >>= ofJson?

/-- A field that may be missing or null. -/
def optional? {α : Type} [JsonForm α] : Option Json → Option (Option α)
  | none | some .null => some none
  | some j => (ofJson? j).map some

/-! ## Choices -/

def choice (name : String) : Json := .string (quote name)

/-- The name of a choice, written alone or as the key of a null. -/
def choiceName? : Json → Option String
  | .string raw => unquote? raw
  | .object [(key, .null)] => unquote? key
  | _ => none

def choice? {α : Type} (all : List α) (name : α → String) (j : Json) : Option α :=
  choiceName? j >>= fun s => all.find? fun a => name a == s

end Json

/-! ## Plain values -/

instance : JsonForm Bool where
  toJson := .bool
  ofJson?
    | .bool b => some b
    | _ => none

instance : JsonForm UInt8 where
  toJson b := .number (Json.decimal b.toNat)
  ofJson?
    | .number lexeme =>
      (Json.natural? lexeme).bind fun n => if n < UInt8.size then some (UInt8.ofNat n) else none
    | _ => none

instance : JsonForm UInt64 where
  toJson w := .number (Json.decimal w.toNat)
  ofJson?
    | .number lexeme => (Json.natural? lexeme).bind word?
    | _ => none

instance : JsonForm UInt128 where
  toJson x := .number (Json.decimal x.toNat)
  ofJson?
    | .number lexeme => (Json.natural? lexeme).bind UInt128.ofNat?
    | _ => none

instance : JsonForm String where
  toJson s := .string (Json.quote s)
  ofJson?
    | .string raw => Json.unquote? raw
    | _ => none

def Json.items {α : Type} [JsonForm α] : List Json → Option (List α)
  | [] => some []
  | j :: js =>
    match ofJson? j, Json.items js with
    | some a, some as => some (a :: as)
    | _, _ => none

instance {α : Type} [JsonForm α] : JsonForm (List α) where
  toJson as := .array (as.map toJson)
  ofJson?
    | .array js => Json.items js
    | _ => none

instance {α : Type} [JsonForm α] : JsonForm (Option α) where
  toJson
    | some a => toJson a
    | none => .null
  ofJson? j := Json.optional? (some j)

instance {α β : Type} [JsonForm α] [JsonForm β] : JsonForm (α × β) where
  toJson p := .array [toJson p.1, toJson p.2]
  ofJson?
    | .array [a, b] =>
      match (ofJson? a : Option α), (ofJson? b : Option β) with
      | some a, some b => some (a, b)
      | _, _ => none
    | _ => none

/-- A digest is written as its thirty-two bytes. -/
instance : JsonForm Digest where
  toJson d := toJson d.bytes
  ofJson? j := (ofJson? j : Option Bytes).bind Digest.ofBytes?

instance : JsonForm Date where
  toJson d := toJson d.text
  ofJson? j := (ofJson? j : Option String).bind Date.ofText?

/-! ## Kinds and sources -/

namespace MeasurementKind

def all : List MeasurementKind :=
  [.waterPrice, .exchangeRate, .waterPriceOffline, .exchangeRateOffline, .urlSubmission,
    .onlineValidation]

def name : MeasurementKind → String
  | .waterPrice => "WaterPrice"
  | .exchangeRate => "ExchangeRate"
  | .waterPriceOffline => "WaterPriceOfflineValidation"
  | .exchangeRateOffline => "ExchangeRateOfflineValidation"
  | .urlSubmission => "UrlSubmission"
  | .onlineValidation => "OnlineValidation"

instance : JsonForm MeasurementKind where
  toJson k := .choice k.name
  ofJson? := Json.choice? all name

end MeasurementKind

namespace Source

def all : List Source := [.userOnline, .userOffline, .botOnline, .botOffline]

def name : Source → String
  | .userOnline => "UserOnline"
  | .userOffline => "UserOffline"
  | .botOnline => "BotOnline"
  | .botOffline => "BotOffline"

instance : JsonForm Source where
  toJson s := .choice s.name
  ofJson? := Json.choice? all name

end Source

end WaterPeg
