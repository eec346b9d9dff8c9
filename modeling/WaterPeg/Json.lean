import WaterPeg.Bytes

/-!
JSON texts as trees of their tokens. A number keeps its lexeme and a string the bytes between its
quotes, so that printing a tree gives back the compact form of the text that was read.
-/
namespace WaterPeg

/-- A JSON text without its white space. -/
inductive Json
  | null
  | bool (value : Bool)
  | number (lexeme : Bytes)
  | string (raw : Bytes)
  | array (items : List Json)
  | object (fields : List (Bytes × Json))

namespace Json

/-! ## Numbers -/

def decimal (n : Nat) : Bytes := (Nat.toDigits 10 n).map fun c => UInt8.ofNat c.toNat

def isDigit (b : UInt8) : Bool := 48 ≤ b && b ≤ 57

def natural? (lexeme : Bytes) : Option Nat :=
  if lexeme ≠ [] ∧ lexeme.all isDigit then
    some (lexeme.foldl (fun n b => 10 * n + (b.toNat - 48)) 0)
  else none

/-! ## Strings -/

/-- A control character that has no letter of its own is escaped by four hexadecimal digits. -/
def escapeByte (b : UInt8) : Bytes :=
  if b = 0x22 then [0x5C, 0x22]
  else if b = 0x5C then [0x5C, 0x5C]
  else if b = 8 then [0x5C, 0x62]
  else if b = 12 then [0x5C, 0x66]
  else if b = 10 then [0x5C, 0x6E]
  else if b = 13 then [0x5C, 0x72]
  else if b = 9 then [0x5C, 0x74]
  else if b < 32 then
    [0x5C, 0x75, 0x30, 0x30, UInt8.ofNat (Bytes.hexDigit (b.toNat / 16)).toNat,
      UInt8.ofNat (Bytes.hexDigit (b.toNat % 16)).toNat]
  else [b]

/-- The raw form of a text. Only quotes, backslashes and control characters are escaped. -/
def quote (s : String) : Bytes := (Bytes.ofString s).flatMap escapeByte

def letterEscape? (b : UInt8) : Option UInt8 :=
  if b = 0x22 then some 0x22
  else if b = 0x5C then some 0x5C
  else if b = 0x2F then some 0x2F
  else if b = 0x62 then some 8
  else if b = 0x66 then some 12
  else if b = 0x6E then some 10
  else if b = 0x72 then some 13
  else if b = 0x74 then some 9
  else none

def hex4? (a b c d : UInt8) : Option Nat := do
  let a ← Bytes.hexValue? a
  let b ← Bytes.hexValue? b
  let c ← Bytes.hexValue? c
  let d ← Bytes.hexValue? d
  some (4096 * a + 256 * b + 16 * c + d)

def encodePoint (n : Nat) : Bytes := Bytes.ofString (String.ofList [Char.ofNat n])

/-- Resolve the escapes of a raw string. Surrogates must come in pairs. -/
def unescape? : Bytes → Option Bytes
  | [] => some []
  | 0x5C :: 0x75 :: a :: b :: c :: d :: rest =>
    match hex4? a b c d with
    | none => none
    | some n =>
      if n < 0xD800 ∨ 0xE000 ≤ n then (unescape? rest).map (encodePoint n ++ ·)
      else if 0xDC00 ≤ n then none
      else
        match rest with
        | 0x5C :: 0x75 :: a :: b :: c :: d :: rest =>
          match hex4? a b c d with
          | none => none
          | some m =>
            if 0xDC00 ≤ m ∧ m < 0xE000 then
              (unescape? rest).map
                (encodePoint (0x10000 + 0x400 * (n - 0xD800) + (m - 0xDC00)) ++ ·)
            else none
        | _ => none
  | 0x5C :: e :: rest =>
    match letterEscape? e with
    | none => none
    | some b => (unescape? rest).map (b :: ·)
  | b :: rest => (unescape? rest).map (b :: ·)

def unquote? (raw : Bytes) : Option String := unescape? raw >>= Bytes.text?

/-! ## Printing -/

mutual

/-- The compact form: no white space, fields in their order. -/
def print : Json → Bytes
  | .null => [0x6E, 0x75, 0x6C, 0x6C]
  | .bool true => [0x74, 0x72, 0x75, 0x65]
  | .bool false => [0x66, 0x61, 0x6C, 0x73, 0x65]
  | .number lexeme => lexeme
  | .string raw => 0x22 :: (raw ++ [0x22])
  | .array [] => [0x5B, 0x5D]
  | .array (x :: xs) => 0x5B :: (print x ++ printItems xs)
  | .object [] => [0x7B, 0x7D]
  | .object (f :: fs) => 0x7B :: (printField f ++ printFields fs)

/-- The items after the first, and the closing bracket. -/
def printItems : List Json → Bytes
  | [] => [0x5D]
  | x :: xs => 0x2C :: (print x ++ printItems xs)

def printField : Bytes × Json → Bytes
  | (key, value) => 0x22 :: (key ++ 0x22 :: 0x3A :: print value)

/-- The fields after the first, and the closing brace. -/
def printFields : List (Bytes × Json) → Bytes
  | [] => [0x7D]
  | f :: fs => 0x2C :: (printField f ++ printFields fs)

end

end Json

end WaterPeg
