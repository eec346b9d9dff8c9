import WaterPeg.Json

/-!
Reading JSON. A text is one value with white space around its tokens. What is inside a string is
checked only for well-formed escapes here; whether it is Unicode text is asked when it is used.
-/
namespace WaterPeg.Json

namespace Reader

def isBlank (b : UInt8) : Bool := b == 0x20 || b == 0x0A || b == 0x0D || b == 0x09

def skipBlanks (b : Bytes) : Bytes := b.dropWhile isBlank

/-- The raw bytes up to the closing quote, and what follows it. -/
def stringBody? : Bytes → Option (Bytes × Bytes)
  | [] => none
  | 0x22 :: rest => some ([], rest)
  | 0x5C :: 0x75 :: a :: b :: c :: d :: rest =>
    if (hex4? a b c d).isSome then
      (stringBody? rest).map fun (raw, rest) => (0x5C :: 0x75 :: a :: b :: c :: d :: raw, rest)
    else none
  | 0x5C :: e :: rest =>
    if (letterEscape? e).isSome then
      (stringBody? rest).map fun (raw, rest) => (0x5C :: e :: raw, rest)
    else none
  | b :: rest =>
    if b < 32 ∨ b = 0x5C then none
    else (stringBody? rest).map fun (raw, rest) => (b :: raw, rest)

def digits? (b : Bytes) : Option (Bytes × Bytes) :=
  let ds := b.takeWhile isDigit
  if ds.isEmpty then none else some (ds, b.dropWhile isDigit)

/-- The whole part of a number: 0, or digits that do not begin with 0. -/
def whole? (b : Bytes) : Option (Bytes × Bytes) :=
  match b with
  | 0x30 :: rest => some ([0x30], rest)
  | b => digits? b

def fraction? (b : Bytes) : Option (Bytes × Bytes) :=
  match b with
  | 0x2E :: rest => (digits? rest).map fun (ds, rest) => (0x2E :: ds, rest)
  | b => some ([], b)

def power? (b : Bytes) : Option (Bytes × Bytes) :=
  match b with
  | [] => some ([], [])
  | e :: rest =>
    if e = 0x65 ∨ e = 0x45 then
      match rest with
      | [] => none
      | s :: rest' =>
        if s = 0x2B ∨ s = 0x2D then
          (digits? rest').map fun (ds, r) => (e :: s :: ds, r)
        else (digits? rest).map fun (ds, r) => (e :: ds, r)
    else some ([], b)

def number? (b : Bytes) : Option (Bytes × Bytes) := do
  let (minus, b) := match b with
    | 0x2D :: rest => ([0x2D], rest)
    | b => (([] : Bytes), b)
  let (w, b) ← whole? b
  let (f, b) ← fraction? b
  let (e, b) ← power? b
  some (minus ++ (w ++ (f ++ e)), b)

mutual

/-- One value and what follows it. Each call spends one of `limit`, and a text shorter than the
limit is read to its end. -/
def value? : Nat → Bytes → Option (Json × Bytes)
  | 0, _ => none
  | limit + 1, b =>
    match skipBlanks b with
    | 0x6E :: 0x75 :: 0x6C :: 0x6C :: rest => some (.null, rest)
    | 0x74 :: 0x72 :: 0x75 :: 0x65 :: rest => some (.bool true, rest)
    | 0x66 :: 0x61 :: 0x6C :: 0x73 :: 0x65 :: rest => some (.bool false, rest)
    | 0x22 :: rest => (stringBody? rest).map fun (raw, rest) => (.string raw, rest)
    | 0x5B :: rest =>
      match skipBlanks rest with
      | 0x5D :: rest => some (.array [], rest)
      | _ =>
        match value? limit rest with
        | none => none
        | some (x, rest) => (items? limit rest).map fun (xs, rest) => (.array (x :: xs), rest)
    | 0x7B :: rest =>
      match skipBlanks rest with
      | 0x7D :: rest => some (.object [], rest)
      | _ =>
        match field? limit rest with
        | none => none
        | some (f, rest) => (fields? limit rest).map fun (fs, rest) => (.object (f :: fs), rest)
    | b => (number? b).map fun (lexeme, rest) => (.number lexeme, rest)

def items? : Nat → Bytes → Option (List Json × Bytes)
  | 0, _ => none
  | limit + 1, b =>
    match skipBlanks b with
    | 0x5D :: rest => some ([], rest)
    | 0x2C :: rest =>
      match value? limit rest with
      | none => none
      | some (x, rest) => (items? limit rest).map fun (xs, rest) => (x :: xs, rest)
    | _ => none

def field? : Nat → Bytes → Option ((Bytes × Json) × Bytes)
  | 0, _ => none
  | limit + 1, b =>
    match skipBlanks b with
    | 0x22 :: rest =>
      match stringBody? rest with
      | none => none
      | some (key, rest) =>
        match skipBlanks rest with
        | 0x3A :: rest => (value? limit rest).map fun (v, rest) => ((key, v), rest)
        | _ => none
    | _ => none

def fields? : Nat → Bytes → Option (List (Bytes × Json) × Bytes)
  | 0, _ => none
  | limit + 1, b =>
    match skipBlanks b with
    | 0x7D :: rest => some ([], rest)
    | 0x2C :: rest =>
      match field? limit rest with
      | none => none
      | some (f, rest) => (fields? limit rest).map fun (fs, rest) => (f :: fs, rest)
    | _ => none

end

end Reader

/-- The value that a text holds. Reading spends at most two calls a byte. -/
def read? (b : Bytes) : Option Json :=
  match Reader.value? (2 * b.length + 2) b with
  | some (v, rest) => if (Reader.skipBlanks rest).isEmpty then some v else none
  | none => none

end WaterPeg.Json
