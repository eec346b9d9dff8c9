import WaterPeg.Toml.Scalar

/-! Reading TOML documents: values, lines, and the tables that the lines make up. -/
namespace WaterPeg.Toml

namespace Reader

mutual

/-- A value within at most `depth` brackets. Each call spends one of `limit`. -/
def value? : Nat → Nat → List Char → Option (Toml × List Char)
  | 0, _, _ => none
  | limit + 1, depth, cs =>
    match cs with
    | '"' :: _ | '\'' :: _ => (text? cs).map fun (text, rest) => (.string text, rest)
    | 't' :: 'r' :: 'u' :: 'e' :: rest => some (.bool true, rest)
    | 'f' :: 'a' :: 'l' :: 's' :: 'e' :: rest => some (.bool false, rest)
    | '[' :: rest =>
      match depth with
      | 0 => none
      | depth + 1 => (items? limit depth rest).map fun (items, rest) => (.array items, rest)
    | '{' :: rest =>
      match depth with
      | 0 => none
      | depth + 1 =>
        match skipBlanks rest with
        | '}' :: rest => some (.table .inline [], rest)
        | _ =>
          match pairs? limit depth rest with
          | none => none
          | some (pairs, rest) =>
            (addAll? [] pairs).map fun fields => (.table .inline fields, rest)
    | _ => scalar? cs

/-- The items of an array and its closing bracket. A comma may follow the last item. -/
def items? : Nat → Nat → List Char → Option (List Toml × List Char)
  | 0, _, _ => none
  | limit + 1, depth, cs =>
    match skipGap? false cs with
    | none => none
    | some (']' :: rest) => some ([], rest)
    | some cs =>
      match value? limit depth cs with
      | none => none
      | some (item, rest) =>
        match skipGap? false rest with
        | some (']' :: rest) => some ([item], rest)
        | some (',' :: rest) =>
          (items? limit depth rest).map fun (items, rest) => (item :: items, rest)
        | _ => none

def pair? : Nat → Nat → List Char → Option (Pair × List Char)
  | 0, _, _ => none
  | limit + 1, depth, cs =>
    match key? cs with
    | some ((path, key), '=' :: rest) =>
      (value? limit depth (skipBlanks rest)).map fun (value, rest) => (⟨path, key, value⟩, rest)
    | _ => none

def pairs? : Nat → Nat → List Char → Option (List Pair × List Char)
  | 0, _, _ => none
  | limit + 1, depth, cs =>
    match pair? limit depth cs with
    | none => none
    | some (pair, rest) =>
      match skipBlanks rest with
      | '}' :: rest => some ([pair], rest)
      | ',' :: rest => (pairs? limit depth rest).map fun (pairs, rest) => (pair :: pairs, rest)
      | _ => none

end

inductive Line
  | empty
  | pair (pair : Pair)
  | header (header : Header)

def line? (cs : List Char) : Option (Line × List Char) :=
  match skipBlanks cs with
  | '#' :: _ | '\n' :: _ | '\r' :: _ => (lineEnd? cs).map fun rest => (.empty, rest)
  | '[' :: '[' :: rest =>
    match key? rest with
    | some ((path, name), ']' :: ']' :: rest) =>
      (lineEnd? rest).map fun rest => (.header ⟨path, name, true⟩, rest)
    | _ => none
  | '[' :: rest =>
    match key? rest with
    | some ((path, name), ']' :: rest) =>
      (lineEnd? rest).map fun rest => (.header ⟨path, name, false⟩, rest)
    | _ => none
  | cs =>
    match pair? (2 * cs.length + 2) maxDepth cs with
    | some (pair, rest) => (lineEnd? rest).map fun rest => (.pair pair, rest)
    | none => none

def lines? : Nat → List Char → Option (List Line)
  | 0, _ => none
  | limit + 1, cs =>
    if (skipBlanks cs).isEmpty then some []
    else
      match line? cs with
      | some (line, rest) => (lines? limit rest).map (line :: ·)
      | none => none

def sections : List Line → List Pair × List Section
  | [] => ([], [])
  | .empty :: lines => sections lines
  | .pair p :: lines =>
    let (pairs, rest) := sections lines
    (p :: pairs, rest)
  | .header h :: lines =>
    let (pairs, rest) := sections lines
    ([], ⟨h, pairs⟩ :: rest)

end Reader

/-- The root table of a document. A byte order mark may come first. -/
def read? (document : String) : Option Fields := do
  let cs := match document.toList with
    | '\uFEFF' :: cs => cs
    | cs => cs
  let lines ← Reader.lines? (cs.length + 1) cs
  let (pairs, sections) := Reader.sections lines
  document? pairs sections

end WaterPeg.Toml
