import WaterPeg.Bytes
import WaterPeg.Toml

/-!
The lexical part of TOML: blanks, comments and line ends, quoted and bare text. Readers take a list of
characters and give what they read and what follows it.
-/
namespace WaterPeg.Toml

def isBlank (c : Char) : Bool := c == ' ' || c == '\t'

def skipBlanks (cs : List Char) : List Char := cs.dropWhile isBlank

/-- A character that may stand in text: no control character but the tab. -/
def isPrintable (c : Char) : Bool := c == '\t' || (' ' ≤ c && c != '\x7f')

/-! ## Lines -/

def lineBreak? : List Char → Option (List Char)
  | [] => some []
  | '\n' :: rest => some rest
  | '\r' :: '\n' :: rest => some rest
  | _ => none

/-- What may end a line: blanks, a comment, and a line break. -/
def lineEnd? (cs : List Char) : Option (List Char) :=
  match skipBlanks cs with
  | '#' :: rest => lineBreak? (rest.dropWhile isPrintable)
  | rest => lineBreak? rest

/-- Skip blanks, comments and line breaks. A comment ends with a line break. -/
def skipGap? (inComment : Bool) : List Char → Option (List Char)
  | [] => if inComment then none else some []
  | '\n' :: rest => skipGap? false rest
  | '\r' :: '\n' :: rest => skipGap? false rest
  | c :: rest =>
    if inComment then (if isPrintable c then skipGap? true rest else none)
    else if isBlank c then skipGap? false rest
    else if c = '#' then skipGap? true rest
    else some (c :: rest)

/-! ## Quoted text -/

/-- The raw text up to a closing quote. A backslash takes the character after it along. -/
def quoted? : List Char → Option (List Char × List Char)
  | [] => none
  | '"' :: rest => some ([], rest)
  | '\\' :: c :: rest =>
    if isPrintable c then (quoted? rest).map fun (raw, rest) => ('\\' :: c :: raw, rest) else none
  | c :: rest =>
    if isPrintable c then (quoted? rest).map fun (raw, rest) => (c :: raw, rest) else none

def literal? (cs : List Char) : Option (List Char × List Char) :=
  let isPart (c : Char) : Bool := isPrintable c && c != '\''
  match cs.dropWhile isPart with
  | '\'' :: rest => some (cs.takeWhile isPart, rest)
  | _ => none

/-- The raw text up to three closing marks. Up to two marks before those belong to the text. Line
breaks are single characters of it. If the mark is a quote, a backslash takes a quote or backslash
after it along. -/
def block? (mark : Char) : List Char → Option (List Char × List Char)
  | [] => none
  | '\r' :: '\n' :: rest => (block? mark rest).map fun (raw, rest) => ('\n' :: raw, rest)
  | '\n' :: rest => (block? mark rest).map fun (raw, rest) => ('\n' :: raw, rest)
  | '\\' :: '"' :: rest =>
    if mark = '"' then (block? mark rest).map fun (raw, rest) => ('\\' :: '"' :: raw, rest)
    else (block? mark ('"' :: rest)).map fun (raw, rest) => ('\\' :: raw, rest)
  | '\\' :: '\\' :: rest =>
    (block? mark rest).map fun (raw, rest) => ('\\' :: '\\' :: raw, rest)
  | a :: b :: c :: rest =>
    if a = mark ∧ b = mark ∧ c = mark then
      let extra := min (rest.takeWhile (· == mark)).length 2
      some (List.replicate extra mark, rest.drop extra)
    else if isPrintable a then
      (block? mark (b :: c :: rest)).map fun (raw, rest) => (a :: raw, rest)
    else none
  | _ => none

def letter? (c : Char) : Option Char :=
  if c = 'b' then some '\x08'
  else if c = 'f' then some '\x0c'
  else if c = 'n' then some '\n'
  else if c = 'r' then some '\r'
  else if c = 't' then some '\t'
  else if c = '\\' then some '\\'
  else if c = '"' then some '"'
  else none

def hexValue? (c : Char) : Option Nat :=
  if c.isDigit then some (c.toNat - 48)
  else if 'a' ≤ c ∧ c ≤ 'f' then some (c.toNat - 87)
  else if 'A' ≤ c ∧ c ≤ 'F' then some (c.toNat - 55)
  else none

def point? (digits : List Char) : Option Char := do
  let n ← digits.foldlM (fun n c => (hexValue? c).map (16 * n + ·)) 0
  if n.isValidChar then some (Char.ofNat n) else none

/-- Resolve the escapes of a raw text. A backslash at the end of a line drops the line break and all
blanks and line breaks after it. -/
def unescape? (skipping : Bool) : List Char → Option (List Char)
  | [] => some []
  | '\\' :: 'u' :: a :: b :: c :: d :: rest =>
    match point? [a, b, c, d] with
    | some x => (unescape? false rest).map (x :: ·)
    | none => none
  | '\\' :: 'U' :: a :: b :: c :: d :: e :: f :: g :: h :: rest =>
    match point? [a, b, c, d, e, f, g, h] with
    | some x => (unescape? false rest).map (x :: ·)
    | none => none
  | '\\' :: c :: rest =>
    match letter? c with
    | some x => (unescape? false rest).map (x :: ·)
    | none =>
      if (skipBlanks (c :: rest)).head? = some '\n' then unescape? true (c :: rest) else none
  | ['\\'] => none
  | c :: rest =>
    if skipping && (isBlank c || c == '\n') then unescape? true rest
    else (unescape? false rest).map (c :: ·)

def dropBreak (cs : List Char) : List Char :=
  match cs with
  | '\n' :: rest => rest
  | '\r' :: '\n' :: rest => rest
  | cs => cs

def lineText? : List Char → Option (String × List Char)
  | '"' :: cs => do
    let (raw, rest) ← quoted? cs
    let text ← unescape? false raw
    some (String.ofList text, rest)
  | '\'' :: cs => (literal? cs).map fun (text, rest) => (String.ofList text, rest)
  | _ => none

/-- Quoted text; between triple marks it may go over several lines. -/
def text? : List Char → Option (String × List Char)
  | '"' :: '"' :: '"' :: cs => do
    let (raw, rest) ← block? '"' (dropBreak cs)
    let text ← unescape? false raw
    some (String.ofList text, rest)
  | '\'' :: '\'' :: '\'' :: cs =>
    (block? '\'' (dropBreak cs)).map fun (text, rest) => (String.ofList text, rest)
  | cs => lineText? cs

/-! ## Keys -/

def isBare (c : Char) : Bool := c.isAlphanum || c == '_' || c == '-'

def keyPart? (cs : List Char) : Option (String × List Char) :=
  match cs with
  | '"' :: _ | '\'' :: _ => lineText? cs
  | _ =>
    let part := cs.takeWhile isBare
    if part.isEmpty then none else some (String.ofList part, cs.dropWhile isBare)

def keyParts? : Nat → List Char → Option (List String × List Char)
  | 0, _ => none
  | limit + 1, cs =>
    match keyPart? (skipBlanks cs) with
    | none => none
    | some (part, rest) =>
      match skipBlanks rest with
      | '.' :: rest => (keyParts? limit rest).map fun (parts, rest) => (part :: parts, rest)
      | rest => some ([part], rest)

/-- The most parts that a key may have, and the most brackets that a value may be within. -/
def maxDepth : Nat := 79

/-- A key as the dotted keys before its last part, and that part. -/
def key? (cs : List Char) : Option ((List String × String) × List Char) := do
  let (parts, rest) ← keyParts? maxDepth cs
  some ((parts.dropLast, ← parts.getLast?), rest)

end WaterPeg.Toml
