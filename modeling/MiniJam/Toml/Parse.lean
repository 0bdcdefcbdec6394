import MiniJam.Text.Rune
import MiniJam.Toml.Quoted

/-!
# Reading configuration texts
-/

namespace MiniJam.Toml

def skipSpace (cs : List Char) : List Char := cs.dropWhile isSpace

/-- The characters after blanks, line ends and comments; `fuel` bounds their number. -/
def skipLines : (fuel : Nat) → List Char → List Char
  | 0, cs => cs
  | fuel + 1, cs =>
    match cs with
    | '#' :: rest => skipLines fuel (rest.dropWhile (· ≠ '\n'))
    | c :: rest => if isSpace c || c == '\n' then skipLines fuel rest else cs
    | [] => []

def name? (cs : List Char) : Option (String × List Char) :=
  match cs with
  | '"' :: rest => (basic? (rest.length + 1) rest).map fun (s, rest) => (String.ofList s, rest)
  | c :: rest =>
    if c = apostrophe then (literal? rest).map fun (s, rest) => (String.ofList s, rest)
    else
      match cs.takeWhile isBareChar with
      | [] => none
      | name => some (String.ofList name, cs.dropWhile isBareChar)
  | [] => none

/-- Reads a key with the blanks around its names; `fuel` bounds the number of its names. -/
def key? : (fuel : Nat) → List Char → Option (Key × List Char)
  | 0, _ => none
  | fuel + 1, cs => do
    let (name, rest) ← name? (skipSpace cs)
    match skipSpace rest with
    | '.' :: rest =>
      let (names, rest) ← key? fuel rest
      some (name :: names, rest)
    | rest => some ([name], rest)

mutual

def value? : (fuel : Nat) → List Char → Option (Value × List Char)
  | 0, _ => none
  | fuel + 1, cs =>
    let scalar (r : Option (Scalar × List Char)) : Option (Value × List Char) :=
      r.map fun (s, rest) => (.scalar s, rest)
    match skipSpace cs with
    | '[' :: rest => (items? fuel rest).map fun (items, rest) => (.array items, rest)
    | '\x7b' :: rest => (pairs? fuel rest).map fun (pairs, rest) => (.inline pairs, rest)
    | '"' :: rest => scalar (basicValue? rest)
    | '-' :: rest => scalar (signed? '-' rest)
    | '+' :: rest => scalar (signed? '+' rest)
    | 'i' :: 'n' :: 'f' :: rest => some (.scalar .float, rest)
    | 'n' :: 'a' :: 'n' :: rest => some (.scalar .float, rest)
    | 't' :: 'r' :: 'u' :: 'e' :: rest => some (.scalar (.boolean true), rest)
    | 'f' :: 'a' :: 'l' :: 's' :: 'e' :: rest => some (.scalar (.boolean false), rest)
    | c :: rest =>
      if c = apostrophe then scalar (literalValue? rest)
      else if c.isDigit then scalar (number? (c :: rest))
      else none
    | [] => none

def items? : (fuel : Nat) → List Char → Option (List Value × List Char)
  | 0, _ => none
  | fuel + 1, cs =>
    match skipLines cs.length cs with
    | ']' :: rest => some ([], rest)
    | cs => do
      let (item, rest) ← value? fuel cs
      match skipLines rest.length rest with
      | ']' :: rest => some ([item], rest)
      | ',' :: rest =>
        let (items, rest) ← items? fuel rest
        some (item :: items, rest)
      | _ => none

def pairs? : (fuel : Nat) → List Char → Option (List Pair × List Char)
  | 0, _ => none
  | fuel + 1, cs =>
    match skipLines cs.length cs with
    | '\x7d' :: rest => some ([], rest)
    | cs => do
      let (p, rest) ← pair? fuel cs
      match skipLines rest.length rest with
      | '\x7d' :: rest => some ([p], rest)
      | ',' :: rest =>
        let (ps, rest) ← pairs? fuel rest
        some (p :: ps, rest)
      | _ => none

def pair? : (fuel : Nat) → List Char → Option (Pair × List Char)
  | 0, _ => none
  | fuel + 1, cs => do
    let (key, rest) ← key? cs.length cs
    match rest with
    | '=' :: rest =>
      let (value, rest) ← value? fuel rest
      some (.mk key value, rest)
    | _ => none

end

def line? (cs : List Char) : Option (Line × List Char) :=
  match cs with
  | '[' :: '[' :: rest => do
    let (key, rest) ← key? rest.length rest
    match rest with
    | ']' :: ']' :: rest => some (.tableOfList key, rest)
    | _ => none
  | '[' :: rest => do
    let (key, rest) ← key? rest.length rest
    match rest with
    | ']' :: rest => some (.table key, rest)
    | _ => none
  | cs => (pair? (2 * cs.length + 2) cs).map fun (p, rest) => (.pair p, rest)

def lines? : (fuel : Nat) → List Char → Option (List Line)
  | 0, _ => none
  | fuel + 1, cs =>
    match skipLines cs.length cs with
    | [] => some []
    | cs => do
      let (line, rest) ← line? cs
      match skipSpace rest with
      | [] => some [line]
      | c :: rest =>
        if c = '\n' ∨ c = '#' then (lines? fuel (c :: rest)).map (line :: ·) else none

def isForbidden (c : Char) : Bool :=
  (c.toNat < 32 && c != '\t' && c != '\n') || c.toNat = 127

def joinLineEnds : List Char → List Char
  | '\r' :: '\n' :: cs => '\n' :: joinLineEnds cs
  | c :: cs => c :: joinLineEnds cs
  | [] => []

/-- Bytes without the mark of the byte order in front. -/
def dropMark : List UInt8 → List UInt8
  | 0xFF :: 0xFE :: bs | 0xFE :: 0xFF :: bs | 0xEF :: 0xBB :: 0xBF :: bs => bs
  | bs => bs

def parse? (bytes : List UInt8) : Option (List Line) :=
  let runes := Text.Rune.decode (dropMark bytes)
  let cs := joinLineEnds (runes.map (·.char))
  if runes.any (fun r => r.char = Text.Rune.replacement && r.width = 1) || cs.any isForbidden then
    none
  else lines? (cs.length + 1) cs

end MiniJam.Toml
