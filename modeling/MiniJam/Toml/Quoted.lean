import MiniJam.Toml.Scalar

/-!
# Quoted texts

Texts in double quotes have escapes; texts in single quotes have none.  Three quotes stand around a
text that may span lines.
-/

namespace MiniJam.Toml

def apostrophe : Char := Char.ofNat 39

def isSpace (c : Char) : Bool := c == ' ' || c == '\t'

def scalarValue? (digits : List Char) : Option Char :=
  let n := natInBase 16 digits
  if digits.all isHexDigit && (n < 0xD800 || (0xDFFF < n && n ≤ 0x10FFFF)) then some (Char.ofNat n)
  else none

/-- Reads what follows a backslash: the character it stands for and the characters after it. -/
def escape? : List Char → Option (Char × List Char)
  | 'b' :: cs => some (Char.ofNat 8, cs)
  | 't' :: cs => some ('\t', cs)
  | 'n' :: cs => some ('\n', cs)
  | 'f' :: cs => some (Char.ofNat 12, cs)
  | 'r' :: cs => some ('\r', cs)
  | 'e' :: cs => some (Char.ofNat 27, cs)
  | '"' :: cs => some ('"', cs)
  | '\\' :: cs => some ('\\', cs)
  | 'x' :: a :: b :: cs => (scalarValue? [a, b]).map (·, cs)
  | 'u' :: a :: b :: c :: d :: cs => (scalarValue? [a, b, c, d]).map (·, cs)
  | 'U' :: a :: b :: c :: d :: e :: f :: g :: h :: cs =>
    (scalarValue? [a, b, c, d, e, f, g, h]).map (·, cs)
  | _ => none

/-- Reads a text up to its double quote; `fuel` bounds the number of its characters. -/
def basic? : (fuel : Nat) → List Char → Option (List Char × List Char)
  | 0, _ => none
  | fuel + 1, cs =>
    match cs with
    | [] => none
    | '"' :: rest => some ([], rest)
    | '\n' :: _ => none
    | '\\' :: rest => do
      let (c, rest) ← escape? rest
      let (text, rest) ← basic? fuel rest
      some (c :: text, rest)
    | c :: rest => do
      let (text, rest) ← basic? fuel rest
      some (c :: text, rest)

def literal? (cs : List Char) : Option (List Char × List Char) :=
  let text := cs.takeWhile (· ≠ apostrophe)
  match cs.dropWhile (· ≠ apostrophe) with
  | _ :: rest => if text.contains '\n' then none else some (text, rest)
  | [] => none

/-- Whether so many quotes end a text that may span lines; the ones in front of the last three belong
to the text.  There may be one more right after a backslash, which only an escaped backslash puts
there. -/
def closes (quotes : Nat) (afterBackslash : Bool) : Bool :=
  quotes ≤ 5 || (quotes = 6 && afterBackslash)

/-- The characters after a text in three double quotes; `fuel` bounds the number of its characters.  A
backslash at the end of a line takes the blanks and lines after it out of the text. -/
def afterBasicLines? : (fuel : Nat) → (afterBackslash : Bool) → List Char → Option (List Char)
  | 0, _, _ => none
  | fuel + 1, afterBackslash, cs =>
    match cs with
    | [] => none
    | '"' :: _ =>
      let quotes := (cs.takeWhile (· = '"')).length
      let rest := cs.dropWhile (· = '"')
      if quotes < 3 then afterBasicLines? fuel false rest
      else if closes quotes afterBackslash then some rest
      else none
    | '\\' :: rest =>
      let isGap (c : Char) : Bool := isSpace c || c == '\n'
      let gap := rest.takeWhile isGap
      if gap.isEmpty then
        match escape? rest with
        | some (_, after) => afterBasicLines? fuel (rest.head? == some '\\') after
        | none => none
      else if gap.contains '\n' then afterBasicLines? fuel false (rest.dropWhile isGap)
      else none
    | _ :: rest => afterBasicLines? fuel false rest

/-- The characters after a text in three single quotes; `fuel` bounds the number of its characters. -/
def afterLiteralLines? : (fuel : Nat) → List Char → Option (List Char)
  | 0, _ => none
  | fuel + 1, cs =>
    match cs with
    | [] => none
    | c :: rest =>
      if c = apostrophe then
        let quotes := (cs.takeWhile (· = apostrophe)).length
        let rest := cs.dropWhile (· = apostrophe)
        if quotes < 3 then afterLiteralLines? fuel rest
        else if closes quotes false then some rest
        else none
      else afterLiteralLines? fuel rest

def basicValue? (cs : List Char) : Option (Scalar × List Char) :=
  match cs with
  | '"' :: '"' :: rest => (afterBasicLines? (rest.length + 1) false rest).map (Scalar.text, ·)
  | cs => (basic? (cs.length + 1) cs).map fun (_, rest) => (.text, rest)

def literalValue? (cs : List Char) : Option (Scalar × List Char) :=
  if cs.take 2 = [apostrophe, apostrophe] then
    let rest := cs.drop 2
    (afterLiteralLines? (rest.length + 1) rest).map (Scalar.text, ·)
  else (literal? cs).map fun (_, rest) => (.text, rest)

end MiniJam.Toml
