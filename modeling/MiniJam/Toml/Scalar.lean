import MiniJam.Text.Number
import MiniJam.Toml.Basic

/-!
# Numbers, dates and times

How the scalars of a configuration text that start with a digit or a sign are written.
-/

namespace MiniJam.Toml

def isHexDigit (c : Char) : Bool :=
  c.isDigit || ('a' ≤ c && c ≤ 'f') || ('A' ≤ c && c ≤ 'F')

def hexValue (c : Char) : Nat :=
  if c.isDigit then c.toNat - 48 else if 'a' ≤ c then c.toNat - 87 else c.toNat - 55

def natInBase (base : Nat) (digits : List Char) : Nat :=
  digits.foldl (fun n c => n * base + hexValue c) 0

/-- Whether every underscore of a number follows a digit, and a digit ends it; `after` tells whether
a digit stands in front. -/
def underscoresFit (after : Bool) : List Char → Bool
  | [] => after
  | c :: cs => (c != '_' || after) && underscoresFit (isHexDigit c) cs

/-- Whether a number starts with a zero that is not its only digit. -/
def hasLeadingZero : List Char → Bool
  | '0' :: c :: _ => !(c == 'b' || c == 'o' || c == 'x')
  | '-' :: '0' :: _ :: _ | '+' :: '0' :: _ :: _ => true
  | _ => false

/-- The integer without its sign and underscores. -/
def magnitude : List Char → Nat
  | '0' :: 'x' :: digits => natInBase 16 digits
  | '0' :: 'o' :: digits => natInBase 8 digits
  | '0' :: 'b' :: digits => natInBase 2 digits
  | digits => natInBase 10 digits

def integer? (token : List Char) : Option Scalar :=
  if !underscoresFit false token || hasLeadingZero token then none
  else
    let digits := token.filter (· ≠ '_')
    let n : Int := match digits with
      | '-' :: rest => -(magnitude rest : Int)
      | '+' :: rest => magnitude rest
      | rest => magnitude rest
    if minInt64 ≤ n ∧ n ≤ maxInt64 then some (.integer n) else none

/-- Splits characters at the first that satisfies `p`, which is left out. -/
def splitAt? (p : Char → Bool) (cs : List Char) : List Char × Option (List Char) :=
  match cs.dropWhile (!p ·) with
  | [] => (cs, none)
  | _ :: rest => (cs.takeWhile (!p ·), some rest)

/-- A number without its sign. -/
def dropSign : List Char → List Char
  | '+' :: rest | '-' :: rest => rest
  | cs => cs

def areDigits (cs : List Char) : Bool := !cs.isEmpty && cs.all Char.isDigit

/-- Whether the number `digits * 10 ^ exponent` lies below the first number that no longer rounds to a
64-bit floating-point number. -/
def fitsFloat (digits : List Char) (exponent : Int) : Bool :=
  let significant := digits.dropWhile (· = '0')
  let magnitude := (significant.length : Int) + exponent
  if significant.isEmpty || magnitude < 309 then true
  else if 309 < magnitude then false
  else
    let n := Text.natOfDigits significant
    let limit := Nat.pow 2 1024 - Nat.pow 2 970
    if 0 ≤ exponent then n * Nat.pow 10 exponent.toNat < limit
    else n < limit * Nat.pow 10 (-exponent).toNat

/-- The floating-point number of a token: a whole part, and a fraction or an exponent. -/
def float? (token : List Char) : Option Scalar :=
  let isMark (c : Char) : Bool := c == 'e' || c == 'E'
  let (mantissa, exponent) := splitAt? isMark token
  let (whole, fraction) := splitAt? (· == '.') mantissa
  let parts := [some whole, fraction, exponent].filterMap id
  let clean (cs : List Char) : List Char := cs.filter (· ≠ '_')
  let ok := parts.all (underscoresFit false) && !hasLeadingZero whole
    && areDigits (clean (dropSign whole))
    && (fraction.map fun f => areDigits (clean f)).getD true
    && (exponent.map fun e => areDigits (clean (dropSign e))).getD true
  if !ok then none
  else
    let fraction := clean (fraction.getD [])
    let exponentOf (e : List Char) : Int :=
      let n : Int := Text.natOfDigits (clean (dropSign e))
      if e.head? = some '-' then -n else n
    let power := (exponent.map exponentOf).getD 0
    if fitsFloat (clean (dropSign whole) ++ fraction) (power - fraction.length) then some .float
    else none

def daysIn (year month : Nat) : Nat :=
  if month = 2 then
    if year % 4 = 0 ∧ (year % 100 ≠ 0 ∨ year % 400 = 0) then 29 else 28
  else if month = 4 ∨ month = 6 ∨ month = 9 ∨ month = 11 then 30
  else 31

/-- The number of digits at the front of characters, and the characters after them. -/
def digits? (n : Nat) (cs : List Char) : Option (Nat × List Char) :=
  let front := cs.take n
  if front.length = n ∧ front.all Char.isDigit then some (Text.natOfDigits front, cs.drop n)
  else none

def after? (c : Char) (cs : List Char) : Option (List Char) :=
  match cs with
  | d :: rest => if d = c then some rest else none
  | [] => none

def date? (cs : List Char) : Option (List Char) := do
  let (year, cs) ← digits? 4 cs
  let (month, cs) ← digits? 2 (← after? '-' cs)
  let (day, cs) ← digits? 2 (← after? '-' cs)
  if 1 ≤ month ∧ month ≤ 12 ∧ 1 ≤ day ∧ day ≤ daysIn year month then some cs else none

/-- Reads the fraction of a second, if there is one. -/
def fraction (cs : List Char) : List Char :=
  match cs with
  | '.' :: c :: rest => if c.isDigit then rest.dropWhile Char.isDigit else cs
  | _ => cs

/-- Reads a time `15:04:05`, with or without seconds and their fraction. -/
def time? (cs : List Char) : Option (List Char) := do
  let (hour, cs) ← digits? 2 cs
  let (minute, cs) ← digits? 2 (← after? ':' cs)
  if 24 ≤ hour ∨ 60 ≤ minute then none
  match cs with
  | ':' :: cs =>
    let (second, cs) ← digits? 2 cs
    if 60 ≤ second then none else some (fraction cs)
  | cs => some cs

def isOffset (cs : List Char) : Bool :=
  match cs with
  | [] => true
  | ['Z'] => true
  | c :: rest =>
    (c == '+' || c == '-') && ((do
      let (hour, rest) ← digits? 2 rest
      let (minute, rest) ← digits? 2 (← after? ':' rest)
      some (rest.isEmpty && hour ≤ 24 && minute ≤ 60)) : Option Bool) == some true

/-- The date, time or both of a token; a blank or a small letter may stand for the `T` between them,
and a small letter for the `Z`. -/
def dateTime? (token : List Char) : Option Scalar :=
  let cs := token.map fun c =>
    if c = 't' ∨ c = ' ' then 'T' else if c = 'z' then 'Z' else c
  let ok := match date? cs with
    | some [] => true
    | some ('T' :: rest) =>
      match time? rest with
      | some offset => isOffset offset
      | none => false
    | some _ => false
    | none => time? cs == some []
  if ok then some .dateTime else none

def isFloatChar (c : Char) : Bool :=
  c.isDigit || c == '_' || c == '.' || c == '-' || c == '+' || c == 'e' || c == 'E'

def isDateChar (c : Char) : Bool :=
  c.isDigit || c == '-' || c == ':' || c == 'T' || c == 't' || c == ' ' || c == '.'
    || c == 'Z' || c == 'z' || c == '+'

def startsFloat (c : Char) : Bool := c == '.' || c == 'e' || c == 'E'

def scalarOf (read : List Char → Option Scalar) (token rest : List Char) :
    Option (Scalar × List Char) :=
  (read token).map fun s => (s, rest)

def decimal? (sign cs : List Char) : Option (Scalar × List Char) :=
  let isPart (c : Char) : Bool := c.isDigit || c == '_'
  let rest := cs.dropWhile isPart
  if (rest.head?.map startsFloat).getD false then
    scalarOf float? (sign ++ cs.takeWhile isPart ++ rest.takeWhile isFloatChar)
      (rest.dropWhile isFloatChar)
  else scalarOf integer? (sign ++ cs.takeWhile isPart) rest

def based? (letter : Char) (isDigit : Char → Bool) (cs : List Char) : Option (Scalar × List Char) :=
  let isPart (c : Char) : Bool := isDigit c || c == '_'
  if (cs.head?.map isDigit).getD false then
    scalarOf integer? ('0' :: letter :: cs.takeWhile isPart) (cs.dropWhile isPart)
  else none

def number? (cs : List Char) : Option (Scalar × List Char) :=
  match cs with
  | '0' :: 'x' :: rest => based? 'x' isHexDigit rest
  | '0' :: 'o' :: rest => based? 'o' (fun c => '0' ≤ c && c ≤ '7') rest
  | '0' :: 'b' :: rest => based? 'b' (fun c => c == '0' || c == '1') rest
  | cs =>
    match (cs.dropWhile Char.isDigit).head? with
    | some '-' | some ':' =>
      let token := ((cs.takeWhile isDateChar).reverse.dropWhile (· = ' ')).reverse
      scalarOf dateTime? token (cs.dropWhile isDateChar)
    | _ => decimal? [] cs

def signed? (sign : Char) (cs : List Char) : Option (Scalar × List Char) :=
  match cs with
  | 'i' :: 'n' :: 'f' :: rest => some (.float, rest)
  | 'n' :: 'a' :: 'n' :: rest => some (.float, rest)
  | '0' :: 'x' :: _ | '0' :: 'o' :: _ | '0' :: 'b' :: _ => none
  | c :: _ => if c.isDigit then decimal? [sign] cs else none
  | [] => none

end MiniJam.Toml
