/-!
# Configuration texts

A text in the TOML format is a list of lines: headings of tables and pairs of a key and a value.  Of
values, integers and truth values are kept; of the other scalars it is kept that they are there.
-/

namespace MiniJam.Toml

/-- A key: one or more names with dots between them. -/
abbrev Key := List String

/-- Whether a character can stand in a name without quotes. -/
def isBareChar (c : Char) : Bool := c.isAlphanum || c == '_' || c == '-'

def escapeName (c : Char) : List Char :=
  let n := c.toNat
  if c = '"' ∨ c = '\\' then ['\\', c]
  else if n = 8 then ['\\', 'b']
  else if n = 9 then ['\\', 't']
  else if n = 10 then ['\\', 'n']
  else if n = 12 then ['\\', 'f']
  else if n = 13 then ['\\', 'r']
  else if n < 32 ∨ n = 127 then
    let digit (d : Nat) : Char := if d < 10 then Char.ofNat (48 + d) else Char.ofNat (87 + d)
    ['\\', 'u', '0', '0', digit (n / 16), digit (n % 16)]
  else [c]

def nameText (name : String) : String :=
  if name ≠ "" ∧ name.toList.all isBareChar then name
  else String.ofList ('"' :: name.toList.flatMap escapeName ++ ['"'])

def keyText (key : Key) : String := ".".intercalate (key.map nameText)

/-- A value without parts. -/
inductive Scalar where
  | text
  | integer (n : Int)
  | float
  | dateTime
  | boolean (b : Bool)
  deriving DecidableEq, Repr

mutual

/-- A value as it is written. -/
inductive Value where
  | scalar (s : Scalar)
  | array (items : List Value)
  | inline (pairs : List Pair)

/-- A key and its value. -/
inductive Pair where
  | mk (key : Key) (value : Value)

end

/-- A line of a configuration text. -/
inductive Line where
  | table (key : Key)
  | tableOfList (key : Key)
  | pair (p : Pair)

end MiniJam.Toml
