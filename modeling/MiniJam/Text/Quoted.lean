import MiniJam.Text.Printable

/-!
# Quoted text

A text is shown between quotes with its quotes, backslashes and unprintable characters escaped.
-/

namespace MiniJam.Text

/-- The last `digits` digits of `n` in base sixteen, before the digits `rest`. -/
def hexDigits : (digits : Nat) → (n : Nat) → (rest : List Char) → List Char
  | 0, _, rest => rest
  | digits + 1, n, rest =>
    let d := n % 16
    let c := if d < 10 then Char.ofNat (48 + d) else Char.ofNat (87 + d)
    hexDigits digits (n / 16) (c :: rest)

def escapeChar (quote c : Char) : List Char :=
  if c = quote ∨ c = '\\' then ['\\', c]
  else if isPrintable c then [c]
  else
    let n := c.toNat
    if n = 7 then ['\\', 'a']
    else if n = 8 then ['\\', 'b']
    else if n = 12 then ['\\', 'f']
    else if n = 10 then ['\\', 'n']
    else if n = 13 then ['\\', 'r']
    else if n = 9 then ['\\', 't']
    else if n = 11 then ['\\', 'v']
    else if n < 32 ∨ n = 127 then '\\' :: 'x' :: hexDigits 2 n []
    else if n < 0x10000 then '\\' :: 'u' :: hexDigits 4 n []
    else '\\' :: 'U' :: hexDigits 8 n []

def quote (s : String) : String :=
  String.ofList ('"' :: s.toList.flatMap (escapeChar '"') ++ ['"'])

def apostrophe : Char := Char.ofNat 39

def quoteChar (c : Char) : String :=
  String.ofList (apostrophe :: escapeChar apostrophe c ++ [apostrophe])

end MiniJam.Text
