import MiniJam.Text.Number

/-!
# Integer literals

An integer may have a sign and be given in base two, eight, ten or sixteen, which its first
characters tell; single underscores may stand between digits.
-/

namespace MiniJam.Text

def digitValue? (base : Nat) (c : Char) : Option Nat :=
  let n := c.toNat
  let value := if c.isDigit then n - 48
    else if 'a' ≤ c ∧ c ≤ 'f' then n - 87
    else if 'A' ≤ c ∧ c ≤ 'F' then n - 55
    else base
  if value < base then some value else none

def natInBase? (base : Nat) (cs : List Char) : Option Nat :=
  (cs.filter (· ≠ '_')).foldlM (fun n c => (digitValue? base c).map (n * base + ·)) 0

/-- Whether every underscore stands between two other characters; `before` tells whether one stands
before the first character. -/
def underscoresFit (before : Bool) : List Char → Bool
  | [] => true
  | '_' :: rest => before && rest.head?.any (· ≠ '_') && underscoresFit false rest
  | _ :: rest => underscoresFit true rest

def natLiteral? (cs : List Char) : Option Nat :=
  match cs with
  | [] => none
  | '0' :: b :: c :: rest =>
    let digits := c :: rest
    if b = 'b' ∨ b = 'B' then if underscoresFit true digits then natInBase? 2 digits else none
    else if b = 'o' ∨ b = 'O' then if underscoresFit true digits then natInBase? 8 digits else none
    else if b = 'x' ∨ b = 'X' then if underscoresFit true digits then natInBase? 16 digits else none
    else if underscoresFit true (b :: digits) then natInBase? 8 (b :: digits)
    else none
  | '0' :: rest => if underscoresFit true rest then natInBase? 8 rest else none
  | cs => if underscoresFit false cs then natInBase? 10 cs else none

def intLiteral? (s : String) : Option Int := do
  let n : Int ← match s.toList with
    | '-' :: digits => (natLiteral? digits).map fun n => -(n : Int)
    | '+' :: digits => (natLiteral? digits).map Int.ofNat
    | digits => (natLiteral? digits).map Int.ofNat
  if minInt64 ≤ n ∧ n ≤ maxInt64 then some n else none

end MiniJam.Text
