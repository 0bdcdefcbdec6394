import MiniJam.Rounded
import MiniJam.Text.Number

/-!
# Durations as text

Durations are counted in nanoseconds.  Their text has hours, minutes and seconds, or one smaller
unit if they are shorter than a second; a fraction has no zeros at its end.  A text is read as a sum
of numbers with units: the fraction of a number is taken in rounded arithmetic, and the sum in 64
bits.
-/

namespace MiniJam.Text.Duration

/-- The digits of a fraction with `places` decimal places, without the zeros at its end. -/
def fractionDigits (places n : Nat) : List Char :=
  let digits := (Nat.repr n).toList
  let padded := List.replicate (places - digits.length) '0' ++ digits
  (padded.reverse.dropWhile (· = '0')).reverse

def decimal (places n : Nat) : String :=
  let whole := Nat.repr (n / Nat.pow 10 places)
  match fractionDigits places (n % Nat.pow 10 places) with
  | [] => whole
  | digits => whole ++ "." ++ String.ofList digits

def minute : Nat := 60000000000

def limit : Nat := 9223372036854775808

def magnitude (n : Nat) : String :=
  if n = 0 then "0s"
  else if n < 1000 then decimal 0 n ++ "ns"
  else if n < 1000000 then decimal 3 n ++ "µs"
  else if n < 1000000000 then decimal 6 n ++ "ms"
  else
    let seconds := decimal 9 (n % minute) ++ "s"
    let minutes := n / minute
    if minutes = 0 then seconds
    else if minutes < 60 then Nat.repr minutes ++ "m" ++ seconds
    else Nat.repr (minutes / 60) ++ "h" ++ Nat.repr (minutes % 60) ++ "m" ++ seconds

def text (n : Int) : String :=
  if n < 0 then "-" ++ magnitude n.natAbs else magnitude n.natAbs

def unit? : String → Option Nat
  | "ns" => some 1
  | "us" | "µs" | "μs" => some 1000
  | "ms" => some 1000000
  | "s" => some 1000000000
  | "m" => some minute
  | "h" => some (60 * minute)
  | _ => none

def isNumeric (c : Char) : Bool := c = '.' || c.isDigit

/-- The fraction of a number that starts with `n / 10 ^ places` and goes on with `digits`, as its
numerator and its decimal places.  Digits that would bring the numerator above the limit are left
out, with all that follow. -/
def leadingFraction (n places : Nat) : (digits : List Char) → Nat × Nat
  | [] => (n, places)
  | c :: digits =>
    let next := n * 10 + (c.toNat - 48)
    if (limit - 1) / 10 < n ∨ limit < next then (n, places)
    else leadingFraction next (places + 1) digits

def fractionOf (unit : Nat) (digits : List Char) : Nat :=
  let (n, places) := leadingFraction 0 0 digits
  ((Rounded.ofNat n).mul ((Rounded.ofNat unit).div (.powerOfTen places))).floor

/-- The nanoseconds of a number, given by its digits before and after the point, of a unit. -/
def amount? (whole fraction : List Char) (unit : Nat) : Option Nat :=
  let value := natOfDigits whole * unit
  let amount := value + fractionOf unit fraction
  if (whole.isEmpty && fraction.isEmpty) || limit < value || limit < amount then none
  else some amount

/-- The sum of numbers with units, added to `sum` in 64 bits; `fuel` is more than the number of
units. -/
def sum? (sum : Nat) (cs : List Char) : (fuel : Nat) → Option Nat
  | 0 => none
  | fuel + 1 =>
    if limit < sum then none
    else if cs.isEmpty then some sum
    else
      let whole := cs.takeWhile Char.isDigit
      let rest := cs.dropWhile Char.isDigit
      let (fraction, rest) := match rest with
        | '.' :: rest => (rest.takeWhile Char.isDigit, rest.dropWhile Char.isDigit)
        | rest => ([], rest)
      match unit? (String.ofList (rest.takeWhile (!isNumeric ·))) with
      | none => none
      | some unit =>
        match amount? whole fraction unit with
        | none => none
        | some n => sum? ((sum + n) % (2 * limit)) (rest.dropWhile (!isNumeric ·)) fuel

/-- The duration of a text: a sign and numbers with units, or a zero. -/
def parse? (s : String) : Option Int :=
  let (negative, cs) := match s.toList with
    | '-' :: cs => (true, cs)
    | '+' :: cs => (false, cs)
    | cs => (false, cs)
  if cs = ['0'] then some 0
  else if cs.isEmpty then none
  else
    match sum? 0 cs (cs.length + 1) with
    | none => none
    | some n => if negative then some (-n) else if limit ≤ n then none else some n

end MiniJam.Text.Duration
