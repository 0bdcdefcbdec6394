/-!
# Rounded numbers

Numbers of 53 significant bits, as in 64 bit floating-point arithmetic.  Every operation gives the
number nearest to its exact result, and of two that are equally near the even one.  The exponent
has no bounds, so nothing is ever too large or too small.
-/

namespace MiniJam

/-- The number `mantissa * 2 ^ exponent`. -/
structure Rounded where
  mantissa : Nat
  exponent : Int
  deriving DecidableEq, Repr

namespace Rounded

def precision : Nat := 53

/-- The whole number nearest to `n / d`; a half goes to the even neighbour. -/
def nearest (n d : Nat) : Nat :=
  if d < 2 * (n % d) ∨ (d = 2 * (n % d) ∧ n / d % 2 = 1) then n / d + 1 else n / d

theorem nearest_le (n d : Nat) : 2 * (nearest n d * d) ≤ 2 * n + d := by
  have div := Nat.div_add_mod n d
  have comm := Nat.mul_comm d (n / d)
  unfold nearest
  split
  · rw [Nat.add_mul (n / d) 1 d]
    omega
  · omega

theorem le_nearest (n d : Nat) (h : 0 < d) : 2 * n ≤ 2 * (nearest n d * d) + d := by
  have div := Nat.div_add_mod n d
  have comm := Nat.mul_comm d (n / d)
  have below := Nat.mod_lt n h
  unfold nearest
  split
  · rw [Nat.add_mul (n / d) 1 d]
    omega
  · omega

/-- The number nearest to `n / d * 2 ^ (-exponent)`, for an exponent that leaves it some 53 bits. -/
def atExponent (n d : Nat) (exponent : Int) : Nat :=
  if exponent < 0 then nearest (n <<< (-exponent).toNat) d
  else nearest n (d <<< exponent.toNat)

def ofQuotient (n d : Nat) : Rounded :=
  if n = 0 then ⟨0, 0⟩
  else
    let exponent : Int := (n.log2 : Int) - d.log2 - precision
    let isLong : Bool :=
      if exponent < 0 then decide (d <<< precision ≤ n <<< (-exponent).toNat)
      else decide (d <<< (precision + exponent.toNat) ≤ n)
    let exponent := if isLong then exponent + 1 else exponent
    ⟨atExponent n d exponent, exponent⟩

def ofNat (n : Nat) : Rounded := ofQuotient n 1

def scale (x : Rounded) (exponent : Int) : Rounded := { x with exponent := x.exponent + exponent }

def mul (x y : Rounded) : Rounded :=
  (ofNat (x.mantissa * y.mantissa)).scale (x.exponent + y.exponent)

def div (x y : Rounded) : Rounded :=
  (ofQuotient x.mantissa y.mantissa).scale (x.exponent - y.exponent)

def floor (x : Rounded) : Nat :=
  if x.exponent < 0 then x.mantissa >>> (-x.exponent).toNat else x.mantissa <<< x.exponent.toNat

/-- The power of ten with an exponent, as it comes out of multiplying by ten again and again. -/
def powerOfTen : Nat → Rounded
  | 0 => ofNat 1
  | k + 1 => (powerOfTen k).mul (ofNat 10)

end Rounded

end MiniJam
