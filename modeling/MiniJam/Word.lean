/-!
# Machine integers

The machine computes addresses with 64 bit integers that wrap around, and stores 32 bit words.
Addresses are kept as integers here and brought back into range by `wrap64`; words of the data
store are `Int32`, so that storing an integer keeps its low 32 bits.
-/

namespace MiniJam

/-- The least 64 bit integer, `-2^63`. -/
def minInt64 : Int := -9223372036854775808

/-- The greatest 64 bit integer, `2^63 - 1`. -/
def maxInt64 : Int := 9223372036854775807

def minWord : Int := -2147483648

def maxWord : Int := 2147483647

def wordCount : Nat := 4294967296

/-- The 64 bit integer that agrees with `x` modulo `2^64`. -/
def wrap64 (x : Int) : Int :=
  if minInt64 ≤ x ∧ x ≤ maxInt64 then x else x.bmod 18446744073709551616

theorem wrap64_of_mem {x : Int} (h : minInt64 ≤ x ∧ x ≤ maxInt64) : wrap64 x = x :=
  if_pos h

theorem wrap64_mem (x : Int) : minInt64 ≤ wrap64 x ∧ wrap64 x ≤ maxInt64 := by
  have lower := @Int.le_bmod x 18446744073709551616 (by decide)
  have upper := @Int.bmod_lt x 18446744073709551616 (by decide)
  unfold wrap64
  split
  · assumption
  · simp only [minInt64, maxInt64]
    omega

end MiniJam
