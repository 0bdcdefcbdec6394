/-!
# Caches

A cache keeps the values of the keys that were used last.
-/

namespace MiniJam

/-- A cache. -/
structure Cache (K V : Type) where
  capacity : Nat
  /-- The keys with their values; the key that was used last comes first. -/
  entries : List (K × V)
  deriving Repr

namespace Cache

variable {K V : Type} [DecidableEq K]

def empty (capacity : Nat) : Cache K V := ⟨capacity, []⟩

def get? (c : Cache K V) (k : K) : Option V := c.entries.lookup k

/-- Uses a key with a value.  If there are too many keys, the one that was not used for the longest
time is dropped. -/
def use (c : Cache K V) (k : K) (v : V) : Cache K V :=
  { c with entries := ((k, v) :: c.entries.filter fun e => e.1 ≠ k).take c.capacity }

end Cache

end MiniJam
