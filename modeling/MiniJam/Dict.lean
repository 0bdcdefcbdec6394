/-!
# Finite maps

A finite map is kept as the list of its entries, in the order in which their keys first came.
-/

namespace MiniJam

/-- A finite map. -/
structure Dict (K V : Type) where
  entries : List (K × V)
  deriving DecidableEq, Repr

namespace Dict

variable {K V : Type} [DecidableEq K]

/-- The map without entries. -/
def empty : Dict K V := ⟨[]⟩

def get? (d : Dict K V) (k : K) : Option V := d.entries.lookup k

def insertEntry (k : K) (v : V) : List (K × V) → List (K × V)
  | [] => [(k, v)]
  | e :: es => if k = e.1 then (k, v) :: es else e :: insertEntry k v es

def insert (d : Dict K V) (k : K) (v : V) : Dict K V := ⟨insertEntry k v d.entries⟩

/-- The map without one key. -/
def erase (d : Dict K V) (k : K) : Dict K V := ⟨d.entries.filter fun e => k ≠ e.1⟩

@[simp] theorem get?_empty (k : K) : (empty : Dict K V).get? k = none := rfl

theorem get?_mk_cons (e : K × V) (es : List (K × V)) (k : K) :
    (⟨e :: es⟩ : Dict K V).get? k = if k = e.1 then some e.2 else (⟨es⟩ : Dict K V).get? k := by
  obtain ⟨a, v⟩ := e
  by_cases h : k = a
  · simp [get?, h]
  · simp [get?, List.lookup_cons, h, beq_eq_false_iff_ne.mpr h]

theorem get?_insert (d : Dict K V) (k k' : K) (v : V) :
    (d.insert k v).get? k' = if k' = k then some v else d.get? k' := by
  obtain ⟨es⟩ := d
  simp only [insert]
  induction es with
  | nil => exact get?_mk_cons (k, v) [] k'
  | cons e es ih =>
    by_cases hk : k = e.1 <;> by_cases h : k' = k <;>
      simp_all [insertEntry, get?_mk_cons]

theorem get?_erase (d : Dict K V) (k k' : K) :
    (d.erase k).get? k' = if k' = k then none else d.get? k' := by
  obtain ⟨es⟩ := d
  simp only [erase]
  induction es with
  | nil => simp [get?]
  | cons e es ih =>
    by_cases hk : k = e.1 <;> by_cases h : k' = k <;>
      simp_all [get?_mk_cons]

end Dict

end MiniJam
