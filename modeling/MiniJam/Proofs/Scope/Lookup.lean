import MiniJam.Scope

/-!
# Lookups in scope tables

What a lookup finds is in the mapping, and a change of one table leaves the others as they are.
-/

namespace MiniJam

namespace Mapping

variable {α : Type} {m : Mapping α} {name : String} {sym : Symbol α}

theorem find?_some (h : m.find? name = some sym) : sym ∈ m ∧ sym.name = name :=
  ⟨List.mem_of_find?_eq_some h, by simpa using List.find?_some h⟩

end Mapping

namespace Scopes

variable {α : Type}

theorem table?_modify (s : Scopes α) (id i : Nat) (f : ScopeTable α → ScopeTable α) :
    (s.modify id f).table? i = if id = i then (s.table? i).map f else s.table? i := by
  simp [modify, table?, Array.getElem?_modify]

end Scopes

end MiniJam
