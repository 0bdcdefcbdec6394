import MiniJam.Proofs.Scope.Lookup

/-!
# Scope tables without their marks

A symbol is marked when its name is used.  Nothing that is done with scope tables depends on the marks:
every operation does the same with tables from which they have been taken away.
-/

namespace MiniJam

variable {α : Type}

/-- The symbol without its mark. -/
def Symbol.unmarked (sym : Symbol α) : Symbol α := { sym with used := false }

/-- The mapping without its marks. -/
def Mapping.unmarked (m : Mapping α) : Mapping α := m.map Symbol.unmarked

/-- The table without its marks. -/
def ScopeTable.unmarked (t : ScopeTable α) : ScopeTable α :=
  { t with inner := t.inner.map Mapping.unmarked, outer := Mapping.unmarked t.outer }

/-- The tables without their marks. -/
def Scopes.unmarked (S : Scopes α) : Scopes α := ⟨S.tables.map ScopeTable.unmarked⟩

/-! ### Lookups -/

theorem Mapping.find?_unmarked (m : Mapping α) (p : Symbol α → Bool)
    (hp : ∀ sym, p sym.unmarked = p sym) :
    List.find? p m.unmarked = (List.find? p m).map Symbol.unmarked := by
  rw [Mapping.unmarked, List.find?_map]
  exact congrArg _ (congrArg (List.find? · m) (funext hp))

namespace ScopeTable

theorem findSome?_unmarked (t : ScopeTable α) (hp : ∀ sym, p sym.unmarked = p sym) :
    t.unmarked.mappings.findSome? (List.find? p) =
      (t.mappings.findSome? (List.find? p)).map Symbol.unmarked := by
  have hmap : t.unmarked.mappings = t.mappings.map Mapping.unmarked := by simp [mappings, unmarked]
  rw [hmap, List.findSome?_map, List.map_findSome?]
  exact congrArg (List.findSome? · _) (funext fun m => m.find?_unmarked p hp)

theorem findLocal?_unmarked (t : ScopeTable α) (name : String) :
    t.unmarked.findLocal? name = (t.findLocal? name).map Symbol.unmarked :=
  t.findSome?_unmarked fun _ => rfl

theorem findKind?_unmarked (t : ScopeTable α) (name : String) (kind : SymbolKind) :
    t.unmarked.findKind? name kind = (t.findKind? name kind).map Symbol.unmarked :=
  t.findSome?_unmarked fun _ => rfl

/-! ### Changes -/

theorem unmarked_push (t : ScopeTable α) : t.push.unmarked = t.unmarked.push := rfl

theorem unmarked_pop (t : ScopeTable α) :
    (t.pop?.getD t).unmarked = t.unmarked.pop?.getD t.unmarked := by
  unfold pop? unmarked
  cases h : t.inner with
  | nil => simp [h]
  | cons m rest => simp

theorem unmarked_insert (t : ScopeTable α) (sym : Symbol α) :
    (t.insert sym).unmarked = t.unmarked.insert sym.unmarked := by
  unfold insert unmarked
  cases t.inner <;> simp [Mapping.unmarked]

theorem unmarked_update (t : ScopeTable α) (name : String) {f g : Symbol α → Symbol α}
    (h : ∀ sym, (f sym).unmarked = g sym.unmarked) :
    (t.update name f).unmarked = t.unmarked.update name g := by
  have hmap : ∀ m : Mapping α, (m.update name f).unmarked = m.unmarked.update name g := by
    intro m
    simp only [Mapping.unmarked, Mapping.update, List.map_map]
    refine List.map_congr_left fun sym _ => ?_
    simp only [Function.comp_apply]
    split
    · exact (h sym).trans (if_pos (by assumption)).symm
    · exact (if_neg (by assumption)).symm
  simp [update, unmarked, hmap]

theorem unmarked_mark (t : ScopeTable α) (name : String) :
    (t.update name fun sym => { sym with used := true }).unmarked = t.unmarked := by
  have hupd := t.unmarked_update name (f := fun sym => { sym with used := true }) (g := id)
    fun _ => rfl
  rw [hupd]
  simp [update, Mapping.update]

end ScopeTable

namespace Scopes

theorem table?_unmarked (S : Scopes α) (i : Nat) :
    S.unmarked.table? i = (S.table? i).map ScopeTable.unmarked := by
  simp [table?, unmarked]

theorem chain_of_parents {S S' : Scopes α}
    (h : ∀ i, (S'.table? i).map (·.parent) = (S.table? i).map (·.parent)) (i : Nat) :
    S'.chain i = S.chain i := by
  induction i using Nat.strongRecOn with
  | ind i ih =>
    have hi := h i
    rw [chain, chain]
    cases ht : S.table? i with
    | none =>
      rw [ht] at hi
      rw [Option.map_eq_none_iff.1 hi]
    | some t =>
      rw [ht] at hi
      obtain ⟨t', ht', hpar⟩ := Option.map_eq_some_iff.1 hi
      simp only [ht', hpar]
      cases t.parent with
      | none => rfl
      | some p =>
        by_cases hp : p < i
        · simp only [hp, ↓reduceDIte, ih p hp]
        · simp only [hp, ↓reduceDIte]

theorem chain_unmarked (S : Scopes α) (i : Nat) : S.unmarked.chain i = S.chain i := by
  refine chain_of_parents (fun j => ?_) i
  rw [table?_unmarked]
  cases S.table? j <;> rfl

theorem findLocal?_unmarked (S : Scopes α) (i : Nat) (name : String) :
    (S.unmarked.table? i).bind (·.findLocal? name) =
      ((S.table? i).bind (·.findLocal? name)).map Symbol.unmarked := by
  rw [table?_unmarked]
  cases S.table? i with
  | none => rfl
  | some t => exact t.findLocal?_unmarked name

theorem find?_unmarked (S : Scopes α) (i : Nat) (name : String) :
    S.unmarked.find? i name = (S.find? i name).map Symbol.unmarked := by
  rw [find?, find?, chain_unmarked, List.map_findSome?]
  exact congrArg (List.findSome? · _) (funext fun j => S.findLocal?_unmarked j name)

theorem findKind?_unmarked (S : Scopes α) (i : Nat) (name : String) (kind : SymbolKind) :
    S.unmarked.findKind? i name kind = (S.findKind? i name kind).map Symbol.unmarked := by
  rw [findKind?, findKind?, chain_unmarked, List.map_findSome?]
  refine congrArg (List.findSome? · _) (funext fun j => ?_)
  simp only [Function.comp_apply, table?_unmarked]
  cases S.table? j with
  | none => rfl
  | some t => exact t.findKind?_unmarked name kind

theorem unmarked_modify (S : Scopes α) (i : Nat) {f g : ScopeTable α → ScopeTable α}
    (h : ∀ t, (f t).unmarked = g t.unmarked) :
    (S.modify i f).unmarked = S.unmarked.modify i g := by
  simp only [unmarked, modify]
  congr 1
  refine Array.ext_getElem? fun j => ?_
  simp only [Array.getElem?_map, Array.getElem?_modify]
  split
  · cases S.tables[j]? with
    | none => rfl
    | some t => exact congrArg some (h t)
  · rfl

theorem unmarked_use (S : Scopes α) (i : Nat) (name : String) :
    (S.use i name).unmarked = S.unmarked := by
  unfold use
  split
  · rename_i j _
    rw [S.unmarked_modify j (g := id) fun t => t.unmarked_mark name, modify]
    exact congrArg _ (Array.ext_getElem? fun k => by simp [Array.getElem?_modify, unmarked])
  · rfl

theorem unmarked_push (S : Scopes α) (t : ScopeTable α) :
    unmarked ⟨S.tables.push t⟩ = ⟨S.unmarked.tables.push t.unmarked⟩ := by
  simp [unmarked]

end Scopes

end MiniJam
