import Mathlib.Data.List.Nodup
import Mathlib.Logic.Function.Basic
import MiniJam.Proofs.Scope.Lookup

/-!
# Scope tables as flat maps

A scope table is a stack of mappings, and a lookup in it searches them one after another.  Because a
name is bound only if no mapping of the table holds it, a table is the same as one map from names to
symbols, each with the number of the mapping that it is in (`ScopeTable.flat`).

`ScopeOp.run` makes any operations one after another, on scope tables (`Scopes.apply`) or on flat
tables (`FlatTable.apply`).  Both give the same answers (`Scopes.refines_flat`), and after any
operations the scope tables are `Scopes.Lawful`: no name is held twice, a block leaves nothing behind,
and the four kinds of lookups agree with one another.
-/

namespace MiniJam

open List Option

variable {α : Type}

/-! ### Operations -/

/-- An operation that changes scope tables. -/
inductive ScopeOp (α : Type) where
  /-- Makes a table inside another one; a parent that is not there counts as none. -/
  | new (name : String) (parent : Option Nat)
  | push (id : Nat)
  | pop (id : Nat)
  | bind (id : Nat) (sym : Symbol α)

/-- The answer to an operation. -/
inductive ScopeAnswer (α : Type) where
  | made (id : Nat)
  | depth (n : Nat)
  /-- The symbol that had the name before, if there was one. -/
  | bound (other : Option (Symbol α))
  /-- There is no such table, or its outermost mapping would be closed. -/
  | refused

/-- Makes operations one after another, and gives their answers and the state after them. -/
def ScopeOp.run {σ : Type} (step : σ → ScopeOp α → ScopeAnswer α × σ) (s : σ) :
    List (ScopeOp α) → List (ScopeAnswer α) × σ
  | [] => ([], s)
  | op :: ops =>
    let (a, s) := step s op
    let (as, s) := run step s ops
    (a :: as, s)

def Scopes.apply (S : Scopes α) : ScopeOp α → ScopeAnswer α × Scopes α
  | .new name parent =>
    let (id, S') := S.new name (parent.filter (· < S.tables.size))
    (.made id, S')
  | .push id =>
    match S.table? id with
    | none => (.refused, S)
    | some t => (.depth t.push.depth, S.modify id (·.push))
  | .pop id =>
    match (S.table? id).bind (·.pop?) with
    | none => (.refused, S)
    | some t => (.depth t.depth, S.modify id fun _ => t)
  | .bind id sym =>
    match S.table? id with
    | none => (.refused, S)
    | some _ =>
      let (other, S') := S.bind id sym
      (.bound other, S')

def Scopes.after (S : Scopes α) (ops : List (ScopeOp α)) : Scopes α :=
  (ScopeOp.run apply S ops).2

/-! ### Flat tables -/

/-- A table as one map. -/
structure FlatTable (α : Type) where
  /-- The table in which lookups go on. -/
  parent : Option Nat
  depth : Nat
  /-- The symbol of a name, with the number of its mapping; the outermost one is the first. -/
  held : String → Option (Nat × Symbol α)

namespace FlatTable

def push (f : FlatTable α) : FlatTable α := { f with depth := f.depth + 1 }

/-- Closes the innermost mapping: its symbols are gone. -/
def pop (f : FlatTable α) : FlatTable α where
  parent := f.parent
  depth := f.depth - 1
  held name := (f.held name).filter (·.1 < f.depth)

def bind (f : FlatTable α) (sym : Symbol α) : FlatTable α :=
  { f with held := Function.update f.held sym.name (some (f.depth, sym)) }

def apply (F : Array (FlatTable α)) : ScopeOp α → ScopeAnswer α × Array (FlatTable α)
  | .new _ parent => (.made F.size, F.push ⟨parent.filter (· < F.size), 1, fun _ => none⟩)
  | .push id =>
    match F[id]? with
    | none => (.refused, F)
    | some f => (.depth f.push.depth, F.modify id push)
  | .pop id =>
    match F[id]? with
    | none => (.refused, F)
    | some f => if f.depth = 1 then (.refused, F) else (.depth f.pop.depth, F.modify id pop)
  | .bind id sym =>
    match F[id]? with
    | none => (.refused, F)
    | some f =>
      match f.held sym.name with
      | some (_, other) => (.bound (some other), F)
      | none => (.bound none, F.modify id (·.bind sym))

end FlatTable

namespace ScopeTable

/-- The symbol of a name in mappings, with the number of its mapping; the last one is the first. -/
def heldIn : List (Mapping α) → String → Option (Nat × Symbol α)
  | [], _ => none
  | m :: ms, name =>
    match m.find? name with
    | some sym => some (ms.length + 1, sym)
    | none => heldIn ms name

def flat (t : ScopeTable α) : FlatTable α := ⟨t.parent, t.depth, heldIn t.mappings⟩

/-- No two symbols of the table have the same name. -/
def Distinct (t : ScopeTable α) : Prop := (t.mappings.flatten.map (·.name)).Nodup

end ScopeTable

def Scopes.flat (S : Scopes α) : Array (FlatTable α) := S.tables.map (·.flat)

/-! ### One table -/

namespace ScopeTable

variable {t : ScopeTable α} {name : String} {sym : Symbol α}

@[simp] theorem length_mappings (t : ScopeTable α) : t.mappings.length = t.depth := by
  simp [mappings, depth]

theorem mappings_insert (t : ScopeTable α) (sym : Symbol α) :
    ∃ m ms, t.mappings = m :: ms ∧ (t.insert sym).mappings = (m ++ [sym]) :: ms := by
  unfold insert mappings
  cases t.inner with
  | nil => exact ⟨t.outer, [], rfl, rfl⟩
  | cons m rest => exact ⟨m, rest ++ [t.outer], rfl, rfl⟩

@[simp] theorem parent_insert (t : ScopeTable α) (sym : Symbol α) :
    (t.insert sym).parent = t.parent := by
  unfold insert
  cases t.inner <;> rfl

@[simp] theorem name_insert (t : ScopeTable α) (sym : Symbol α) : (t.insert sym).name = t.name := by
  unfold insert
  cases t.inner <;> rfl

variable {t' : ScopeTable α} {m : Mapping α} {ms : List (Mapping α)}

theorem pop?_eq_some (h : t.pop? = some t') :
    t'.parent = t.parent ∧ ∃ m, t.mappings = m :: t'.mappings := by
  unfold pop? at h
  cases hinn : t.inner with
  | nil => simp [hinn] at h
  | cons m rest =>
    simp only [hinn, some.injEq] at h
    subst h
    exact ⟨rfl, m, by simp [mappings, hinn]⟩

theorem pop?_eq_none (h : t.pop? = none) : t.depth = 1 := by
  unfold pop? at h
  cases hinn : t.inner with
  | nil => simp [depth, hinn]
  | cons m rest => simp [hinn] at h

theorem find?_eq_none_iff : m.find? name = none ↔ ∀ s ∈ m, s.name ≠ name := by
  simp [Mapping.find?, List.find?_eq_none]

theorem findLocal?_eq_none_iff :
    t.findLocal? name = none ↔ ∀ m ∈ t.mappings, ∀ s ∈ m, s.name ≠ name := by
  simp [findLocal?, find?_eq_none_iff]

theorem findSome?_of_mem (h : (ms.flatten.map (·.name)).Nodup) (hm : m ∈ ms) (hsym : sym ∈ m) (P : Symbol α → Bool)
    (hP : P sym = true) (hname : ∀ s, P s = true → s.name = sym.name) :
    ms.findSome? (List.find? P) = some sym := by
  have hinj : ∀ s ∈ ms.flatten, s.name = sym.name → s = sym := fun s hs heq =>
    inj_on_of_nodup_map h hs (mem_flatten.2 ⟨m, hm, hsym⟩) heq
  cases hf : ms.findSome? (List.find? P) with
  | none =>
    have := find?_eq_none.1 (findSome?_eq_none_iff.1 hf m hm) sym hsym
    exact absurd hP this
  | some s =>
    obtain ⟨m', hm', hs⟩ := exists_of_findSome?_eq_some hf
    have hmem := mem_flatten.2 ⟨m', hm', mem_of_find?_eq_some hs⟩
    rw [hinj s hmem (hname s (find?_some hs))]

theorem Distinct.findLocal? (h : t.Distinct) (hm : m ∈ t.mappings) (hsym : sym ∈ m) :
    t.findLocal? sym.name = some sym :=
  findSome?_of_mem h hm hsym _ (by simp) (by simp)

theorem Distinct.findKind? (h : t.Distinct) (name : String) (kind : SymbolKind) :
    t.findKind? name kind = (t.findLocal? name).filter (·.kind = kind) := by
  cases hloc : t.findLocal? name with
  | none =>
    have hnone := findLocal?_eq_none_iff.1 hloc
    refine findSome?_eq_none_iff.2 fun m hm => find?_eq_none.2 fun s hs => ?_
    simp [hnone m hm s hs]
  | some sym =>
    obtain ⟨m, hm, hfind⟩ := exists_of_findSome?_eq_some hloc
    obtain ⟨hsym, rfl⟩ := Mapping.find?_some hfind
    by_cases hk : sym.kind = kind
    · rw [filter_some_pos (by simpa using hk)]
      exact findSome?_of_mem h hm hsym _ (by simp [hk]) (by simp +contextual)
    · rw [filter_some_neg (by simpa using hk)]
      -- A symbol of the name and of another kind would be a second one of the name.
      refine findSome?_eq_none_iff.2 fun m' hm' => find?_eq_none.2 fun s hs => ?_
      simp only [Bool.and_eq_true, beq_iff_eq, not_and]
      intro hname hs'
      have := h.findLocal? hm' hs
      rw [hname, hloc, some.injEq] at this
      exact hk (this ▸ hs')

theorem map_heldIn (ms : List (Mapping α)) (name : String) :
    (heldIn ms name).map (·.2) = ms.findSome? (·.find? name) := by
  induction ms with
  | nil => rfl
  | cons m ms ih =>
    rw [heldIn, findSome?_cons]
    cases m.find? name with
    | none => exact ih
    | some sym => rfl

theorem map_held (t : ScopeTable α) (name : String) :
    (t.flat.held name).map (·.2) = t.findLocal? name := map_heldIn t.mappings name

theorem heldIn_le {n : Nat} (h : heldIn ms name = some (n, sym)) : n ≤ ms.length := by
  induction ms with
  | nil => cases h
  | cons m ms ih =>
    rw [heldIn] at h
    split at h
    · cases h
      exact Nat.le_refl _
    · exact Nat.le_succ_of_le (ih h)

theorem heldIn_eq_none (h : ∀ m ∈ ms, ∀ s ∈ m, s.name ≠ name) : heldIn ms name = none := by
  rw [← map_eq_none_iff, map_heldIn]
  exact findSome?_eq_none_iff.2 fun m hm => find?_eq_none_iff.2 (h m hm)

/-! ### Flat tables follow tables -/

/-- What is not in the innermost mapping is still there when that is closed.  A name that is in it is
gone, as no other mapping holds it. -/
theorem flat_pop (h : t.Distinct) (hpop : t.pop? = some t') : t'.flat = t.flat.pop := by
  obtain ⟨hpar, m, hms⟩ := pop?_eq_some hpop
  have hdep : t.depth = t'.depth + 1 := by
    rw [← length_mappings, hms, length_cons, length_mappings]
  unfold flat FlatTable.pop
  rw [hms, hdep, hpar]
  congr 1
  funext name
  simp only [heldIn]
  cases hfind : m.find? name with
  | none =>
    cases hheld : heldIn t'.mappings name with
    | none => rfl
    | some x =>
      have hle := heldIn_le hheld
      rw [filter_some_pos (by simpa using Nat.lt_succ_of_le hle)]
  | some sym =>
    obtain ⟨hsym, hname⟩ := Mapping.find?_some hfind
    rw [filter_some_neg (by simp)]
    refine heldIn_eq_none fun m' hm' s hs heq => ?_
    rw [Distinct, hms, flatten_cons, map_append, nodup_append'] at h
    exact h.2.2 (mem_map.2 ⟨sym, hsym, hname.trans heq.symm⟩)
      (mem_map.2 ⟨s, mem_flatten.2 ⟨m', hm', hs⟩, rfl⟩)

theorem flat_insert (h : t.findLocal? sym.name = none) : (t.insert sym).flat = t.flat.bind sym := by
  obtain ⟨m, ms, hms, hins⟩ := mappings_insert t sym
  have hdep : t.depth = ms.length + 1 := by rw [← length_mappings, hms, length_cons]
  have hdep' : (t.insert sym).depth = ms.length + 1 := by
    rw [← length_mappings, hins, length_cons]
  rw [findLocal?_eq_none_iff, hms] at h
  have hm : m.find? sym.name = none := find?_eq_none_iff.2 (h m mem_cons_self)
  unfold flat FlatTable.bind
  rw [hins, hms, hdep, hdep', parent_insert]
  congr 1
  funext name
  simp only [heldIn, Function.update_apply, Mapping.find?, find?_append]
  by_cases hn : name = sym.name
  · subst hn
    rw [if_pos rfl, ← Mapping.find?, hm]
    simp
  · have hne : (sym.name == name) = false := beq_false_of_ne (Ne.symm hn)
    simp [hne, hn]

/-! ### Names stay distinct -/

theorem Distinct.push (h : t.Distinct) : t.push.Distinct := h

theorem Distinct.pop (h : t.Distinct) (hpop : t.pop? = some t') : t'.Distinct := by
  obtain ⟨-, m, hms⟩ := pop?_eq_some hpop
  rw [Distinct, hms, flatten_cons, map_append, nodup_append'] at h
  exact h.2.1

theorem Distinct.insert (h : t.Distinct) (hn : t.findLocal? sym.name = none) :
    (t.insert sym).Distinct := by
  obtain ⟨m, ms, hms, hins⟩ := mappings_insert t sym
  rw [findLocal?_eq_none_iff, hms] at hn
  have hnew : sym.name ∉ (m :: ms).flatten.map (·.name) := by
    intro hmem
    obtain ⟨s, hs, hname⟩ := mem_map.1 hmem
    obtain ⟨m', hm', hs⟩ := mem_flatten.1 hs
    exact hn m' hm' s hs hname
  have hperm : ((m ++ [sym]) :: ms).flatten.Perm (sym :: (m :: ms).flatten) := by
    rw [flatten_cons, append_assoc, singleton_append, flatten_cons]
    exact perm_middle
  rw [Distinct, hms] at h
  rw [Distinct, hins, (hperm.map _).nodup_iff, map_cons, nodup_cons]
  exact ⟨hnew, h⟩

end ScopeTable

/-! ### Tables that are linked -/

namespace Scopes

open ScopeTable

variable {S S' : Scopes α}

/-- What every operation keeps: names are distinct, and a table comes after its parent. -/
structure Consistent (S : Scopes α) : Prop where
  distinct : ∀ i t, S.table? i = some t → t.Distinct
  parent : ∀ i t p, S.table? i = some t → t.parent = some p → p < i

theorem consistent_empty : (empty : Scopes α).Consistent where
  distinct i t h := by simp [empty, table?] at h
  parent i t p h := by simp [empty, table?] at h

theorem table?_new (S : Scopes α) (name : String) (parent : Option Nat) (i : Nat) :
    (S.new name parent).2.table? i =
      if i = S.tables.size then some ⟨name, parent, [], []⟩ else S.table? i := by
  simp only [new, table?, Array.getElem?_push]

variable {id : Nat} {t : ScopeTable α}

theorem Consistent.modify (h : S.Consistent) {f : ScopeTable α → ScopeTable α}
    (hf : ∀ t, S.table? id = some t → t.Distinct → (f t).Distinct ∧ (f t).parent = t.parent) :
    (S.modify id f).Consistent := by
  have key : ∀ i t, (S.modify id f).table? i = some t →
      ∃ t', S.table? i = some t' ∧ t.Distinct ∧ t.parent = t'.parent := by
    intro i t ht
    rw [table?_modify] at ht
    split at ht
    · rename_i hi
      subst hi
      obtain ⟨t', ht', rfl⟩ := map_eq_some_iff.1 ht
      exact ⟨t', ht', hf t' ht' (h.distinct _ t' ht')⟩
    · exact ⟨t, ht, h.distinct i t ht, rfl⟩
  refine ⟨fun i t ht => ?_, fun i t p ht hp => ?_⟩
  · obtain ⟨-, -, hdist, -⟩ := key i t ht
    exact hdist
  · obtain ⟨t', ht', -, hpar⟩ := key i t ht
    exact h.parent i t' p ht' (hpar ▸ hp)

theorem bind_of_none {sym : Symbol α} (ht : S.table? id = some t)
    (h : t.findLocal? sym.name = none) : S.bind id sym = (none, S.modify id (·.insert sym)) := by
  simp [bind, ht, h]

theorem bind_of_some {sym other : Symbol α}
    (ht : S.table? id = some t) (h : t.findLocal? sym.name = some other) :
    S.bind id sym = (some other, S) := by
  simp [bind, ht, h]

theorem Consistent.apply (h : S.Consistent) (op : ScopeOp α) : (S.apply op).2.Consistent := by
  cases op with
  | new name parent =>
    refine ⟨fun i t ht => ?_, fun i t p ht hp => ?_⟩
    · simp only [Scopes.apply, table?_new] at ht
      split at ht
      · cases ht
        exact nodup_nil
      · exact h.distinct i t ht
    · simp only [Scopes.apply, table?_new] at ht
      split at ht
      · rename_i hi
        cases ht
        have hlt := (filter_eq_some_iff.1 hp).2
        rw [hi]
        simpa using hlt
      · exact h.parent i t p ht hp
  | push id =>
    dsimp only [Scopes.apply]
    split
    · exact h
    · exact h.modify fun t _ ht => ⟨ht.push, rfl⟩
  | pop id =>
    dsimp only [Scopes.apply]
    split
    · exact h
    · rename_i t' hpop
      obtain ⟨t, ht, hpop⟩ := bind_eq_some_iff.1 hpop
      refine h.modify fun t₁ ht₁ hdist => ?_
      cases ht.symm.trans ht₁
      exact ⟨hdist.pop hpop, (pop?_eq_some hpop).1⟩
  | bind id sym =>
    dsimp only [Scopes.apply]
    split
    · exact h
    · rename_i t ht
      cases hf : t.findLocal? sym.name with
      | some other =>
        rw [bind_of_some ht hf]
        exact h
      | none =>
        rw [bind_of_none ht hf]
        refine h.modify fun t₁ ht₁ hdist => ?_
        cases ht.symm.trans ht₁
        exact ⟨hdist.insert hf, parent_insert t sym⟩

theorem Consistent.after (h : S.Consistent) (ops : List (ScopeOp α)) : (S.after ops).Consistent := by
  induction ops generalizing S with
  | nil => exact h
  | cons op ops ih => exact ih (h.apply op)

/-! ### Flat tables follow scope tables -/

theorem getElem?_flat (S : Scopes α) (i : Nat) : S.flat[i]? = (S.table? i).map (·.flat) := by
  simp [flat, table?]

theorem flat_modify (ht : S.table? id = some t)
    {f : ScopeTable α → ScopeTable α} {g : FlatTable α → FlatTable α} (hf : (f t).flat = g t.flat) :
    (S.modify id f).flat = S.flat.modify id g := by
  apply Array.ext_getElem?
  intro i
  rw [getElem?_flat, table?_modify, Array.getElem?_modify, getElem?_flat]
  split
  · rename_i hi
    subst hi
    simp [ht, hf]
  · rfl

/-- An operation answers as on flat tables, and the flat tables after it are those of the tables. -/
theorem apply_flat (h : S.Consistent) (op : ScopeOp α) :
    FlatTable.apply S.flat op = ((S.apply op).1, (S.apply op).2.flat) := by
  cases op with
  | new name parent =>
    have hsize : S.flat.size = S.tables.size := Array.size_map ..
    simp only [FlatTable.apply, apply, new, hsize]
    simp only [flat, Array.map_push]
    rfl
  | push id =>
    dsimp only [FlatTable.apply, apply]
    rw [getElem?_flat]
    cases ht : S.table? id with
    | none => rfl
    | some t => exact Prod.ext rfl (flat_modify ht rfl).symm
  | pop id =>
    dsimp only [FlatTable.apply, apply]
    rw [getElem?_flat]
    cases ht : S.table? id with
    | none => rfl
    | some t =>
      cases hpop : t.pop? with
      | none =>
        have hdep : t.flat.depth = 1 := pop?_eq_none hpop
        simp [hpop, hdep]
      | some t' =>
        have hflat := flat_pop (h.distinct id t ht) hpop
        have hdep : t.flat.depth ≠ 1 := by
          obtain ⟨-, m, hms⟩ := pop?_eq_some hpop
          show t.depth ≠ 1
          rw [← length_mappings, hms, length_cons, length_mappings]
          exact Nat.succ_ne_succ_iff.2 (Nat.succ_ne_zero _)
        simp only [map_some, if_neg hdep, bind_some, hpop]
        rw [← hflat]
        exact Prod.ext rfl (flat_modify ht hflat).symm
  | bind id sym =>
    dsimp only [FlatTable.apply, apply]
    rw [getElem?_flat]
    cases ht : S.table? id with
    | none => rfl
    | some t =>
      have hh := map_held t sym.name
      cases hf : t.findLocal? sym.name with
      | none =>
        rw [hf, map_eq_none_iff] at hh
        have hmod : (S.modify id (·.insert sym)).flat = S.flat.modify id (·.bind sym) :=
          flat_modify ht (flat_insert hf)
        simp [hh, bind_of_none ht hf, hmod]
      | some other =>
        rw [hf] at hh
        obtain ⟨⟨n, s⟩, hs, rfl⟩ := map_eq_some_iff.1 hh
        simp [hs, bind_of_some ht hf]

theorem run_flat (h : S.Consistent) (ops : List (ScopeOp α)) :
    ScopeOp.run FlatTable.apply S.flat ops = ((ScopeOp.run apply S ops).1, (S.after ops).flat) := by
  induction ops generalizing S with
  | nil => rfl
  | cons op ops ih =>
    unfold ScopeOp.run
    simp only [apply_flat h, ih (h.apply op)]
    rfl

/-! ### Blocks -/

end Scopes

/-- Operations on one table that close every mapping that they open, and no other.  Further tables
may be made in between. -/
inductive ScopeOp.Balanced (id : Nat) : List (ScopeOp α) → Prop
  | nil : Balanced id []
  | new {ops : List (ScopeOp α)} (name : String) (parent : Option Nat) (h : Balanced id ops) :
    Balanced id (.new name parent :: ops)
  | bind {ops : List (ScopeOp α)} (sym : Symbol α) (h : Balanced id ops) :
    Balanced id (.bind id sym :: ops)
  | block {ops ops' : List (ScopeOp α)} (h : Balanced id ops) (h' : Balanced id ops') :
    Balanced id (.push id :: ops ++ .pop id :: ops')

namespace Scopes

open ScopeTable

variable {S S' : Scopes α}

theorem after_cons (S : Scopes α) (op : ScopeOp α) (ops : List (ScopeOp α)) :
    S.after (op :: ops) = (S.apply op).2.after ops := rfl

theorem after_append (S : Scopes α) (ops ops' : List (ScopeOp α)) :
    S.after (ops ++ ops') = (S.after ops).after ops' := by
  induction ops generalizing S with
  | nil => rfl
  | cons op ops ih => exact ih (S.apply op).2

/-- Only the table `id` differs, and it is `t` now; there may be further tables. -/
structure Differs (S S' : Scopes α) (id : Nat) (t : ScopeTable α) : Prop where
  size : S.tables.size ≤ S'.tables.size
  changed : S'.table? id = some t
  others : ∀ i, i ≠ id → i < S.tables.size → S'.table? i = S.table? i

variable {id i j : Nat} {t : ScopeTable α}

theorem differs_modify (ht : S.table? id = some t)
    (f : ScopeTable α → ScopeTable α) : S.Differs (S.modify id f) id (f t) where
  size := by simp [modify]
  changed := by simp [table?_modify, ht]
  others i hi _ := by rw [table?_modify, if_neg (Ne.symm hi)]

theorem Differs.trans (h : S.Differs S' id t) (h' : S'.Differs S'' id t') :
    S.Differs S'' id t' where
  size := Nat.le_trans h.size h'.size
  changed := h'.changed
  others i hi hlt := by rw [h'.others i hi (Nat.lt_of_lt_of_le hlt h.size), h.others i hi hlt]

theorem differs_push (ht : S.table? id = some t) : S.Differs (S.apply (.push id)).2 id t.push := by
  simp only [apply, ht]
  exact differs_modify ht _

theorem differs_pop (ht : S.table? id = some t) {rest : List (Mapping α)}
    (hinn : t.inner = m :: rest) :
    S.Differs (S.apply (.pop id)).2 id { t with inner := rest } := by
  have hpop : t.pop? = some { t with inner := rest } := by simp only [ScopeTable.pop?, hinn]
  simp only [apply, ht, bind_some, hpop]
  exact differs_modify ht _

theorem differs_of_balanced (h : ScopeOp.Balanced id ops) (ht : S.table? id = some t)
    {rest : List (Mapping α)} (hinn : t.inner = m :: rest) :
    ∃ m', S.Differs (S.after ops) id { t with inner := m' :: rest } := by
  induction h generalizing S t m rest with
  | nil => exact ⟨m, Nat.le_refl _, by rw [← hinn]; exact ht, fun _ _ _ => rfl⟩
  | new name parent _ ih =>
    have hlt := (Array.getElem?_eq_some_iff.1 ht).1
    have hnew : ∀ i, i < S.tables.size → (S.apply (.new name parent)).2.table? i = S.table? i := by
      intro i hi
      simp only [apply, table?_new, if_neg (Nat.ne_of_lt hi)]
    obtain ⟨m', hm'⟩ := ih ((hnew id hlt).trans ht) hinn
    have hdif : S.Differs (S.apply (.new name parent)).2 id t :=
      ⟨by simp [apply, new], (hnew id hlt).trans ht, fun i _ hi => hnew i hi⟩
    exact ⟨m', hdif.trans hm'⟩
  | bind sym _ ih =>
    -- The symbol is refused, or it is put into the mapping of the block.
    cases hf : t.findLocal? sym.name with
    | some other =>
      have happ : (S.apply (.bind id sym)).2 = S := by
        simp only [apply, ht, bind_of_some ht hf]
      rw [after_cons, happ]
      exact ih ht hinn
    | none =>
      have happ : (S.apply (.bind id sym)).2 = S.modify id (·.insert sym) := by
        simp only [apply, ht, bind_of_none ht hf]
      have hdif := differs_modify ht (·.insert sym)
      rw [← happ] at hdif
      have hins : t.insert sym = { t with inner := (m ++ [sym]) :: rest } := by
        simp only [ScopeTable.insert, hinn]
      rw [hins] at hdif
      obtain ⟨m', hm'⟩ := ih hdif.changed rfl
      exact ⟨m', hdif.trans hm'⟩
  | block _ _ ih ih' =>
    rename_i ops ops' _ _
    have hp := differs_push ht
    have hopen : t.push.inner = [] :: m :: rest := congrArg ([] :: ·) hinn
    obtain ⟨m₁, hops⟩ := ih hp.changed hopen
    have hpop := differs_pop hops.changed rfl
    obtain ⟨m', hops'⟩ := ih' hpop.changed rfl
    refine ⟨m', ?_⟩
    have haft : S.after (.push id :: ops ++ .pop id :: ops') =
        (((S.apply (.push id)).2.after ops).apply (.pop id)).2.after ops' :=
      after_append (S.apply (.push id)).2 ops (.pop id :: ops')
    rw [haft]
    exact ((hp.trans hops).trans hpop).trans hops'

theorem table?_after_block (ht : S.table? id = some t) (h : ScopeOp.Balanced id ops)
    (hi : i < S.tables.size) : (S.after (.push id :: ops ++ [.pop id])).table? i = S.table? i := by
  have hp := differs_push ht
  have hopen : t.push.inner = [] :: t.inner := rfl
  obtain ⟨m, hops⟩ := differs_of_balanced h hp.changed hopen
  have hpop := differs_pop hops.changed rfl
  have haft : S.after (.push id :: ops ++ [.pop id]) =
      (((S.apply (.push id)).2.after ops).apply (.pop id)).2 :=
    after_append (S.apply (.push id)).2 ops [.pop id]
  have hall := (hp.trans hops).trans hpop
  rw [haft]
  by_cases hid : i = id
  · subst hid
    rw [hall.changed, ht]
    rfl
  · exact hall.others i hid hi

/-! ### Lookups along the parents -/

/-- The table `j` is the nearest one for which `P` holds, among the table `i` and those around it. -/
inductive Nearest (S : Scopes α) (P : ScopeTable α → Prop) : Nat → Nat → Prop
  | here {i : Nat} {t : ScopeTable α} (ht : S.table? i = some t) (h : P t) : Nearest S P i i
  | around {i p j : Nat} {t : ScopeTable α} (ht : S.table? i = some t) (h : ¬ P t)
    (hp : t.parent = some p) (hj : Nearest S P p j) : Nearest S P i j

theorem nearest_iff (ht : S.table? i = some t) : S.Nearest P i j ↔
    P t ∧ i = j ∨ ¬ P t ∧ ∃ p, t.parent = some p ∧ S.Nearest P p j := by
  constructor
  · rintro (⟨ht', h⟩ | ⟨ht', h, hp, hj⟩) <;> cases ht.symm.trans ht'
    · exact .inl ⟨h, rfl⟩
    · exact .inr ⟨h, _, hp, hj⟩
  · rintro (⟨h, rfl⟩ | ⟨h, p, hp, hj⟩)
    · exact .here ht h
    · exact .around ht h hp hj

theorem Nearest.holds (h : S.Nearest P i j) : ∃ t, S.table? j = some t ∧ P t := by
  induction h with
  | here ht h => exact ⟨_, ht, h⟩
  | around _ _ _ _ ih => exact ih

theorem Consistent.chain_eq (h : S.Consistent)
    (ht : S.table? i = some t) : S.chain i = i :: (t.parent.map S.chain).getD [] := by
  rw [chain, ht]
  cases hp : t.parent with
  | none => simp [hp]
  | some p => simp [hp, h.parent i t p ht hp]

theorem chain_eq_nil (h : S.table? i = none) : S.chain i = [] := by
  rw [chain, h]

theorem Consistent.find?_chain_iff (h : S.Consistent) (P : ScopeTable α → Bool) :
    (S.chain i).find? (fun i => (S.table? i).any P) = some j ↔
      S.Nearest (fun t => P t = true) i j := by
  induction i using Nat.strongRecOn with
  | ind i ih =>
    cases ht : S.table? i with
    | none =>
      rw [chain_eq_nil ht]
      refine ⟨fun h => (by cases h), fun h => ?_⟩
      cases h with
      | here ht' | around ht' => rw [ht] at ht'; cases ht'
    | some t =>
      rw [h.chain_eq ht, find?_cons, nearest_iff ht]
      cases hP : P t with
      | true => simp [ht, hP]
      | false =>
        cases hp : t.parent with
        | none => simp [ht, hP]
        | some p => simp [ht, hP, ih p (h.parent i t p ht hp)]

theorem findSome?_eq_bind {β γ : Type} (f : β → Option γ) (l : List β) :
    l.findSome? f = (l.find? fun b => (f b).isSome).bind f := by
  induction l with
  | nil => rfl
  | cons b l ih =>
    rw [findSome?_cons, find?_cons]
    cases hf : f b with
    | none => simpa using ih
    | some c => simp [hf]

theorem find?_eq_none_iff (S : Scopes α) (i : Nat) (name : String) :
    S.find? i name = none ↔ S.owner? i name = none := by
  rw [find?, owner?, findSome?_eq_none_iff, List.find?_eq_none]
  simp

theorem Consistent.owner?_iff (h : S.Consistent) {name : String} :
    S.owner? i name = some j ↔ S.Nearest (fun t => t.findLocal? name ≠ none) i j := by
  have hP : ∀ i, ((S.table? i).bind (·.findLocal? name)).isSome =
      (S.table? i).any fun t => (t.findLocal? name).isSome := by
    intro i
    cases S.table? i <;> rfl
  simp only [owner?, hP, h.find?_chain_iff, isSome_iff_ne_none]

def Binds (name : String) (kind : SymbolKind) (t : ScopeTable α) : Prop :=
  ∃ sym, t.findLocal? name = some sym ∧ sym.kind = kind

theorem Consistent.findKind?_iff (h : S.Consistent) {name : String} {kind : SymbolKind} :
    S.findKind? i name kind = some sym ↔ ∃ j t, S.Nearest (Binds name kind) i j ∧
      S.table? j = some t ∧ t.findLocal? name = some sym := by
  -- What a table answers, in the words of a lookup of the name alone.
  have hloc : ∀ j, (S.table? j).bind (·.findKind? name kind) =
      (S.table? j).bind fun t => (t.findLocal? name).filter (·.kind = kind) := by
    intro j
    cases ht : S.table? j with
    | none => rfl
    | some t => exact (h.distinct j t ht).findKind? name kind
  have hP : ∀ j, ((S.table? j).bind fun t => (t.findLocal? name).filter (·.kind = kind)).isSome =
      (S.table? j).any fun t => ((t.findLocal? name).filter (·.kind = kind)).isSome := by
    intro j
    cases S.table? j <;> rfl
  have hbin : (fun t : ScopeTable α =>
      ((t.findLocal? name).filter (·.kind = kind)).isSome = true) = Binds name kind := by
    funext t
    simp only [isSome_iff_exists, filter_eq_some_iff, decide_eq_true_eq, Binds]
  rw [findKind?]
  simp only [hloc]
  rw [findSome?_eq_bind, bind_eq_some_iff]
  simp only [hP, h.find?_chain_iff, hbin]
  constructor
  · rintro ⟨j, hj, hsym⟩
    obtain ⟨t, ht, hsym⟩ := bind_eq_some_iff.1 hsym
    exact ⟨j, t, hj, ht, (filter_eq_some_iff.1 hsym).1⟩
  · rintro ⟨j, t, hj, ht, hsym⟩
    obtain ⟨t', ht', s, hs, hkind⟩ := hj.holds
    cases ht.symm.trans ht'
    cases hsym.symm.trans hs
    exact ⟨j, hj, bind_eq_some_iff.2 ⟨t, ht, filter_eq_some_iff.2 ⟨hsym, by simpa using hkind⟩⟩⟩

theorem le_of_mem_chain (h : j ∈ S.chain i) : j ≤ i := by
  fun_induction chain S i with
  | case1 => cases h
  | case2 | case4 => exact Nat.le_of_eq (mem_singleton.1 h)
  | case3 i _ _ p _ hp ih =>
    obtain rfl | h := mem_cons.1 h
    · exact Nat.le_refl j
    · exact Nat.le_trans (ih h) (Nat.le_of_lt hp)

theorem chain_congr (h : ∀ j ≤ i, S'.table? j = S.table? j) : S'.chain i = S.chain i := by
  fun_induction chain S i with
  | case1 i ht => rw [chain_eq_nil ((h i (Nat.le_refl i)).trans ht)]
  | case2 i t ht hp => rw [chain, h i (Nat.le_refl i), ht]; simp only [hp]
  | case3 i t ht p hp hlt ih =>
    rw [chain, h i (Nat.le_refl i), ht]
    simp only [hp, dif_pos hlt, ih fun j hj => h j (Nat.le_trans hj (Nat.le_of_lt hlt))]
  | case4 i t ht p hp hlt =>
    rw [chain, h i (Nat.le_refl i), ht]
    simp only [hp, dif_neg hlt]

/-- The table at a position answers every lookup as it did before. -/
structure SameAnswers (S S' : Scopes α) (i : Nat) : Prop where
  findLocal? : ∀ name, (S'.table? i).bind (·.findLocal? name) = (S.table? i).bind (·.findLocal? name)
  owner? : ∀ name, S'.owner? i name = S.owner? i name
  find? : ∀ name, S'.find? i name = S.find? i name
  findKind? : ∀ name kind, S'.findKind? i name kind = S.findKind? i name kind

theorem sameAnswers_of_tables (h : ∀ j ≤ i, S'.table? j = S.table? j) : S.SameAnswers S' i where
  findLocal? name := by rw [h i (Nat.le_refl i)]
  owner? name := by
    rw [owner?, owner?, chain_congr h, ← head?_filter, ← head?_filter]
    exact congrArg _ (filter_congr fun j hj => by rw [h j (le_of_mem_chain hj)])
  find? name := by
    rw [find?, find?, chain_congr h, ← head?_filterMap, ← head?_filterMap]
    exact congrArg _ (filterMap_congr fun j hj => by rw [h j (le_of_mem_chain hj)])
  findKind? name kind := by
    rw [findKind?, findKind?, chain_congr h, ← head?_filterMap, ← head?_filterMap]
    exact congrArg _ (filterMap_congr fun j hj => by rw [h j (le_of_mem_chain hj)])

/-! ### All operations -/

/-- What holds of scope tables at all times. -/
structure Lawful (S : Scopes α) : Prop where
  /-- No name is held twice, neither by two mappings of a table nor by one. -/
  distinct : ∀ i t, S.table? i = some t → t.Distinct
  /-- A name that no mapping holds is bound in the innermost one, and nothing else changes. -/
  bind_new : ∀ i t sym, S.table? i = some t → (∀ m ∈ t.mappings, ∀ s ∈ m, s.name ≠ sym.name) →
    ∃ t' m ms, S.bind i sym = (none, S.modify i fun _ => t') ∧ t'.name = t.name ∧
      t'.parent = t.parent ∧ t.mappings = m :: ms ∧ t'.mappings = (m ++ [sym]) :: ms
  /-- The symbol of a name that a mapping holds is the answer, and nothing changes. -/
  bind_held : ∀ i t sym, S.table? i = some t → ∀ m ∈ t.mappings, ∀ s ∈ m, s.name = sym.name →
    S.bind i sym = (some s, S)
  /-- When a block is closed, every lookup is answered as before it. -/
  block : ∀ id t ops, S.table? id = some t → ScopeOp.Balanced id ops →
    ∀ i < S.tables.size, S.SameAnswers (S.after (.push id :: ops ++ [.pop id])) i
  owner : ∀ i j name, S.owner? i name = some j ↔ S.Nearest (fun t => t.findLocal? name ≠ none) i j
  find : ∀ i name,
    S.find? i name = (S.owner? i name).bind fun j => (S.table? j).bind (·.findLocal? name)
  find_none : ∀ i name, S.find? i name = none ↔ S.owner? i name = none
  findKind : ∀ i name kind sym, S.findKind? i name kind = some sym ↔
    ∃ j t, S.Nearest (Binds name kind) i j ∧ S.table? j = some t ∧ t.findLocal? name = some sym

theorem Consistent.lawful (h : S.Consistent) : S.Lawful where
  distinct := h.distinct
  bind_new i t sym ht hnew := by
    have hnone := findLocal?_eq_none_iff.2 hnew
    obtain ⟨m, ms, hms, hins⟩ := mappings_insert t sym
    refine ⟨t.insert sym, m, ms, ?_, name_insert t sym, parent_insert t sym, hms, hins⟩
    rw [bind_of_none ht hnone]
    refine Prod.ext rfl (congrArg Scopes.mk (Array.ext_getElem? fun j => ?_))
    rw [Array.getElem?_modify, Array.getElem?_modify]
    split
    · rename_i hj
      subst hj
      rw [show S.tables[i]? = some t from ht]
      rfl
    · rfl
  bind_held i t sym ht m hm s hs hname := by
    have hf := (h.distinct i t ht).findLocal? hm hs
    rw [hname] at hf
    exact bind_of_some ht hf
  block id t ops ht hops i hi := sameAnswers_of_tables fun j hj =>
    table?_after_block ht hops (Nat.lt_of_le_of_lt hj hi)
  owner i j name := h.owner?_iff
  find _ _ := findSome?_eq_bind _ _
  find_none := find?_eq_none_iff S
  findKind i name kind sym := h.findKind?_iff

/-- Scope tables refine flat tables: any operations get the same answers from both, and the tables
after them are the same maps.  At all times a table holds a name at most once, so that a name is bound
exactly if no mapping of the table holds it, a block leaves all lookups as they were, and all kinds of
lookups go to the nearest table that can answer. -/
theorem refines_flat (ops : List (ScopeOp α)) :
    ScopeOp.run FlatTable.apply #[] ops =
        ((ScopeOp.run Scopes.apply empty ops).1, (empty.after ops).flat) ∧
      (∀ i name, ((empty.after ops).table? i).bind (·.findLocal? name) =
        ((empty.after ops).flat[i]?).bind fun f => (f.held name).map (·.2)) ∧
      (empty.after ops).Lawful := by
  have hempty : (empty : Scopes α).flat = #[] := Array.map_empty
  refine ⟨hempty ▸ run_flat consistent_empty ops, fun i name => ?_,
    (consistent_empty.after ops).lawful⟩
  rw [getElem?_flat]
  cases (empty.after ops).table? i with
  | none => rfl
  | some t => exact (ScopeTable.map_held t name).symm

end Scopes

end MiniJam
