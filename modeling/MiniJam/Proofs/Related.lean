import Mathlib.Data.List.Forall2
import MiniJam.Total

/-!
# Related lists

Lists whose items at the same positions are related, lists of items with their positions, what
stands at a position of a list, and the value that a computation gives.
-/

namespace MiniJam

open List

variable {α β : Type} {R : α → β → Prop}

theorem exists_of_forall₂_mem (h : List.Forall₂ R as bs) {a : α} (ha : a ∈ as) :
    ∃ b ∈ bs, R a b := by
  induction h with
  | nil => cases ha
  | cons hR _ ih =>
    obtain rfl | ha := mem_cons.1 ha
    · exact ⟨_, mem_cons_self, hR⟩
    · obtain ⟨b, hb, hab⟩ := ih ha
      exact ⟨b, mem_cons_of_mem _ hb, hab⟩

theorem map_eq_of_forall₂ {γ : Type} {f : α → γ} {g : β → γ} (hR : ∀ x y, R x y → g y = f x)
    (h : List.Forall₂ R xs ys) : ys.map g = xs.map f := by
  induction h with
  | nil => rfl
  | cons hxy _ ih => rw [map_cons, map_cons, hR _ _ hxy, ih]

theorem getElem?_of_forall₂ {xs : List α} {ys : List β}
    (h : List.Forall₂ R xs ys) {i : Nat} {y : β} (hy : ys[i]? = some y) :
    ∃ x, xs[i]? = some x ∧ R x y := by
  induction h generalizing i with
  | nil => simp at hy
  | cons hxy _ ih =>
    cases i with
    | zero => exact ⟨_, rfl, by simp_all⟩
    | succ i => exact ih (by simpa using hy)

theorem map_zipIdx_fst (f : α → β) (xs : List α) : xs.zipIdx.map (fun x => f x.1) = xs.map f := by
  conv_rhs => rw [← zipIdx_map_fst 0 xs, map_map]
  rfl

section

variable {α β : Type}

variable {l : List α} {k : Nat}

theorem split_of_getElem? {a : α} (h : l[k]? = some a) :
    ∃ l₁ l₂, l = l₁ ++ a :: l₂ ∧ l₁.length = k := by
  obtain ⟨hlt, rfl⟩ := List.getElem?_eq_some_iff.1 h
  exact ⟨l.take k, l.drop (k + 1), by simp, by simp; omega⟩

theorem getElem?_filter {f : α → β} {a : α} (hk : l[k]? = some a) (ha : P (f a) = true) :
    (l.filter fun x => P (f x))[(((l.map f).take k).filter P).length]? = some a := by
  obtain ⟨l₁, l₂, rfl, rfl⟩ := split_of_getElem? hk
  have hlen : ((l₁.map f).filter P).length = (l₁.filter fun x => P (f x)).length := by
    rw [filter_map, length_map]
    rfl
  have htake : ((l₁ ++ a :: l₂).map f).take l₁.length = l₁.map f := by simp
  rw [htake, hlen, filter_append, filter_cons_of_pos (p := fun x => P (f x)) ha]
  simp

theorem length_flatMap (l : List α) (f : α → List β) :
    (l.flatMap f).length = total (l.map fun x => (f x).length) := by
  induction l with
  | nil => rfl
  | cons x l ih => simp [total, ih]

theorem getElem?_flatMap {f : α → List β} (hi : l[i]? = some x) (hk : (f x)[k]? = some y) :
    (l.flatMap f)[total ((l.take i).map fun x => (f x).length) + k]? = some y := by
  obtain ⟨l₁, l₂, rfl, rfl⟩ := split_of_getElem? hi
  rw [take_left, ← length_flatMap, flatMap_append, flatMap_cons,
    getElem?_append_right (Nat.le_add_right _ _), Nat.add_sub_cancel_left,
    getElem?_append_left (List.getElem?_eq_some_iff.1 hk).1, hk]

end

/-! ### The value that a computation gives -/

theorem exists_some_of_elim {x : Option α} (h : x.elim False P) : ∃ a, x = some a ∧ P a := by
  cases x with
  | none => exact h.elim
  | some a => exact ⟨a, rfl, h⟩

theorem eq_ok_of_toOption {ε : Type} {x : Except ε α} {a : α} (h : x.toOption = some a) :
    x = .ok a := by
  cases x with
  | error e => cases h
  | ok b => rw [Option.some.inj h]

theorem exists_ok_of_elim {ε : Type} {x : Except ε α} (h : x.toOption.elim False P) :
    ∃ a, x = .ok a ∧ P a := by
  obtain ⟨a, ha, hP⟩ := exists_some_of_elim h
  exact ⟨a, eq_ok_of_toOption ha, hP⟩

end MiniJam
