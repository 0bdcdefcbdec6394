import MiniJam.Proofs.Code.Checked

/-!
# Compiled sources

The object of a compiled source has the code of its checked package (`Compiler.exists_checked`).
-/

namespace MiniJam

open Assembly Package

/-- The checked package of a source without a report. -/
def Package.checked? (file : String) (source : List UInt8) : Option Package :=
  match Package.parse file source with
  | .ok p => if p.check.diagnostics = [] then some p.check.package else none
  | .error _ => none

theorem Package.exists_parsed {file : String} {source : List UInt8}
    (h : checked? file source = some q) :
    ∃ p, parse file source = .ok p ∧ p.check.diagnostics = [] ∧ p.check.package = q := by
  unfold checked? at h
  cases hpar : parse file source with
  | error d =>
    rw [hpar] at h
    cases h
  | ok p =>
    simp only [hpar, Option.ite_none_right_eq_some, Option.some.injEq] at h
    exact ⟨p, rfl, h⟩

theorem Assembly.object_ok {a : Assembly} {limit : Int} {object : Object}
    (h : a.object limit = .ok object) : object.program = a.program ∧ a.program.size ≤ limit := by
  unfold Assembly.object at h
  split at h
  · rename_i hnil
    cases h
    refine ⟨rfl, ?_⟩
    simp only [diagnostics, List.append_eq_nil_iff] at hnil
    have hlong : ¬ limit < a.code.size := fun hlt => by
      rw [if_pos hlt] at hnil
      exact List.cons_ne_nil _ _ hnil.2
    rw [a.size_program]
    omega
  · cases h

theorem Compiler.exists_checked {c : Compiler} {name : String} {source : List UInt8}
    {object : Object} (h : c.compile name source = .ok object) :
    ∃ p entry, checked? (Path.base name) source = some p ∧ p.Typed ∧
      p.entry = some entry ∧ object.program = (ofPackage p c.dynamic entry).program ∧
      (object.program.size : Int) ≤ c.maxCodeSize := by
  unfold Compiler.compile at h
  cases hpar : parse (Path.base name) source with
  | error d =>
    rw [hpar] at h
    cases h
  | ok p =>
    simp only [hpar] at h
    cases hchk : p.check.diagnostics with
    | cons d ds =>
      simp only [hchk] at h
      cases h
    | nil =>
      simp only [hchk] at h
      have htyp := typed_of_check (fresh_of_parse hpar) hchk
      obtain ⟨entry, hent, -⟩ := htyp.entry
      refine ⟨p.check.package, entry, ?_, htyp, hent, ?_⟩
      · simp [checked?, hpar, hchk]
      · simp only [Compiler.object, assemble, hent] at h
        cases hobj : (ofPackage p.check.package c.dynamic entry).object c.maxCodeSize with
        | error ds =>
          rw [hobj] at h
          cases h
        | ok object' =>
          rw [hobj] at h
          obtain rfl : object' = object := Except.ok.inj h
          obtain ⟨hprog, hsize⟩ := object_ok hobj
          exact ⟨hprog, hprog ▸ hsize⟩

theorem Compiler.compile_of_checked {c : Compiler} (name : String) {source : List UInt8}
    (h : checked? (Path.base name) source = some p) :
    c.compile name source = c.object p := by
  obtain ⟨q, hpar, hchk, rfl⟩ := exists_parsed h
  simp [Compiler.compile, hpar, hchk]

theorem Compiler.object_of_typed {p : Package} (hp : p.Typed) {entry : MemberId}
    (hent : p.entry = some entry) (c : Compiler)
    (hsize : (ofPackage p c.dynamic entry).program.size ≤ c.maxCodeSize) :
    c.object p = .ok ⟨(ofPackage p c.dynamic entry).program,
      some (ofPackage p c.dynamic entry).symbols⟩ := by
  obtain ⟨a, hass, hfaul, hunr⟩ := hp.assemble c.dynamic
  obtain rfl : a = .ofPackage p c.dynamic entry := by
    simp only [Package.assemble, hent] at hass
    exact (Except.ok.inj hass).symm
  have hshor : ¬ c.maxCodeSize < (ofPackage p c.dynamic entry).code.size := by
    rw [Assembly.size_program] at hsize
    omega
  simp only [Compiler.object, hass, Assembly.object, Assembly.diagnostics, hfaul,
    hunr, List.nil_append, if_neg hshor]
  rfl

end MiniJam
