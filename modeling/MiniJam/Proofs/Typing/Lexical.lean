import Mathlib
import MiniJam.Proofs.Typing.Package

/-!
# Checking is lexical scoping

The names of a package that is checked without a report are bound as lexical scoping has it
(`Ref.Bound`), and a package that is not well scoped (`Package.WellScoped`) is reported.
-/

namespace MiniJam

open Package MethodDecl

/-- A package whose names are bound is well scoped: what an identifier of the package that was read
stands for is what its counterpart is bound to. -/
theorem Typing.Package.Resolves.wellScoped (h : Typing.Package.Resolves q p) :
    q.WellScoped where
  classes := h.classes
  members := h.members
  methods := h.methods
  names k m hm vs span name b t hmem := by
    -- The method in `p` has the same references in the same scopes.
    have hmeth : (p.method? k).map MethodDecl.bare = some m.bare := by
      rw [← method?_bare, h.bare, method?_bare, hm, Option.map_some]
    obtain ⟨m', hm', hbare⟩ := Option.map_eq_some_iff.1 hmeth
    have hrefs : (vs, Ref.bare (.id span name b t)) ∈ m'.refs.map (Prod.map id Ref.bare) := by
      rw [← refs_bare, hbare, refs_bare]
      exact List.mem_map_of_mem hmem
    obtain ⟨⟨vs', r⟩, hr, heq⟩ := List.mem_map.1 hrefs
    obtain ⟨rfl, hr'⟩ := Prod.mk.inj heq
    have hbd := h.refs k m' hm' _ hr
    cases r with
    | this | member | elem => simp [Ref.bare] at hr'
    | id span' name' b' t' =>
      obtain ⟨-, rfl, -⟩ := Ref.id.inj hr'
      obtain ⟨hs, hb⟩ := hbd
      rw [hb, enclosure, params_of_bare hbare, Enclosure.lookup_congr h.bare] at hs
      exact hs

/-- Binding is lexical scoping.  When a package that is read is checked without a report, the checked
package is the one that was read, with the predefined classes, and every reference in it is bound to
what it stands for where it occurs.  A package with an identifier that stands for nothing, or with
two declarations of the same name with overlapping scopes, is reported. -/
theorem Package.check_binds_lexically {file : String} {source : List UInt8} {p : Package}
    (h : Package.parse file source = .ok p) :
    (p.check.diagnostics = [] → p.check.package.bare = (Predefined.addTo p).bare ∧
      ∀ id m, p.check.package.method? id = some m → ∀ x ∈ m.refs,
        x.2.Bound (m.enclosure p.check.package id.cls) x.1) ∧
    (¬ (Predefined.addTo p).WellScoped → p.check.diagnostics ≠ []) := by
  have hp := Package.fresh_of_parse h
  constructor
  · intro hquiet
    have hresolves := Package.resolves_of_check hp hquiet
    exact ⟨hresolves.bare, hresolves.refs⟩
  · intro hscoped hquiet
    exact hscoped (Package.resolves_of_check hp hquiet).wellScoped

/-- A program in which one name stands for a field and for a local variable. -/
def shadowsField : List UInt8 :=
  "class M{static int x;public static void main(String[]a){{int x=1;M.x=x;}x=2;}}".toUTF8.toList

/-- A program with two local variables of the same name, one in the scope of the other. -/
def declaresTwice : List UInt8 := "class M{void f(){int x=1;{int x=2;}}}".toUTF8.toList

theorem shadowsField_accepted :
    ∃ p, parse "M" shadowsField = .ok p ∧ p.check.diagnostics = [] :=
  exists_ok_of_elim (by cbv)

theorem declaresTwice_clashes : ∃ p, parse "M" declaresTwice = .ok p ∧
    ¬ (Predefined.addTo p).WellScoped := by
  have h : (parse "M" declaresTwice).toOption.elim False fun p =>
      ((Predefined.addTo p).classes.any fun c => c.methods.any fun m =>
        m.decls.any fun x => decide (x.2.name ∈ x.1.map (·.name))) = true := by cbv
  obtain ⟨p, hpar, h⟩ := exists_ok_of_elim h
  refine ⟨p, hpar, fun hscop => ?_⟩
  simp only [List.any_eq_true, decide_eq_true_eq] at h
  obtain ⟨c, hc, m, hm, x, hx, hname⟩ := h
  exact ((hscop.methods c hc m hm).locals x hx).2 hname

/-- The first program is checked without a report, and its names are bound; the second one is
reported. -/
theorem Package.check_binds_shadowsField : ∃ p p',
    Package.parse "M" shadowsField = .ok p ∧ p.check.diagnostics = [] ∧
    (∀ id m, p.check.package.method? id = some m → ∀ x ∈ m.refs,
      x.2.Bound (m.enclosure p.check.package id.cls) x.1) ∧
    Package.parse "M" declaresTwice = .ok p' ∧ ¬ (Predefined.addTo p').WellScoped ∧
    p'.check.diagnostics ≠ [] := by
  obtain ⟨p, hparse, hquiet⟩ := shadowsField_accepted
  obtain ⟨p', hparse', hscoped⟩ := declaresTwice_clashes
  exact ⟨p, p', hparse, hquiet, ((Package.check_binds_lexically hparse).1 hquiet).2, hparse', hscoped,
    (Package.check_binds_lexically hparse').2 hscoped⟩

end MiniJam
