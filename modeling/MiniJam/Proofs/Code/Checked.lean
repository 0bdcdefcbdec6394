import Mathlib
import MiniJam.Compile
import MiniJam.Proofs.Code.Sealed
import MiniJam.Proofs.Typing.Package

/-!
# Checked packages compile

What the check accepts, the code generator can turn into code: the only thing that can still go
wrong is that the code is too long (`Compiler.object_of_check`).
-/

namespace MiniJam

namespace Assembly

variable {p : Package} {dynamic : Bool} {entry : MemberId}

theorem unresolved_ofPackage (h : Code.Sealed Code.jumps p P 0 (ofPackage p dynamic entry).code) :
    (ofPackage p dynamic entry).unresolved = [] := by
  refine List.filterMap_eq_nil_iff.2 ?_
  rintro ⟨item, addr⟩ hitem
  cases hcal : item.callee with
  | none => simp only [hcal]
  | some id =>
    obtain ⟨-, m, -, hm, -⟩ := (h.forms item (List.fst_mem_of_mem_zipIdx hitem)).callee hcal
    obtain ⟨b, hb, -⟩ := exists_body dynamic entry hm
    simp [hcal, hb]

theorem size_program (a : Assembly) : a.program.size = a.code.size := by
  simp [program, Code.size]

end Assembly

theorem Package.Typed.assemble {p : Package} (hp : p.Typed) (dynamic : Bool) :
    ∃ a, p.assemble dynamic = .ok a ∧ a.code.faults = [] ∧ a.unresolved = [] := by
  obtain ⟨entry, hent, -⟩ := hp.entry
  have hseal := Assembly.sealed_ofPackage dynamic hp hent
  refine ⟨.ofPackage p dynamic entry, ?_, hseal.faults, Assembly.unresolved_ofPackage hseal⟩
  simp [Package.assemble, hent]

def printsFive : List UInt8 :=
  "class M { public static void main(String[] a) { System.out.println(2 + 3); } }".toUTF8.toList

theorem printsFive_accepted :
    ∃ p, Package.parse "M" printsFive = .ok p ∧ p.check.diagnostics = [] :=
  exists_ok_of_elim (by cbv)

/-- A package that is read and checked without a report is well typed and has code without gaps.
Its object is that code, unless it has more instructions than the compiler allows: that is the one
thing that is reported then. -/
theorem Compiler.object_of_check {name : String} {source : List UInt8} {p : Package}
    (hparse : Package.parse name source = .ok p) (hcheck : p.check.diagnostics = [])
    (c : Compiler) :
    p.check.package.Typed ∧ ∃ a, p.check.package.assemble c.dynamic = .ok a ∧
      a.code.faults = [] ∧ a.unresolved = [] ∧ a.program.size = a.code.size ∧
      c.object p.check.package =
        if c.maxCodeSize < a.program.size then
          .error (.diagnostics [⟨none, Code.faultText
            s!"program of {a.program.size} instructions exceeds the code segment size {c.maxCodeSize}"⟩])
        else .ok ⟨a.program, some a.symbols⟩ := by
  have htyped := Package.typed_of_check (Package.fresh_of_parse hparse) hcheck
  obtain ⟨a, hassemble, hfaults, hunresolved⟩ := htyped.assemble c.dynamic
  refine ⟨htyped, a, hassemble, hfaults, hunresolved, a.size_program, ?_⟩
  simp only [Compiler.object, hassemble, Assembly.object, Assembly.diagnostics, hfaults,
    hunresolved, List.nil_append, a.size_program]
  by_cases hlong : c.maxCodeSize < a.code.size
  · simp only [hlong, ↓reduceIte]
    rfl
  · simp only [hlong, ↓reduceIte]
    rfl

/-- The program that prints a number has an object, or is reported as too long, also with dynamic
calls and little room. -/
theorem Compiler.object_printsFive : ∃ p a, Package.parse "M" printsFive = .ok p ∧
    p.check.diagnostics = [] ∧ p.check.package.assemble true = .ok a ∧
    Compiler.object ⟨true, 4⟩ p.check.package =
      if 4 < (a.program.size : Int) then
        .error (.diagnostics [⟨none, Code.faultText
          s!"program of {a.program.size} instructions exceeds the code segment size {(4 : Int)}"⟩])
      else .ok ⟨a.program, some a.symbols⟩ := by
  obtain ⟨p, hparse, hcheck⟩ := printsFive_accepted
  obtain ⟨-, a, hassemble, -, -, -, hobject⟩ :=
    Compiler.object_of_check hparse hcheck ⟨true, 4⟩
  exact ⟨p, a, hparse, hcheck, hassemble, hobject⟩

end MiniJam
