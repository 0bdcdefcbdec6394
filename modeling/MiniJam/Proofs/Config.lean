import MiniJam.Config
import MiniJam.Machine.Run
import MiniJam.Proofs.Code.Heights
import MiniJam.Proofs.Simulation.Program

/-!
# Configured machines

A configuration that passes its check makes a compiler, and a machine of its sizes has room for
every program of that compiler.  But the check lets the data store be smaller than the links of one
frame, and no machine has such a store (`Config.machine_of_valid`).
-/

namespace MiniJam

open Machine (linkWords)

variable {c : Config}

/-- What the check of a configuration makes sure of. -/
structure Config.Valid (c : Config) : Prop where
  dataStoreSize : 0 < c.dataStoreSize
  maxCodeSize : 0 < c.maxCodeSize
  fits : c.maxCodeSize ≤ c.codeCapacity
  breakpoints : ∀ addr ∈ c.breakpoints.getD [], 0 ≤ addr

theorem Config.valid_of_validate (h : c.validate = .ok ()) : c.Valid := by
  simp only [validate, bind, Except.bind] at h
  split at h
  · cases h
  split at h
  · cases h
  split at h
  · cases h
  split at h
  · cases h
  split at h
  · cases h
  · rename_i hfind
    exact ⟨by omega, by omega, by omega, by simpa [List.find?_eq_none] using hfind⟩

/-- The options of a machine that has the sizes and breakpoints of a configuration. -/
def Config.machineOptions (c : Config) (noSymbols hardCrash : Bool) : Machine.Options :=
  ⟨some c.dataStoreSize, some c.codeCapacity, noSymbols, hardCrash, c.breakpoints.getD []⟩

theorem Config.load_machineOptions {compiler : Compiler} {file name : String} {source : List UInt8}
    {object : Object} {noSymbols hardCrash : Bool} {input : Input} {output : Output} (hc : c.Valid)
    (hbps : c.breakpoints.getD [] = []) (hmax : compiler.maxCodeSize = c.maxCodeSize)
    (hobj : compiler.compile file source = .ok object) (hsto : linkWords < c.dataStoreSize) :
    ∃ m, Machine.load name object (c.machineOptions noSymbols hardCrash) input output = .ok m := by
  obtain ⟨_, _, -, -, -, -, hsize⟩ := Compiler.exists_checked hobj
  have hcap : 0 < c.codeCapacity := lt_of_lt_of_le hc.maxCodeSize hc.fits
  rw [machineOptions, hbps]
  exact Simulation.exists_load name noSymbols hardCrash input output hsto hcap
    ((hmax ▸ hsize).trans hc.fits)

/-- A configuration that passes its check makes a compiler, and a machine of its sizes can be loaded
with every program of that compiler, unless its data store has no room for the links of a frame. -/
theorem Config.machine_of_valid (hvalid : c.validate = .ok ())
    (hbreakpoints : c.breakpoints.getD [] = []) (dynamic : Bool) :
    ∃ compiler, Compiler.make dynamic (some c.maxCodeSize) = .ok compiler ∧
      ∀ file source object, compiler.compile file source = .ok object →
        ∀ name noSymbols hardCrash input output,
          if linkWords < c.dataStoreSize then
            ∃ m, Machine.load name object (c.machineOptions noSymbols hardCrash) input output = .ok m
          else Machine.load name object (c.machineOptions noSymbols hardCrash) input output =
            .error (.dataStoreTooSmall c.dataStoreSize) := by
  have hc := valid_of_validate hvalid
  refine ⟨⟨dynamic, c.maxCodeSize⟩, if_pos hc.maxCodeSize, fun file source object hobject => ?_⟩
  intro name noSymbols hardCrash input output
  split
  · exact load_machineOptions hc hbreakpoints rfl hobject ‹_›
  · rw [Machine.load, machineOptions, if_pos (Int.not_lt.1 ‹_›)]
    rfl

theorem Config.machine_of_valid_default : Config.default.validate = .ok () ∧
    ∃ compiler object m, Compiler.make false (some Config.default.maxCodeSize) = .ok compiler ∧
      compiler.compile "M" callsMethod = .ok object ∧
      Machine.load "M" object (Config.default.machineOptions false false) .empty .empty = .ok m := by
  have hvalid : Config.default.validate = .ok () := rfl
  obtain ⟨p, object, -, hp, -, hobject, -⟩ := callsMethod_evaluated false
  obtain ⟨compiler, hmake, hload⟩ := machine_of_valid hvalid rfl false
  obtain rfl : compiler = ⟨false, 1024⟩ := (Except.ok.inj hmake).symm
  have hcompile := (Compiler.compile_of_checked (c := ⟨false, 1024⟩) "M" hp).trans hobject
  obtain ⟨m, hm⟩ := hload "M" callsMethod object hcompile "M" false false .empty .empty
  exact ⟨hvalid, _, object, m, hmake, hcompile, hm⟩

/-- A configuration whose data store has the words of the links of a frame and no other. -/
def Config.cramped : Config := { default with dataStoreSize := linkWords }

/-- The check does not refuse it, but no machine can be loaded. -/
theorem Config.cramped_not_loaded : cramped.validate = .ok () ∧ ∃ compiler object,
    Compiler.make false (some cramped.maxCodeSize) = .ok compiler ∧
      compiler.compile "M" callsMethod = .ok object ∧
      Machine.load "M" object (cramped.machineOptions false false) .empty .empty =
        .error (.dataStoreTooSmall linkWords) := by
  obtain ⟨p, object, -, hp, -, hobject, -⟩ := callsMethod_evaluated false
  exact ⟨rfl, ⟨false, 1024⟩, object, rfl,
    (Compiler.compile_of_checked (c := ⟨false, 1024⟩) "M" hp).trans hobject, rfl⟩

end MiniJam
