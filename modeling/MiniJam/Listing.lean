import MiniJam.Instr
import MiniJam.Symbols
import MiniJam.Text.Column
import MiniJam.Word

/-!
# Listings

A listing shows a program one instruction a line, in assembler form.  Code addresses that are the
target of a jump or a call have labels `L10`, `L11`, …, numbered in the order of the addresses.
With symbols, the start of each method and the source line of each instruction are shown too.
-/

namespace MiniJam

/-- A program: the code from address zero upward. -/
abbrev Program := Array Instr

namespace Listing

open Text

/-- The code addresses with a label, in increasing order. -/
structure Labels where
  addrs : List Int
  deriving Repr

/-- Adds an address to an increasing list of addresses, unless it is there. -/
def insertAddr (a : Int) : List Int → List Int
  | [] => [a]
  | b :: bs => if a < b then a :: b :: bs else if a = b then b :: bs else b :: insertAddr a bs

/-- The addresses that the instruction at `addr` gives a label: its target if it is a jump or a
call to an address of the code, and the address after an unconditional jump. -/
def targetsOf (addr : Nat) (i : Instr) : List Int :=
  let target := if i.r = Reg.cb.code then [i.d] else []
  match Opcode.ofCode? i.op with
  | some .call | some .calli | some .jumpif => target
  | some .jump => ((addr : Int) + 1) :: target
  | _ => []

namespace Labels

def empty : Labels := ⟨[]⟩

def ofProgram (prog : Program) : Labels :=
  ⟨(prog.toList.zipIdx.flatMap fun (i, addr) => targetsOf addr i).foldl
    (fun addrs a => insertAddr a addrs) []⟩

def get? (l : Labels) (addr : Int) : Option String :=
  (l.addrs.idxOf? addr).map fun n => s!"L{n + 10}"

def toList (l : Labels) : List (Int × String) :=
  l.addrs.zipIdx.map fun (a, n) => (a, s!"L{n + 10}")

end Labels

/-- The operand of a jump or call: the label of its target, or `***` if it has none. -/
def target (i : Instr) (labels : Labels) : String :=
  if i.r = Reg.cb.code then (labels.get? i.d).getD "***" else "***"

def operands (i : Instr) (labels : Labels) : String :=
  let blankN := "      "
  let n := padRight 6 s!"({i.n})"
  let r := s!"[{Reg.textOf i.r}]"
  match Opcode.ofCode? i.op with
  | some .load | some .loada | some .store => blankN ++ toString i.d ++ r
  | some .loadi | some .storei | some .jumpi => ""
  | some .loadl | some .calld | some .push | some .pop => blankN ++ toString i.d
  | some .call =>
    blankN ++ if i.r = Reg.pb.code then padRight 8 (Prim.textOf i.d) else target i labels
  | some .calli | some .jump => blankN ++ target i labels
  | some .ret => n ++ toString i.d
  | some .jumpif => n ++ target i labels
  | some .halt => n
  | none => "????  " ++ n ++ toString i.d ++ r

def instr (i : Instr) (labels : Labels) : String :=
  trimBlanks (padRight 7 (Opcode.textOf i.op) ++ operands i labels)

/-- The line that names the method starting at an address. -/
def heading (syms : Option Symbols) (addr : Nat) : String :=
  (syms.bind (·.methodAt? addr)).elim "" fun m => s!"     ; {m.name}\n"

/-- The line of the instruction `i` at `addr`: the address, its label, the instruction and the line
of its source. -/
def row (labels : Labels) (syms : Option Symbols) (addr : Nat) (i : Instr) : String :=
  let label := (labels.get? addr).elim "       " fun l => padRight 7 (l ++ ":")
  let text := instr i labels
  let body := (syms.bind (·.line? addr)).elim text fun ln =>
    padRight 32 text ++ s!"; line {wrap64 (ln + 1)}"
  padLeft 3 (toString addr) ++ "  " ++ label ++ body ++ "\n"

def ofProgram (prog : Program) (syms : Option Symbols) : String :=
  let labels := Labels.ofProgram prog
  String.join (prog.toList.zipIdx.map fun (i, addr) => heading syms addr ++ row labels syms addr i)

end Listing

end MiniJam
