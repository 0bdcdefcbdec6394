/-!
# Instructions

An instruction has four integer fields: the operation `op`, a length `n`, a register `r` and a
displacement `d`.  The fields of a loaded program are arbitrary; `Opcode.ofCode?`, `Reg.ofCode?`
and `Prim.ofCode?` say which numbers have a meaning, and each of them is a left inverse of `code`.
-/

namespace MiniJam

/-- The operations of the machine. -/
inductive Opcode where
  /-- Push the word at `d[r]`. -/
  | load
  /-- Push the address `d[r]`. -/
  | loada
  /-- Pop an address and push the word stored there. -/
  | loadi
  /-- Push the literal `d`. -/
  | loadl
  /-- Pop a word and store it at `d[r]`. -/
  | store
  /-- Pop an address, pop a word, and store the word at the address. -/
  | storei
  /-- Call the routine at `d[r]`, or a primitive if `d[r]` lies in the primitive segment. -/
  | call
  /-- Call the instance method at `d[r]`; the instance lies on top of the arguments. -/
  | calli
  /-- Call method number `d` of the class of the instance on top of the arguments. -/
  | calld
  /-- Return `n` result words and pop `d` argument words. -/
  | ret
  /-- Push `d` words without setting them. -/
  | push
  /-- Pop `d` words. -/
  | pop
  /-- Jump to `d[r]`. -/
  | jump
  /-- Pop a code address and jump to it. -/
  | jumpi
  /-- Pop a word and jump to `d[r]` if it equals `n`. -/
  | jumpif
  /-- Stop the machine; with `n > 0`, show its state and go on. -/
  | halt
  deriving DecidableEq, Repr

namespace Opcode

def all : Array Opcode :=
  #[load, loada, loadi, loadl, store, storei, call, calli, calld, ret, push, pop, jump, jumpi,
    jumpif, halt]

def code : Opcode → Int
  | load => 0 | loada => 1 | loadi => 2 | loadl => 3 | store => 4 | storei => 5 | call => 6
  | calli => 7 | calld => 8 | ret => 9 | push => 10 | pop => 11 | jump => 12 | jumpi => 13
  | jumpif => 14 | halt => 15

def ofCode? (c : Int) : Option Opcode :=
  if c < 0 then none else all[c.toNat]?

theorem ofCode?_code (o : Opcode) : ofCode? o.code = some o := by
  cases o <;> rfl

def mnemonic : Opcode → String
  | load => "LOAD" | loada => "LOADA" | loadi => "LOADI" | loadl => "LOADL" | store => "STORE"
  | storei => "STOREI" | call => "CALL" | calli => "CALLI" | calld => "CALLD" | ret => "RETURN"
  | push => "PUSH" | pop => "POP" | jump => "JUMP" | jumpi => "JUMPI" | jumpif => "JUMPIF"
  | halt => "HALT"

def textOf (c : Int) : String :=
  match ofCode? c with
  | some o => o.mnemonic
  | none => s!"op({c})"

end Opcode

/-- The registers of the machine. -/
inductive Reg where
  /-- Zero. -/
  | zr
  /-- Code base. -/
  | cb
  /-- Code top. -/
  | ct
  /-- Code pointer. -/
  | cp
  /-- Base of the primitive segment. -/
  | pb
  /-- Top of the primitive segment. -/
  | pt
  /-- Stack base. -/
  | sb
  /-- Stack top. -/
  | st
  /-- Base of the local frame. -/
  | lb
  /-- Heap base. -/
  | hb
  /-- Heap top. -/
  | ht
  /-- Base of the current object. -/
  | ob
  deriving DecidableEq, Repr

namespace Reg

def all : Array Reg := #[zr, cb, ct, cp, pb, pt, sb, st, lb, hb, ht, ob]

def code : Reg → Int
  | zr => 0 | cb => 1 | ct => 2 | cp => 3 | pb => 4 | pt => 5 | sb => 6 | st => 7 | lb => 8
  | hb => 9 | ht => 10 | ob => 11

def ofCode? (c : Int) : Option Reg :=
  if c < 0 then none else all[c.toNat]?

theorem ofCode?_code (r : Reg) : ofCode? r.code = some r := by
  cases r <;> rfl

def name : Reg → String
  | zr => "ZR" | cb => "CB" | ct => "CT" | cp => "CP" | pb => "PB" | pt => "PT" | sb => "SB"
  | st => "ST" | lb => "LB" | hb => "HB" | ht => "HT" | ob => "OB"

def textOf (c : Int) : String :=
  match ofCode? c with
  | some r => r.name
  | none => s!"reg({c})"

end Reg

/-- The primitive routines, called at their number above the register `PB`. -/
inductive Prim where
  | id | not | and | or | succ | pred | neg | add | sub | mult | div | mod
  | lt | le | ge | gt | eq | ne
  | eol | eof | get | put | geteol | puteol | getint | putint | putintnl
  | alloc | dispose | newobj | newarr | arrayref | arrayupd | fieldref | fieldupd
  deriving DecidableEq, Repr

namespace Prim

def all : Array Prim :=
  #[id, not, and, or, succ, pred, neg, add, sub, mult, div, mod, lt, le, ge, gt, eq, ne, eol, eof,
    get, put, geteol, puteol, getint, putint, putintnl, alloc, dispose, newobj, newarr, arrayref,
    arrayupd, fieldref, fieldupd]

def count : Int := 35

def code : Prim → Int
  | id => 0 | not => 1 | and => 2 | or => 3 | succ => 4 | pred => 5 | neg => 6 | add => 7
  | sub => 8 | mult => 9 | div => 10 | mod => 11 | lt => 12 | le => 13 | ge => 14 | gt => 15
  | eq => 16 | ne => 17 | eol => 18 | eof => 19 | get => 20 | put => 21 | geteol => 22
  | puteol => 23 | getint => 24 | putint => 25 | putintnl => 26 | alloc => 27 | dispose => 28
  | newobj => 29 | newarr => 30 | arrayref => 31 | arrayupd => 32 | fieldref => 33
  | fieldupd => 34

def ofCode? (c : Int) : Option Prim :=
  if c < 0 then none else all[c.toNat]?

theorem ofCode?_code (p : Prim) : ofCode? p.code = some p := by
  cases p <;> rfl

def name : Prim → String
  | id => "id" | not => "not" | and => "and" | or => "or" | succ => "succ" | pred => "pred"
  | neg => "neg" | add => "add" | sub => "sub" | mult => "mult" | div => "div" | mod => "mod"
  | lt => "lt" | le => "le" | ge => "ge" | gt => "gt" | eq => "eq" | ne => "ne" | eol => "eol"
  | eof => "eof" | get => "get" | put => "put" | geteol => "geteol" | puteol => "puteol"
  | getint => "getint" | putint => "putint" | putintnl => "putintnl" | alloc => "alloc"
  | dispose => "dispose" | newobj => "newobj" | newarr => "newarr" | arrayref => "arrayref"
  | arrayupd => "arrayupd" | fieldref => "fieldref" | fieldupd => "fieldupd"

def textOf (c : Int) : String :=
  match ofCode? c with
  | some p => p.name
  | none => s!"prim({c})"

end Prim

/-- One instruction of the machine. -/
structure Instr where
  /-- The operation. -/
  op : Int
  /-- The length field. -/
  n : Int
  /-- The register field. -/
  r : Int
  /-- The displacement. -/
  d : Int
  deriving DecidableEq, Repr

namespace Instr

def make (op : Opcode) (n : Int) (r : Reg) (d : Int) : Instr :=
  ⟨op.code, n, r.code, d⟩

def callPrimitive (d : Int) : Instr :=
  make .call 0 .pb d

def ofPrim (p : Prim) : Instr :=
  callPrimitive p.code

def text (i : Instr) : String :=
  s!"\x7b{Opcode.textOf i.op} {i.n} {Reg.textOf i.r} {i.d}\x7d"

end Instr

end MiniJam
