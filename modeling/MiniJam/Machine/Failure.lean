/-!
# Conditions and failures

A machine is running, has halted, or has failed.  `Condition` lists the states that are told apart
by name; a `Failure` is the cause of a failed one, and determines the condition and the detail
that is reported.
-/

namespace MiniJam

/-- The states of a machine that have a name. -/
inductive Condition where
  | running
  | halted
  | dataStoreFull
  | invalidCodeAddress
  | invalidInstruction
  | overflow
  | zeroDivide
  | ioError
  | arrayIndex
  | heapRef
  | methodIndex
  deriving DecidableEq, Repr

namespace Condition

def all : Array Condition :=
  #[running, halted, dataStoreFull, invalidCodeAddress, invalidInstruction, overflow, zeroDivide,
    ioError, arrayIndex, heapRef, methodIndex]

def ofCode? (c : Int) : Option Condition :=
  if c < 0 then none else all[c.toNat]?

def sentence : Condition → String
  | running => "Program is running."
  | halted => "Program has halted normally."
  | dataStoreFull => "Program has failed due to exhaustion of Data Store."
  | invalidCodeAddress => "Program has failed due to an invalid code address."
  | invalidInstruction => "Program has failed due to an invalid instruction."
  | overflow => "Program has failed due to overflow."
  | zeroDivide => "Program has failed due to division by zero."
  | ioError => "Program has failed due to an IO error."
  | arrayIndex => "Program has failed due to an array index error."
  | heapRef => "Program has failed due to an invalid Heap reference."
  | methodIndex => "Program has failed due to an improper method index in CALLD."

def name : Condition → String
  | running => "running"
  | halted => "halted"
  | dataStoreFull => "data_store_full"
  | invalidCodeAddress => "invalid_code_address"
  | invalidInstruction => "invalid_instruction"
  | overflow => "overflow"
  | zeroDivide => "zero_divide"
  | ioError => "io_error"
  | arrayIndex => "array_index"
  | heapRef => "heap_ref"
  | methodIndex => "method_index"

def failed (c : Condition) : Bool :=
  c != running && c != halted

def sentenceOf (c : Int) : String :=
  match ofCode? c with
  | some s => s.sentence
  | none => "Machine is in an unknown state."

def nameOf (c : Int) : String :=
  match ofCode? c with
  | some s => s.name
  | none => s!"status_{c}"

/-- Whether a condition number is a failure; numbers without a meaning are. -/
def failedOf (c : Int) : Bool :=
  match ofCode? c with
  | some s => s.failed
  | none => true

end Condition

/-- An access to a store of `length` words outside its bounds. -/
structure Fault where
  index : Int
  length : Nat
  deriving DecidableEq, Repr

def Fault.message (f : Fault) : String :=
  if f.index < 0 then s!"runtime error: index out of range [{f.index}]"
  else s!"runtime error: index out of range [{f.index}] with length {f.length}"

/-- The causes for which a program fails. -/
inductive Failure where
  | emptyProgram
  | codeAddress (addr top : Int)
  | register (r : Int)
  | opcode (op : Int)
  | primitive (p : Int)
  | dataAddress (addr : Int) (size : Nat)
  | noRoom (words st ht : Int)
  | popOfEmptyStack
  | missingOperands (held needed : Int)
  | instanceMethodAddress (addr : Int)
  | noDescriptor (object desc : Int)
  | methodIndex (index desc count : Int)
  | returnWords (n : Int)
  | returnFrame (lb : Int)
  | pushWords (d : Int)
  | popWords (d st : Int)
  | overflow (result : Int)
  | inputTooLarge
  | zeroDivide (dividend : Int)
  | nullReference
  | outsideHeap (addr ht hb : Int)
  | allocation (words : Int)
  | notAnArray (addr : Int)
  | arrayIndex (index length : Int)
  | fieldIndex (index fields : Int)
  | read (cause : String)
  | write (cause : String)
  | internal (fault : Fault)
  deriving DecidableEq, Repr

namespace Failure

def condition : Failure → Condition
  | emptyProgram | codeAddress .. => .invalidCodeAddress
  | noRoom .. => .dataStoreFull
  | noDescriptor .. | methodIndex .. => .methodIndex
  | overflow .. | inputTooLarge => .overflow
  | zeroDivide .. => .zeroDivide
  | nullReference | outsideHeap .. => .heapRef
  | notAnArray .. | arrayIndex .. | fieldIndex .. => .arrayIndex
  | read .. | write .. => .ioError
  | register .. | opcode .. | primitive .. | dataAddress .. | popOfEmptyStack
  | missingOperands .. | instanceMethodAddress .. | returnWords .. | returnFrame ..
  | pushWords .. | popWords .. | allocation .. | internal .. => .invalidInstruction

def detail : Failure → String
  | emptyProgram => "empty program"
  | codeAddress addr top => s!"code address {addr} outside code [0, {top})"
  | register r => s!"invalid register {r}"
  | opcode op => s!"invalid opcode {op}"
  | primitive p => s!"invalid primitive {p}"
  | dataAddress addr size => s!"data address {addr} outside data store [0, {size})"
  | noRoom words st ht =>
    s!"no room for {words} words between stack top {st} and heap top {ht}"
  | popOfEmptyStack => "pop of empty stack"
  | missingOperands held needed => s!"stack holds {held} words, {needed} needed"
  | instanceMethodAddress addr => s!"instance method address {addr} outside code"
  | noDescriptor object desc => s!"instance {object} has no class descriptor ({desc})"
  | methodIndex index desc count =>
    s!"method index {index} outside descriptor {desc} of {count} methods"
  | returnWords n => s!"return of {n} words"
  | returnFrame lb => s!"return from invalid frame at {lb}"
  | pushWords d => s!"push of {d} words"
  | popWords d st => s!"pop of {d} words from a stack of {st}"
  | overflow result => s!"result {result} outside the 32 bit range"
  | inputTooLarge => "integer input too large"
  | zeroDivide dividend => s!"division of {dividend} by zero"
  | nullReference => "null pointer reference"
  | outsideHeap addr ht hb => s!"address {addr} outside heap [{ht}, {hb})"
  | allocation words => s!"allocation of {words} words"
  | notAnArray addr => s!"address {addr} is not an array"
  | arrayIndex index length => s!"index {index} outside array of length {length}"
  | fieldIndex index fields => s!"field {index} outside object of {fields} fields"
  | read cause => s!"read: {cause}"
  | write cause => s!"write: {cause}"
  | internal fault => s!"internal error: {fault.message}"

end Failure

end MiniJam
