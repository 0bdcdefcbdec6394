import MiniJam.Machine.Convention
import MiniJam.Toml.Document
import MiniJam.Toml.Parse

/-!
# Configurations

A configuration gives the sizes of the machine and the options of the compiler.  What it does not
mention has its usual value.
-/

namespace MiniJam

/-- A configuration. -/
structure Config where
  dataStoreSize : Int
  codeCapacity : Int
  breakpoints : Option (List Int)
  /-- Whether instance methods are called through the descriptor of the instance's class. -/
  dynamicDispatch : Bool
  symbols : Bool
  /-- The number of instructions that a program may have. -/
  maxCodeSize : Int
  deriving DecidableEq, Repr

/-- Why a text is no configuration. -/
inductive ConfigError where
  /-- The text is not well formed, or a value has the wrong type. -/
  | malformed
  | unknownKeys (keys : List String)
  | dataStoreSize (size : Int)
  | codeCapacity (capacity : Int)
  | maxCodeSize (size : Int)
  | exceedsCapacity (size capacity : Int)
  | breakpoint (addr : Int)
  deriving DecidableEq, Repr

def ConfigError.message : ConfigError → String
  | malformed => "parsing configuration"
  | unknownKeys keys => "unknown configuration keys: " ++ ", ".intercalate keys
  | dataStoreSize size => s!"data_store_size must be positive, not {size}"
  | codeCapacity capacity => s!"code_capacity must be positive, not {capacity}"
  | maxCodeSize size => s!"max_code_size must be positive, not {size}"
  | exceedsCapacity size capacity => s!"max_code_size {size} exceeds code_capacity {capacity}"
  | breakpoint addr => s!"invalid breakpoint {addr}"

namespace Config

def default : Config :=
  ⟨Machine.defaultDataStore, Machine.defaultCapacity, none, false, false,
    Machine.defaultCapacity⟩

def validate (c : Config) : Except ConfigError Unit := do
  if c.dataStoreSize ≤ 0 then throw (.dataStoreSize c.dataStoreSize)
  if c.codeCapacity ≤ 0 then throw (.codeCapacity c.codeCapacity)
  if c.maxCodeSize ≤ 0 then throw (.maxCodeSize c.maxCodeSize)
  if c.codeCapacity < c.maxCodeSize then
    throw (.exceedsCapacity c.maxCodeSize c.codeCapacity)
  match (c.breakpoints.getD []).find? (· < 0) with
  | some addr => throw (.breakpoint addr)
  | none => pure ()

open Toml

/-- A letter in lower case; two letters beyond ASCII have a lower case within it. -/
def foldChar (c : Char) : Char :=
  if c.toNat = 0x17F then 's' else if c.toNat = 0x212A then 'k' else c.toLower

def isNamed (name key : String) : Bool := key.toList.map foldChar == name.toList

def integerOf? : Node → Option Int
  | .scalar (.integer n) => some n
  | _ => none

def booleanOf? : Node → Option Bool
  | .scalar (.boolean b) => some b
  | _ => none

def integersOf? : Node → Option (List Int)
  | .list items => items.mapM integerOf?
  | .tables [] => some []
  | _ => none

def machineNames : List String := ["data_store_size", "code_capacity", "breakpoints"]

def compilerNames : List String := ["dynamic_dispatch", "symbols", "max_code_size"]

def setMachine (c : Config) (field : String × Node) : Option Config :=
  if isNamed "data_store_size" field.1 then
    (integerOf? field.2).map fun n => { c with dataStoreSize := n }
  else if isNamed "code_capacity" field.1 then
    (integerOf? field.2).map fun n => { c with codeCapacity := n }
  else if isNamed "breakpoints" field.1 then
    (integersOf? field.2).map fun ns => { c with breakpoints := some ns }
  else some c

def setCompiler (c : Config) (field : String × Node) : Option Config :=
  if isNamed "dynamic_dispatch" field.1 then
    (booleanOf? field.2).map fun b => { c with dynamicDispatch := b }
  else if isNamed "symbols" field.1 then
    (booleanOf? field.2).map fun b => { c with symbols := b }
  else if isNamed "max_code_size" field.1 then
    (integerOf? field.2).map fun n => { c with maxCodeSize := n }
  else some c

def setTable (set : Config → String × Node → Option Config) (c : Config) : Node → Option Config
  | .table fs => fs.foldlM set c
  | _ => none

def setField (c : Config) (field : String × Node) : Option Config :=
  if isNamed "machine" field.1 then setTable setMachine c field.2
  else if isNamed "compiler" field.1 then setTable setCompiler c field.2
  else some c

def isKnown : Key → Bool
  | [table] => isNamed "machine" table || isNamed "compiler" table
  | [table, name] =>
    (isNamed "machine" table && machineNames.any (isNamed · name))
      || (isNamed "compiler" table && compilerNames.any (isNamed · name))
  | _ => false

def parse (bytes : List UInt8) : Except ConfigError Config := do
  match (Toml.parse? bytes).bind Document.ofLines? with
  | none => throw .malformed
  | some doc =>
    match doc.root.foldlM setField default with
    | none => throw .malformed
    | some c =>
      let unknown := (doc.keys.filter fun k => !isKnown k).map keyText
      if !unknown.isEmpty then
        throw (.unknownKeys (unknown.mergeSort fun a b => decide (a ≤ b)))
      c.validate
      return c

end Config

end MiniJam
