import MiniJam.Symbols
import MiniJam.Text.Cbor
import MiniJam.Word

/-!
# Symbols as bytes

A symbol file holds one map.  Its keys are written in the order of their lengths; they are read in
any order and in upper or lower case, and the first of two equal keys counts.  Unknown keys are
ignored, and null stands for the empty text, for zero and for a missing table.
-/

namespace MiniJam

open Text (Cbor)

namespace Symbols

def tableItem {α : Type} (item : α → Cbor) : Option (Array α) → Cbor
  | none => .null
  | some table => .array (table.toList.map item)

def entryItem (e : Entry) : Cbor :=
  .map [.ofString "addr", .ofInt e.addr, .ofString "line", .ofInt e.line,
    .ofString "name", .ofString e.name]

def toItem (s : Symbols) : Cbor :=
  .map [.ofString "lines", tableItem .ofInt s.lines, .ofString "source", .ofString s.source,
    .ofString "classes", tableItem entryItem s.classes,
    .ofString "methods", tableItem entryItem s.methods]

def encode : Option Symbols → List UInt8
  | none => Cbor.null.encode
  | some s => s.toItem.encode

def tagFits (number : Nat) (content : Cbor) : Bool :=
  match number, content with
  | 0, .text _ => true
  | 0, _ => false
  | 1, .nonneg _ | 1, .negative _ | 1, .float _ => true
  | 1, _ => false
  | 2, .bytes _ | 3, .bytes _ => true
  | 2, _ | 3, _ => false
  | _, _ => true

def untagged : Cbor → Option Cbor
  | .tag number content =>
    if !tagFits number content then none
    else if number = 2 ∨ number = 3 then some (.tag number content)
    else untagged content
  | item => some item

def checked64 (n : Int) : Option Int :=
  if minInt64 ≤ n ∧ n ≤ maxInt64 then some n else none

def intOf (item : Cbor) : Option Int := do
  match ← untagged item with
  | .nonneg n => checked64 n
  | .negative n => checked64 (-1 - n)
  | .tag 2 (.bytes content) => checked64 (Text.ofBigEndian content)
  | .tag 3 (.bytes content) => checked64 (-1 - Text.ofBigEndian content)
  | .simple 20 | .simple 21 => none
  | .simple 22 | .simple 23 => some 0
  | .simple n => some n
  | _ => none

def textOf (item : Cbor) : Option String := do
  match ← untagged item with
  | .text chunks =>
    let parts ← chunks.mapM Text.utf8?
    return String.join parts
  | .simple 22 | .simple 23 => some ""
  | _ => none

def tableOf {α : Type} (value : Cbor → Option α) (item : Cbor) : Option (Option (Array α)) := do
  match ← untagged item with
  | .array items =>
    let values ← items.mapM value
    return some values.toArray
  | .simple 22 | .simple 23 => some none
  | _ => none

def isKey : Cbor → Bool
  | .text chunks => chunks.all fun c => (Text.utf8? c).isSome
  | .nonneg _ => true
  | .negative n => n ≤ maxInt64
  | _ => false

def lowerByte (b : UInt8) : UInt8 := if 65 ≤ b ∧ b ≤ 90 then b + 32 else b

def isNamed (name : String) : Cbor → Bool
  | .text chunks => chunks.flatten.map lowerByte == name.toUTF8.toList
  | _ => false

def keysFit : List Cbor → Bool
  | key :: _ :: rest => isKey key && keysFit rest
  | _ => true

def valueOf (name : String) : List Cbor → Option Cbor
  | key :: value :: rest => if isNamed name key then some value else valueOf name rest
  | _ => none

/-- The keys and values of an item; null stands for an empty map. -/
def fieldsOf (item : Cbor) : Option (List Cbor) := do
  match ← untagged item with
  | .map items => if keysFit items then some items else none
  | .simple 22 | .simple 23 => some []
  | _ => none

def read {α : Type} (value : Cbor → Option α) (zero : α) (name : String) (fields : List Cbor) :
    Option α :=
  match valueOf name fields with
  | some item => value item
  | none => some zero

def entryOf (item : Cbor) : Option Entry := do
  let fields ← fieldsOf item
  return ⟨← read intOf 0 "addr" fields, ← read textOf "" "name" fields,
    ← read intOf 0 "line" fields⟩

def ofItem (item : Cbor) : Option Symbols := do
  let fields ← fieldsOf item
  return ⟨← read textOf "" "source" fields, ← read (tableOf intOf) none "lines" fields,
    ← read (tableOf entryOf) none "methods" fields, ← read (tableOf entryOf) none "classes" fields⟩

def decode (bytes : List UInt8) : Option Symbols :=
  (Cbor.decode bytes).bind ofItem

end Symbols

end MiniJam
