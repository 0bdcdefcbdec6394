import MiniJam.Toml.Basic

/-!
# Documents

The tables that the lines of a configuration text make.  A key can be given a value only once.  A
table that was only made because one of its parts was named can still be given a heading.
-/

namespace MiniJam.Toml

/-- A value of a document. -/
inductive Node where
  | scalar (s : Scalar)
  | list (items : List Node)
  | table (fields : List (String × Node))
  /-- The tables of a list, each of which has a heading or braces of its own. -/
  | tables (ts : List (List (String × Node)))

/-- The keys and values of a table. -/
abbrev Fields := List (String × Node)

namespace Fields

def put (fs : Fields) (key : String) (n : Node) : Fields :=
  match fs with
  | [] => [(key, n)]
  | (k, v) :: rest => if k = key then (k, n) :: rest else (k, v) :: put rest key n

def inside : Node → Option Fields
  | .table fs => some fs
  | .tables ts => ts.getLast?
  | _ => none

def replaced (n : Node) (fs : Fields) : Node :=
  match n with
  | .tables ts => .tables (ts.dropLast ++ [fs])
  | _ => .table fs

def update (f : Fields → Option Fields) (fs : Fields) : (path : Key) → Option Fields
  | [] => f fs
  | name :: path => do
    let n ← fs.lookup name
    let inner ← inside n
    let inner ← update f inner path
    some (fs.put name (replaced n inner))

end Fields

/-- A document while its lines are read. -/
structure Builder where
  /-- The tables made so far. -/
  root : Fields
  /-- The keys that were only made because a part of them was named. -/
  implicit : List Key
  /-- The keys whose last value was an array. -/
  arrays : List Key
  /-- The keys that were written, in order. -/
  keys : List Key
  /-- The table that the next key belongs to. -/
  context : Key

/-- A part of building a document, which may fail. -/
abbrev Build := StateT Builder Option

def refuse {α : Type} : Build α := fun _ => none

def changeRoot (f : Fields → Option Fields) : Build Unit := fun b =>
  (f b.root).map fun root => ((), { b with root })

def addImplicit (key : Key) : Build Unit :=
  modify fun b => { b with implicit := key :: b.implicit }

def noteArray (name : String) (isArray : Bool) : Build Unit :=
  modify fun b =>
    let key := if name = "" then b.context else b.context ++ [name]
    let key := if key.isEmpty then [""] else key
    let others := b.arrays.filter (· ≠ key)
    { b with arrays := if isArray then key :: others else others }

/-- Gives a name of the current table a value.  A name that has one keeps it if it was only made
because a part of it was named; an array takes the place of one that was made so. -/
def setValue (name : String) (n : Node) : Build Unit := do
  let b ← get
  let key := b.context ++ [name]
  let isImplicit := b.implicit.contains key
  let isArray := b.arrays.contains key
  let known (fs : Fields) : Bool := (fs.lookup name).isSome
  changeRoot fun root => Fields.update (fun fs =>
    if !known fs then some (fs.put name n)
    else if !isImplicit then none
    else if isArray then some (fs.put name n)
    else some fs) root b.context
  let existed := (Fields.update (fun fs => if known fs then some fs else none) b.root b.context).isSome
  if existed then
    modify fun b => { b with implicit := b.implicit.filter (· ≠ key) }

/-- Makes the tables of the names `path` below the table at `done`, which hold those of a key. -/
def makeParents (done : Key) : (path : Key) → Build Unit
  | [] => pure ()
  | name :: path => do
    let b ← get
    let missing := (Fields.update (fun fs =>
      if (fs.lookup name).isSome then none else some fs) b.root done).isSome
    if missing then
      addImplicit (done ++ [name])
      changeRoot fun root => Fields.update (fun fs => some (fs.put name (.table []))) root done
    changeRoot fun root => Fields.update some root (done ++ [name])
    makeParents (done ++ [name]) path

def enter (key : Key) (ofList : Bool) : Build Unit := do
  let parents := key.dropLast
  let name := key.getLastD ""
  makeParents [] parents
  modify fun b => { b with context := parents }
  if ofList then
    changeRoot fun root => Fields.update (fun fs =>
      match fs.lookup name with
      | none => some (fs.put name (.tables [[]]))
      | some (.tables ts) => some (fs.put name (.tables (ts ++ [[]])))
      | some _ => none) root parents
  else setValue name (.table [])
  modify fun b => { b with context := key }

/-- Makes the tables of the names in front of the last one of a key current, one inside the other. -/
def enterParents : (names : Key) → Build Unit
  | [] => pure ()
  | name :: names => do
    let key := (← get).context ++ [name]
    addImplicit key
    enter key false
    enterParents names

def putAt (fs : Fields) (n : Node) : (path : Key) → Option Fields
  | [] => some fs
  | [name] => some (fs.put name n)
  | name :: path =>
    match fs.lookup name with
    | none => (putAt [] n path).map fun inner => fs.put name (.table inner)
    | some (.table inner) => (putAt inner n path).map fun inner => fs.put name (.table inner)
    | some _ => none

mutual

def makeValue (name : String) (ofList : Bool) (v : Value) : Build Node := do
  match v with
  | .scalar s => return .scalar s
  | .array items =>
    noteArray name true
    let items ← makeItems name items
    return .list items
  | .inline pairs =>
    let outer := (← get).context
    let key := outer ++ [name]
    addImplicit key
    enter key ofList
    let fields ← makePairs key [] pairs
    modify fun b => { b with context := outer }
    return .table fields

def makeItems (name : String) (items : List Value) : Build (List Node) := do
  match items with
  | [] => return []
  | item :: items =>
    let n ← makeValue name true item
    let ns ← makeItems name items
    return n :: ns

def makePairs (inside : Key) (done : Fields) (pairs : List Pair) : Build Fields := do
  match pairs with
  | [] => return done
  | p :: pairs =>
    let (key, n) ← makePair p
    modify fun b => { b with context := inside }
    match putAt done n key with
    | none => refuse
    | some done => makePairs inside done pairs

def makePair (p : Pair) : Build (Key × Node) := do
  match p with
  | .mk key value =>
    let name := key.getLastD ""
    enterParents key.dropLast
    modify fun b => { b with keys := b.keys ++ [b.context ++ [name]] }
    let n ← makeValue name false value
    setValue name n
    noteArray name (match value with
      | .array _ => true
      | _ => false)
    return (key, n)

end

def addLine : Line → Build Unit
  | .table key => do
    enter key false
    noteArray "" false
    modify fun b => { b with keys := b.keys ++ [key] }
  | .tableOfList key => do
    enter key true
    noteArray "" false
    modify fun b => { b with keys := b.keys ++ [key] }
  | .pair p => do
    let outer := (← get).context
    let _ ← makePair p
    modify fun b => { b with context := outer }

/-- The tables of a configuration text and the keys that it writes. -/
structure Document where
  root : Fields
  /-- The keys that were written, in order. -/
  keys : List Key

def Document.ofLines? (lines : List Line) : Option Document :=
  ((lines.forM addLine).run ⟨[], [], [], [], []⟩).map fun (_, b) => ⟨b.root, b.keys⟩

end MiniJam.Toml
