import MiniJam.Machine.Basic

/-!
# The state of a machine as text

A dump shows the heap and the stack word by word from the top down, with the registers that point
into them and the call frames set apart.  It is written in pieces, and ends early if a register
points outside the data store.
-/

namespace MiniJam.Machine

open Text

/-- Text that is written piece by piece, until a fault ends it. -/
abbrev Writer := EStateM Fault (Array String)

namespace Writer

def piece (s : String) : Writer Unit :=
  modify (·.push s)

def line (s : String) : Writer Unit :=
  piece (s ++ "\n")

def pieces (w : Writer Unit) : List String × Option Fault :=
  match w #[] with
  | .ok _ ps => (ps.toList, none)
  | .error f ps => (ps.toList, some f)

end Writer

open Writer

def shownWord (m : Machine) (addr : Int) : Writer Int := do
  if addr < 0 then throw ⟨addr, m.data.size⟩
  match m.data[addr.toNat]? with
  | some w => return w.toInt
  | none => throw ⟨addr, m.data.size⟩

def edge : String := "            |--------|"

/-- Shows the `n` heap words from `addr` down. -/
def dumpHeap (m : Machine) (addr : Int) : Nat → Writer Unit
  | 0 => pure ()
  | n + 1 => do
    let marker :=
      if addr = m.ob then "OB--> " else if addr = m.ht then "HT--> " else "      "
    let w ← m.shownWord addr
    line (padRight 6 s!"{addr}:" ++ marker ++ "|" ++ padLeft 8 (toString w) ++ "|")
    dumpHeap m (addr - 1) n

/-- A stack word, labelled if it belongs to the link data of the frame at `link`. -/
def stackCell (link : Int) (addr : Int) (w : Int) : String :=
  let labelled (label : String) := "|" ++ label ++ "=" ++ padLeft 5 (toString w) ++ "|"
  if link ≠ 0 ∧ addr = link then labelled "OB"
  else if link ≠ 0 ∧ addr = link + 1 then labelled "DL"
  else if link ≠ 0 ∧ addr = link + 2 then labelled "RA"
  else "|" ++ padLeft 8 (toString w) ++ "|"

/-- Shows the lowest `n` stack words from the top down; `link` is the frame they belong to. -/
def dumpStack (m : Machine) (link : Int) : Nat → Writer Unit
  | 0 => pure ()
  | n + 1 => do
    let addr : Int := n
    let marker := if addr = 0 then "SB--> " else if addr = m.lb then "LB--> " else "      "
    let w ← m.shownWord addr
    let className := match m.symbols.bind (·.classAt? addr) with
      | some c => " " ++ c.name
      | none => ""
    line (padRight 6 s!"{addr}: " ++ marker ++ stackCell link addr w ++ className)
    if addr = link then
      line edge
      let outer ← if addr + 1 < m.hb then m.shownWord (addr + 1) else pure link
      dumpStack m outer n
    else
      dumpStack m link n

/-- The heading of a dump: the current instruction, and the method and line it belongs to. -/
def dumpHeading (m : Machine) : Writer Unit := do
  line ""
  line s!"At instruction {m.cp}, state of mJAM data store and registers is:"
  match m.symbols.bind (·.methodContaining? m.cp) with
  | some e =>
    match m.symbols.bind (·.line? m.cp) with
    | some l => line s!"(in {e.name}, line {wrap64 (l + 1)})"
    | none => line s!"(in {e.name})"
  | none => pure ()
  line ""

def dump (m : Machine) : Writer Unit := do
  m.dumpHeading
  if m.ht = m.hb then
    line (edge ++ "          (heap is empty)")
  else
    line "      HB--> "
    line edge
    m.dumpHeap (m.hb - 1) (m.hb - m.ht).toNat
    line edge
  line "            |////////|"
  line "            |////////|"
  if m.st = 0 then
    line (edge ++ "          (stack is empty)")
  else
    line "      ST--> |////////|"
    line edge
    m.dumpStack m.lb m.st.toNat
  line ""

/-- Shows the condition of the machine; unless its program halted, the detail of the failure and
the dump follow. -/
def showStatus (m : Machine) : Writer Unit := do
  line ""
  line s!"*** {m.state.condition.sentence}"
  if m.state ≠ .halted then
    if m.state.detail ≠ "" then
      line s!"*** {m.state.detail}"
    m.dump

end MiniJam.Machine
