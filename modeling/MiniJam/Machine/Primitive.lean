import MiniJam.Machine.Exec

/-!
# Primitive routines

A primitive takes its operands from the top of the stack and leaves its result there.  Arithmetic
is exact: a result that is not a word fails the program.
-/

namespace MiniJam.Machine

namespace Exec

def boolWord (b : Bool) : Int := if b then 1 else 0

/-- Fails the program unless `x` is a word. -/
def checkWord (x : Int) : Exec Int := do
  require (minWord ≤ x && x ≤ maxWord) (.overflow x)
  return x

/-- Replaces the word on top of the stack by the result of `f` on it. -/
def unary (f : Int → Exec Int) : Exec Unit := do
  let x ← top1
  let r ← f x
  setTop r

/-- Replaces the two words on top of the stack by the result of `f` on them. -/
def binary (f : Int → Int → Exec Int) : Exec Unit := do
  let (x, y) ← top2
  let r ← f x y
  drop 1
  setTop r

/-- Replaces the two words on top of the stack by the truth value of a relation. -/
def compare (rel : Int → Int → Bool) : Exec Unit :=
  binary fun x y => pure (boolWord (rel x y))

/-- Replaces the two words on top of the stack by the exact result of `f`. -/
def arith (f : Int → Int → Int) : Exec Unit :=
  binary fun x y => checkWord (f x y)

/-- Replaces the two words on top of the stack by the exact result of a division. -/
def divide (f : Int → Int → Int) : Exec Unit :=
  binary fun x y => do
    require (y != 0) (.zeroDivide x)
    checkWord (f x y)

/-- Sets `n` words from `addr` on to zero. -/
def clear (addr : Int) : Nat → Exec Unit
  | 0 => pure ()
  | n + 1 => do
    setWord addr 0
    clear (addr + 1) n

/-- Reserves `size` zero words with a header in front of them at the top of the heap, and gives the
address of the first. -/
def allocate (tag size : Int) : Exec Int := do
  require (0 ≤ size) (.allocation size)
  let total := size + headerWords
  checkSpace total
  modify fun m => { m with ht := m.ht - total }
  let ht := (← get).ht
  setWord ht tag
  setWord (ht + 1) size
  clear (ht + headerWords) size.toNat
  return ht + headerWords

/-- Fails the program unless `addr` is an array with an element at `index`. -/
def arrayIndex (addr index : Int) : Exec Unit := do
  heapRef addr
  let tag ← word (addr + headerClass)
  require (tag == arrayTag) (.notAnArray addr)
  let n ← word (addr + headerSize)
  let hb := (← get).hb
  require (0 ≤ index && index < n && addr + index < hb) (.arrayIndex index n)

/-- Fails the program unless `addr` is an object with a field at `index`. -/
def fieldIndex (addr index : Int) : Exec Unit := do
  heapRef addr
  let n ← word (addr + headerSize)
  let hb := (← get).hb
  require (0 ≤ index && index < n && addr + index < hb) (.fieldIndex index n)

/-- The text of the character with number `c`; numbers of no character give U+FFFD. -/
def charText (c : Int) : String :=
  if 0 ≤ c ∧ c.toNat.isValidChar then String.singleton (Char.ofNat c.toNat) else "�"

def primitive : Prim → Exec Unit
  | .id => pure ()
  | .not => unary fun x => pure (boolWord (x != 1))
  | .and => compare fun x y => x == 1 && y == 1
  | .or => compare fun x y => x == 1 || y == 1
  | .succ => unary fun x => checkWord (x + 1)
  | .pred => unary fun x => checkWord (x - 1)
  | .neg => unary fun x => checkWord (-x)
  | .add => arith fun x y => x + y
  | .sub => arith fun x y => x - y
  | .mult => arith fun x y => x * y
  | .div => divide Int.tdiv
  | .mod => divide Int.tmod
  | .lt => compare fun x y => x < y
  | .le => compare fun x y => x ≤ y
  | .ge => compare fun x y => y ≤ x
  | .gt => compare fun x y => y < x
  | .eq => compare fun x y => x == y
  | .ne => compare fun x y => x != y
  | .eol => do push (boolWord ((← get).lastChar == 10))
  | .eof => do push (boolWord ((← get).lastChar == -1))
  | .get => do
    let addr ← top1
    let c ← readChar
    drop 1
    write addr c
  | .put => do
    let c ← pop
    print (charText c)
  | .geteol => do
    let _ ← readAfter (· != 10)
  | .puteol => print "\n"
  | .getint => do
    let addr ← top1
    let n ← readInt
    let w ← checkWord n
    drop 1
    write addr w
  | .putint => do
    let n ← pop
    print (toString n)
  | .putintnl => do
    let n ← pop
    print s!">>> {n}\n"
  | .alloc => do
    let size ← top1
    require (0 ≤ size) (.allocation size)
    checkSpace size
    modify fun m => { m with ht := m.ht - size }
    setTop (← get).ht
  | .dispose => do
    let _ ← pop
  | .newobj => do
    let (tag, size) ← top2
    let addr ← allocate tag size
    drop 2
    push addr
  | .newarr => do
    let size ← top1
    let addr ← allocate arrayTag size
    setTop addr
  | .arrayref => do
    let (addr, index) ← top2
    arrayIndex addr index
    drop 1
    setTop (← word (addr + index))
  | .arrayupd => do
    let (addr, index, value) ← top3
    arrayIndex addr index
    setWord (addr + index) value
    drop 3
  | .fieldref => do
    let (addr, index) ← top2
    fieldIndex addr index
    drop 1
    setTop (← word (addr + index))
  | .fieldupd => do
    let (addr, index, value) ← top3
    fieldIndex addr index
    setWord (addr + index) value
    drop 3

end Exec

end MiniJam.Machine
