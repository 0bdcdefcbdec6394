import MiniJam.Code.Package
import MiniJam.Proofs.Machine.Actions
import MiniJam.Proofs.Semantics.Eval
import MiniJam.Proofs.Typing.Rules

/-!
# Runs in the data store

How a machine holds what a run of a package has reached so far.  A `Cell` is one word of the data
store with its meaning: a value, or a number that only the machine uses.  A `Config` is a state of
the machine told in cells: the stack is a list of cells, and the heap is that of the run.  Blocks lie
in the data store one below the other, the first at its end, each with its two header words in
front; the address of a block depends on the sizes of those before it only, so that it stays the
same for the rest of the run.

`Shows X m c` says that the machine `m` is in the configuration `c`.  There is one lemma for every
way in which an instruction changes a configuration.
-/

namespace MiniJam

open List Machine

namespace Simulation

open Semantics

/-! ### Cells -/

/-- A word of the data store. -/
inductive Cell where
  | val (v : Value)
  | raw (n : Int)

/-- The positions of the fields that every instance of a class has. -/
def instanceFields (c : ClassDecl) : List Nat :=
  (c.fields.zipIdx.filter (!·.1.isStatic)).map (·.2)

variable (p : Package)

/-- The values in a block, in the order in which they lie in the data store. -/
def values : Block → List Value
  | .object cls fields => (((p.class? cls).map instanceFields).getD []).map fields
  | .array _ elems => elems

def tag : Block → Int
  | .object cls _ => Layout.descriptorAddr p cls
  | .array .. => arrayTag

def cells (b : Block) : List Cell :=
  .raw (tag p b) :: .raw (values p b).length :: (values p b).map .val

def span (b : Block) : Nat := (values p b).length + 2

def heapWords (heap : List Block) : Nat := total (heap.map (span p))

@[simp] theorem length_cells (b : Block) : (cells p b).length = span p b := by
  simp [cells, span]

theorem total_take_le (ns : List Nat) (k : Nat) : total (ns.take k) ≤ total ns := by
  have h : total ns = total (ns.take k) + total (ns.drop k) := by
    rw [← total_append, take_append_drop]
  omega

theorem total_take_succ {ns : List Nat} {k n : Nat} (h : ns[k]? = some n) :
    total (ns.take (k + 1)) = total (ns.take k) + n := by
  rw [take_add_one, h, total_append]
  simp [total]

theorem total_take_mono (ns : List Nat) (h : j ≤ k) : total (ns.take j) ≤ total (ns.take k) := by
  have hle := total_take_le (ns.take k) j
  rwa [take_take, Nat.min_eq_left h] at hle

/-! ### Addresses -/

/-- A well-typed package and the machine that its code is loaded into, with a data store of `size`
words and an output that starts with `text`.  All addresses of code and data are words. -/
structure Target where
  package : Package
  typed : package.Typed
  /-- The method where the package starts. -/
  entry : MemberId
  entry_eq : package.entry = some entry
  /-- Whether instance methods are called through the descriptor of the instance's class. -/
  dynamic : Bool
  capacity : Int
  size : Nat
  text : String
  limit : Option OutputLimit
  size_le : (size : Int) ≤ maxWord
  capacity_le : capacity ≤ maxInt64
  fits_capacity : (Assembly.ofPackage package dynamic entry).program.size ≤ capacity
  program_le : ((Assembly.ofPackage package dynamic entry).program.size : Int) ≤ maxWord

def Target.assembly (X : Target) : Assembly := .ofPackage X.package X.dynamic X.entry

theorem Target.fits (X : Target) : X.assembly.program.size ≤ X.capacity := X.fits_capacity

def Target.Callable (X : Target) : Prop := X.capacity + Prim.count ≤ maxInt64

theorem Target.short (X : Target) : (X.assembly.program.size : Int) ≤ maxWord := X.program_le

variable {p} (X : Target)

def Target.base (heap : List Block) (addr : Nat) : Int :=
  X.size - total ((heap.map (span X.package)).take (addr + 1))

def Target.encode (heap : List Block) : Value → Int
  | .int n => n.toInt
  | .bool b => Machine.Exec.boolWord b
  | .null => nullWord
  | .ref addr => X.base heap addr + headerWords

def Live (heap : List Block) : Value → Prop
  | .ref addr => addr < heap.length
  | .int _ | .bool _ | .null => True

def Target.word (heap : List Block) : Cell → Int
  | .val v => X.encode heap v
  | .raw n => n

def Cell.Good (heap : List Block) : Cell → Prop
  | .val v => Live heap v
  | .raw n => minWord ≤ n ∧ n ≤ maxWord

/-- The cell for a number of which the machine keeps the low bits only. -/
def Cell.low (n : Int) : Cell := .raw (Int32.ofInt n).toInt

/-- The blocks of a heap have the same sizes in another one, which may have more. -/
def Target.Extends (heap heap' : List Block) : Prop :=
  heap.map (span X.package) <+: heap'.map (span X.package)

variable {X} {heap heap' : List Block}

theorem Target.extends_append (heap : List Block) (b : Block) : X.Extends heap (heap ++ [b]) := by
  simp [Target.Extends]

variable {a : Nat} {b : Block}

theorem map_span_set (hb : heap[a]? = some b) (hspan : span p b' = span p b) :
    (heap.set a b').map (span p) = heap.map (span p) := by
  obtain ⟨hlt, rfl⟩ := List.getElem?_eq_some_iff.1 hb
  rw [map_set, hspan]
  refine ext_getElem (by simp) fun i h₁ h₂ => ?_
  rw [getElem_set]
  split
  · simp only [getElem_map]
    congr
  · rfl

theorem Target.extends_set (hb : heap[a]? = some b) (hspan : span X.package b' = span X.package b) :
    X.Extends heap (heap.set a b') := by
  have hmap := map_span_set hb hspan
  exact ⟨[], by rw [append_nil, hmap]⟩

section

variable (h : X.Extends heap heap')

include h

theorem Target.Extends.length_le : heap.length ≤ heap'.length := by
  simpa using List.IsPrefix.length_le h

theorem Target.Extends.base_eq {a : Nat} (ha : a < heap.length) :
    X.base heap' a = X.base heap a := by
  obtain ⟨rest, hrest⟩ := h
  rw [Target.base, Target.base, ← hrest, take_append_of_le_length (by simpa using Nat.succ_le_of_lt ha)]

theorem Live.mono (hv : Live heap v) : Live heap' v := by
  cases v with
  | ref a => exact Nat.lt_of_lt_of_le hv h.length_le
  | int | bool | null => trivial

theorem Target.Extends.encode_eq (hv : Live heap v) : X.encode heap' v = X.encode heap v := by
  cases v with
  | ref a => simp only [Target.encode, h.base_eq hv]
  | int | bool | null => rfl

theorem Cell.Good.mono {c : Cell} (hc : c.Good heap) : c.Good heap' := by
  cases c with
  | val v => exact Live.mono h hc
  | raw n => exact hc

theorem Target.Extends.word_eq {c : Cell} (hc : c.Good heap) : X.word heap' c = X.word heap c := by
  cases c with
  | val v => exact h.encode_eq hc
  | raw n => rfl

end

theorem Target.base_add_span (h : heap[a]? = some b) : X.base heap a + span X.package b =
      X.size - total ((heap.map (span X.package)).take a) := by
  have hspan : (heap.map (span X.package))[a]? = some (span X.package b) := by
    simp [h]
  rw [Target.base, total_take_succ hspan]
  omega

theorem Cell.good_low (heap : List Block) (n : Int) : (Cell.low n).Good heap := by
  have lower := Int32.le_toInt (.ofInt n)
  have upper := Int32.toInt_lt (.ofInt n)
  simp only [Cell.low, Cell.Good, minWord, maxWord]
  omega

theorem Cell.low_eq {n : Int} (h : minWord ≤ n ∧ n ≤ maxWord) : Cell.low n = .raw n :=
  congrArg Cell.raw (toInt_ofInt_of_mem h)

theorem span_le_heapWords (hb : heap[a]? = some b) : span p b ≤ heapWords p heap := by
  have hspan : (heap.map (span p))[a]? = some (span p b) := by simp [hb]
  have hle := total_take_le (heap.map (span p)) (a + 1)
  rw [total_take_succ hspan] at hle
  exact Nat.le_trans (Nat.le_add_left _ _) hle

theorem heapWords_append (heap : List Block) (b : Block) :
    heapWords p (heap ++ [b]) = heapWords p heap + span p b := by
  simp [heapWords, total_append, total]

theorem Target.base_append (heap : List Block) (b : Block) :
    X.base (heap ++ [b]) heap.length = X.size - heapWords X.package (heap ++ [b]) := by
  have htake : ((heap ++ [b]).map (span X.package)).take (heap.length + 1) =
      (heap ++ [b]).map (span X.package) := take_of_length_le (by simp)
  rw [Target.base, htake, ← heapWords]

theorem Target.base_add_span_le (h : heap[a']? = some b) (hlt : a < a') :
    X.base heap a' + span X.package b ≤ X.base heap a := by
  have hmono := total_take_mono (heap.map (span X.package)) (j := a + 1) hlt
  rw [base_add_span h, Target.base]
  omega

theorem Target.base_nonneg (hroom : heapWords X.package heap ≤ X.size) (a : Nat) :
    (X.size : Int) - heapWords X.package heap ≤ X.base heap a ∧ 0 ≤ X.base heap a := by
  have hle := total_take_le (heap.map (span X.package)) (a + 1)
  rw [Target.base]
  unfold heapWords at hroom ⊢
  omega

theorem Target.encode_ref_pos (hroom : heapWords X.package heap ≤ X.size) (a : Nat) :
    0 < X.encode heap (.ref a) := by
  have hbase := base_nonneg hroom a
  simp only [Target.encode, headerWords]
  omega

theorem Target.encode_ref_inj (ha : a < heap.length) (ha' : a' < heap.length)
    (h : X.encode heap (.ref a) = X.encode heap (.ref a')) : a = a' := by
  have key : ∀ {i j : Nat}, j < heap.length → i < j →
      X.encode heap (.ref j) < X.encode heap (.ref i) := by
    intro i j hj hij
    have hle := base_add_span_le (X := X) (getElem?_eq_getElem hj) hij
    simp only [Target.encode, span] at hle ⊢
    omega
  obtain hlt | rfl | hlt := Nat.lt_trichotomy a a'
  · exact absurd h (Int.ne_of_gt (key ha' hlt))
  · rfl
  · exact absurd h (Int.ne_of_lt (key ha hlt))

theorem Target.word_mem (hroom : heapWords X.package heap ≤ X.size) {c : Cell}
    (hc : c.Good heap) : minWord ≤ X.word heap c ∧ X.word heap c ≤ maxWord := by
  have hsize := X.size_le
  match c with
  | .raw n => exact hc
  | .val (.int n) =>
    have lower := Int32.le_toInt n
    have upper := Int32.toInt_lt n
    simp only [Target.word, Target.encode, minWord, maxWord]
    omega
  | .val (.bool b) =>
    simp only [Target.word, Target.encode, Machine.Exec.boolWord, minWord, maxWord]
    split <;> omega
  | .val .null => simp [Target.word, Target.encode, nullWord, minWord, maxWord]
  | .val (.ref a) =>
    have hpos := X.encode_ref_pos hroom a
    have hle := X.base_add_span (getElem?_eq_getElem (show a < heap.length from hc))
    simp only [span] at hle
    simp only [Target.word, Target.encode, headerWords, minWord, maxWord] at *
    omega

/-! ### Configurations -/

def lines (ns : List Int) : String := String.join (ns.map fun n => s!">>> {n}\n")

/-- A state of the machine. -/
structure Config where
  /-- The address of the next instruction. -/
  cp : Nat
  lb : Nat
  this : Value
  /-- The words on the stack, the one on top first. -/
  stack : List Cell
  heap : List Block
  printed : List Int

def Holds (X : Target) (m : Machine) (heap : List Block) (addr : Int) (cs : List Cell) : Prop :=
  ∀ (k : Nat) (c : Cell), cs[k]? = some c → c.Good heap ∧ m.peek (addr + k) = X.word heap c

/-- The machine is in a configuration. -/
structure Shows (X : Target) (m : Machine) (c : Config) : Prop where
  program : m.program = X.assembly.program
  capacity : m.capacity = X.capacity
  size : m.hb = X.size
  state : m.state = .running
  cp : m.cp = c.cp
  lb : m.lb = c.lb
  live : Live c.heap c.this
  ob : m.ob = X.encode c.heap c.this
  st : m.st = c.stack.length
  ht : m.ht = X.size - heapWords X.package c.heap
  room : c.stack.length + heapWords X.package c.heap ≤ X.size
  stack : Holds X m c.heap 0 c.stack.reverse
  blocks : ∀ a b, c.heap[a]? = some b → Holds X m c.heap (X.base c.heap a) (cells X.package b)
  output : m.output.text = X.text ++ lines c.printed
  limit : m.output.limit = X.limit

section

variable {m m' : Machine} {addr : Int} {cs : List Cell}

theorem Holds.extend (h : Holds X m heap addr cs) (hext : X.Extends heap heap') :
    Holds X m heap' addr cs :=
  fun k c hk => ⟨(h k c hk).1.mono hext, (h k c hk).2.trans (hext.word_eq (h k c hk).1).symm⟩

theorem holds_append : Holds X m heap addr (cs ++ cs') ↔
      Holds X m heap addr cs ∧ Holds X m heap (addr + cs.length) cs' := by
  constructor
  · refine fun h => ⟨fun k c hk => h k c ?_, fun k c hk => ?_⟩
    · rw [getElem?_append_left (List.getElem?_eq_some_iff.1 hk).1, hk]
    · have hk' := h (cs.length + k) c (by rw [getElem?_append_right (by omega)]; simpa using hk)
      rwa [Int.natCast_add, ← Int.add_assoc] at hk'
  · rintro ⟨h, h'⟩ k c hk
    rw [getElem?_append] at hk
    split at hk
    · exact h k c hk
    · have hk' := h' (k - cs.length) c hk
      rwa [show addr + cs.length + ((k - cs.length : Nat) : Int) = addr + k by omega] at hk'

theorem Holds.poke_of_ne (h : Holds X m heap addr cs) (haddr : 0 ≤ addr) (hx : 0 ≤ x)
    (hne : ∀ k : Nat, k < cs.length → addr + k ≠ x) (w : Int) :
    Holds X (m.poke x w) heap addr cs := by
  intro k c hk
  have hlt := (List.getElem?_eq_some_iff.1 hk).1
  rw [m.peek_poke_of_ne w hx (by omega) (hne k hlt)]
  exact h k c hk

theorem Holds.poke_set (h : Holds X m heap addr cs) (haddr : 0 ≤ addr) {k : Nat}
    (hk : addr + k < m.hb) {c : Cell} (hc : c.Good heap)
    (hroom : heapWords X.package heap ≤ X.size) :
    Holds X (m.poke (addr + k) (X.word heap c)) heap addr (cs.set k c) := by
  intro j c' hj
  rw [getElem?_set] at hj
  split at hj
  · obtain rfl := ‹k = j›
    split at hj
    · cases hj
      exact ⟨hc, m.peek_poke_self ⟨by omega, hk⟩ (X.word_mem hroom hc)⟩
    · cases hj
  · have hne : addr + (j : Int) ≠ addr + k := by omega
    rw [m.peek_poke_of_ne _ (by omega) (by omega) hne]
    exact h j c' hj

end

/-! ### Changes of a configuration -/

namespace Shows

variable {m : Machine} {c : Config}

section

variable (h : Shows X m c)

include h

theorem heapWords_le : heapWords X.package c.heap ≤ X.size := by
  have := h.room
  omega

theorem withCP {cp : Int} {n : Nat} (hcp : cp = n) : Shows X (m.withCP cp) { c with cp := n } :=
  { h with cp := hcp, stack := h.stack, blocks := h.blocks }

theorem withFrame {ob : Int} {this : Value} (hlive : Live c.heap this)
    (hob : ob = X.encode c.heap this) {lb : Int} {n : Nat} (hlb : lb = n) :
    Shows X (m.withFrame ob lb) { c with lb := n, this := this } :=
  { h with lb := hlb, live := hlive, ob := hob, stack := h.stack, blocks := h.blocks }

theorem holds_at (above : List Cell) {below : List Cell} (hstk : c.stack = above ++ cell :: below) :
    cell.Good c.heap ∧ m.peek below.length = X.word c.heap cell := by
  have hat := h.stack below.length cell (by simp [hstk])
  rwa [Int.zero_add] at hat

theorem drop (gone : List Cell) {rest : List Cell} (hstk : c.stack = gone ++ rest) {st : Int}
    (hst : st = rest.length) : Shows X (m.withST st) { c with stack := rest } := by
  have hroom := h.room
  have hhol := h.stack
  rw [hstk, length_append] at hroom
  rw [hstk, reverse_append] at hhol
  exact { h with
    st := hst
    room := by dsimp only; omega
    stack := (holds_append.1 hhol).1
    blocks := h.blocks }

variable {x w : Int} {b : Block}

theorem blocks_poke (hx : 0 ≤ x) (hlt : x < m.ht) (w : Int) {a : Nat} (hb : c.heap[a]? = some b) :
    Holds X (m.poke x w) c.heap (X.base c.heap a) (cells X.package b) := by
  have hbase := X.base_nonneg h.heapWords_le a
  have hht := h.ht
  exact (h.blocks a b hb).poke_of_ne hbase.2 hx (by omega) w

theorem push {cell : Cell} (hc : cell.Good c.heap) {st : Int}
    (hw : w = X.word c.heap cell) (hst' : st = m.st + 1)
    (hroom : c.stack.length + 1 + heapWords X.package c.heap ≤ X.size) :
    Shows X ((m.poke m.st w).withST st) { c with stack := cell :: c.stack } := by
  have hst := h.st
  have hht := h.ht
  have hpoke : Holds X (m.poke m.st w) c.heap 0 (c.stack.reverse ++ [cell]) := by
    refine holds_append.2 ⟨h.stack.poke_of_ne (Int.le_refl 0) (by omega) (fun k hk => ?_) w, ?_⟩
    · rw [length_reverse] at hk
      omega
    intro k c' hk
    obtain ⟨rfl, rfl⟩ : k = 0 ∧ cell = c' := by
      cases k with
      | zero => exact ⟨rfl, by simpa using hk⟩
      | succ k => simp at hk
    have haddr : (0 : Int) + c.stack.reverse.length + ((0 : Nat) : Int) = m.st := by
      rw [length_reverse]
      omega
    rw [haddr, hw]
    exact ⟨hc, m.peek_poke_self ⟨by omega, by rw [h.size]; omega⟩
      (X.word_mem h.heapWords_le hc)⟩
  exact { h with
    size := by simpa using h.size
    st := by simp [hst', hst]
    room := by simpa using hroom
    stack := by rw [reverse_cons]; exact hpoke
    blocks := fun a b hb => h.blocks_poke (by omega) (by omega) w hb }

theorem framed (ho : Live c.heap o) {ob : Int} (hob : ob = X.encode c.heap o)
    (hlb : c.lb ≤ X.size) (hcp : c.cp < X.assembly.program.size)
    (hroom : c.stack.length + 3 + heapWords X.package c.heap ≤ X.size) :
    Shows X (Machine.Exec.framed m m.st ob)
      { c with lb := c.stack.length, this := o
               stack := .raw (c.cp + 1) :: .raw c.lb :: .val c.this :: c.stack } := by
  have hsize := X.size_le
  have hshor := X.short
  have hlb' : Cell.Good c.heap (.raw c.lb) := by
    simp only [Cell.Good, minWord, maxWord] at *
    omega
  have hcp' : Cell.Good c.heap (.raw (c.cp + 1)) := by
    simp only [Cell.Good, minWord, maxWord] at *
    omega
  have hthis : Cell.Good c.heap (.val c.this) := h.live
  have hst : m.st + 3 = m.st + 1 + 1 + 1 := by omega
  have h₁ := h.push hthis h.ob rfl (by omega)
  have h₂ := h₁.push hlb' h.lb rfl (by simp only [length_cons]; omega)
  have h₃ := h₂.push hcp' (congrArg (· + 1) h.cp) hst (by simp only [length_cons]; omega)
  have haddr : m.st + 1 + 1 = m.st + 2 := by omega
  simp only [withST_st, haddr] at h₃
  exact h₃.withFrame ho hob h.st

theorem setStack (above : List Cell) {below : List Cell} {old new : Cell}
    (hstk : c.stack = above ++ old :: below) (hnew : new.Good c.heap)
    (hx : x = below.length) (hw : w = X.word c.heap new) :
    Shows X (m.poke x w) { c with stack := above ++ new :: below } := by
  have hht := h.ht
  have hr := h.room
  have hp := h.stack.poke_set (Int.le_refl 0) (k := below.length)
    (by rw [h.size, Int.zero_add]; simp [hstk] at hr; omega) hnew h.heapWords_le
  rw [Int.zero_add, ← hw, ← hx] at hp
  have hset : c.stack.reverse.set below.length new = (above ++ new :: below).reverse := by
    simp [hstk]
  have hlen : c.stack.length = (above ++ new :: below).length := by simp [hstk]
  have hlt : below.length < c.stack.length := by
    simp [hstk]
    omega
  exact { h with
    size := by simpa using h.size
    st := hlen ▸ h.st
    room := hlen ▸ hr
    stack := hset ▸ hp
    blocks := fun a b hb => h.blocks_poke (by omega) (by omega) w hb }

theorem setBlock {a k : Nat} {b' : Block} {v : Value} (hb : c.heap[a]? = some b)
    (hb' : cells X.package b' = (cells X.package b).set k (.val v))
    (hk : k < span X.package b) (hv : Live c.heap v)
    (hx : x = X.base c.heap a + k) (hw : w = X.encode c.heap v) :
    Shows X (m.poke x w) { c with heap := c.heap.set a b' } := by
  have hs : span X.package b' = span X.package b := by
    rw [← length_cells, hb', length_set, length_cells]
  have hext : X.Extends c.heap (c.heap.set a b') := X.extends_set hb hs
  have hws : heapWords X.package (c.heap.set a b') = heapWords X.package c.heap := by
    rw [heapWords, map_span_set hb hs, heapWords]
  have hbase := X.base_nonneg h.heapWords_le a
  have htop := X.base_add_span hb
  have hlt := (List.getElem?_eq_some_iff.1 hb).1
  have hroom := h.room
  subst hx
  refine { h with
    size := by simpa using h.size
    live := h.live.mono hext
    ob := by simpa [hext.encode_eq h.live] using h.ob
    ht := by simpa [hws] using h.ht
    room := by simpa [hws] using h.room
    stack := ?_
    blocks := ?_ }
  · refine (h.stack.poke_of_ne (Int.le_refl 0) (by omega) (fun j hj => ?_) w).extend hext
    rw [length_reverse] at hj
    omega
  · intro a₁ b₁ hb₁
    rw [getElem?_set] at hb₁
    split at hb₁
    · obtain rfl := ‹a = a₁›
      obtain rfl : b' = b₁ := by simpa [hlt] using hb₁
      rw [hext.base_eq hlt, hb', hw]
      exact ((h.blocks a b hb).poke_set hbase.2 (by rw [h.size]; omega) (c := .val v) hv
        h.heapWords_le).extend hext
    · have hlt₁ := (List.getElem?_eq_some_iff.1 hb₁).1
      have hbase₁ := X.base_nonneg h.heapWords_le a₁
      rw [hext.base_eq hlt₁]
      refine ((h.blocks a₁ b₁ hb₁).poke_of_ne hbase₁.2 (by omega) (fun j hj => ?_) w).extend hext
      rw [length_cells] at hj
      obtain hlt' | hlt' := Nat.lt_or_gt_of_ne ‹a ≠ a₁›
      · have := X.base_add_span_le hb₁ hlt'
        omega
      · have := X.base_add_span_le hb hlt'
        omega

theorem withData {data : Array Int32} (hsize : data.size = m.data.size)
    (hp : ∀ x, 0 ≤ x → x < m.st ∨ m.ht ≤ x → Machine.peek { m with data := data } x = m.peek x) :
    Shows X { m with data := data } c := by
  have hst := h.st
  have hht := h.ht
  refine { h with
    size := (congrArg Nat.cast hsize).trans h.size
    stack := fun k cell hk => ?_
    blocks := fun a b hb k cell hk => ?_ }
  · have hlt := (List.getElem?_eq_some_iff.1 hk).1
    rw [length_reverse] at hlt
    rw [hp _ (by omega) (.inl (by omega))]
    exact h.stack k cell hk
  · have hbase := X.base_nonneg h.heapWords_le a
    rw [hp _ (by omega) (.inr (by omega))]
    exact h.blocks a b hb k cell hk

theorem grow {ht : Int} (hroom : c.stack.length + heapWords X.package (c.heap ++ [b]) ≤ X.size)
    (hht : ht = m.ht - span X.package b) (hb : Holds X m c.heap ht (cells X.package b)) :
    Shows X (m.withHT ht) { c with heap := c.heap ++ [b] } := by
  have hext := X.extends_append c.heap b
  have hws := heapWords_append (p := X.package) c.heap b
  have hold := h.ht
  have hbase : X.base (c.heap ++ [b]) c.heap.length = ht := by
    rw [X.base_append]
    omega
  refine { h with
    live := h.live.mono hext
    ob := by simpa [hext.encode_eq h.live] using h.ob
    ht := by simp only [withHT_ht]; omega
    room := hroom
    stack := h.stack.extend hext
    blocks := ?_ }
  intro a b' hb'
  obtain ha | rfl := Nat.lt_or_eq_of_le (show a ≤ c.heap.length by
      have := (List.getElem?_eq_some_iff.1 hb').1
      simp only [length_append, length_singleton] at this
      omega)
  · rw [getElem?_append_left ha] at hb'
    rw [hext.base_eq ha]
    exact (h.blocks a b' hb').extend hext
  · obtain rfl : b = b' := by simpa using hb'
    rw [hbase]
    exact hb.extend hext

theorem print (n : Int) : Shows X { m with output := m.output.append s!">>> {n}\n" }
      { c with printed := c.printed ++ [n] } :=
  { h with
    stack := h.stack
    blocks := h.blocks
    output := by simp [Output.append, h.output, lines, String.append_assoc]
    limit := h.limit }

end

end Shows

end Simulation

end MiniJam
