import Mathlib.Logic.Function.Basic
import MiniJam.Proofs.Machine.Actions

/-!
# Objects in the heap

A heap is a map from addresses to blocks, a block being a tag with a list of words.
`Machine.Represents m H` says that the words from the heap top to the heap base are exactly the
blocks of `H`, each behind its header of tag and length.  `HeapCall.Means` says what the primitives
for objects and arrays do to such a map, without a word about the machine.

* `Machine.conforms_answer` : one call of a primitive does to the machine what it means for the map.
* `HeapMap.word?_of_runs` : over a sequence of calls, a word is what was last stored at that index
  of that block, or zero since the block was made.
* `Machine.heap_calls_mean` : both for the machine, for one call and for every sequence of calls,
  whatever happens on the stack in between.
-/

namespace MiniJam

open List Function
open Machine (headerWords headerClass headerSize arrayTag)

/-! ### Maps of blocks -/

/-- A block of the heap. -/
structure HeapBlock where
  /-- The class of an object, or the tag of arrays. -/
  tag : Int
  words : List Int
  deriving DecidableEq, Repr

/-- The address `x` belongs to the block at `a`, to its header or to its words. -/
def HeapBlock.Spans (b : HeapBlock) (a x : Int) : Prop :=
  a - headerWords ≤ x ∧ x < a + b.words.length

namespace HeapBlock

variable (b : HeapBlock) (a : Int)

theorem spans_tag : b.Spans a (a + headerClass) := by
  simp only [Spans, headerWords, headerClass]
  omega

theorem spans_length : b.Spans a (a + headerSize) := by
  simp only [Spans, headerWords, headerSize]
  omega

theorem spans_word (hi : i < b.words.length) : b.Spans a (a + i) := by
  simp only [Spans, headerWords]
  omega

end HeapBlock

abbrev HeapMap := Int → Option HeapBlock

/-- The word at an index of the block at `a`. -/
def HeapMap.word? (H : HeapMap) (a : Int) (i : Nat) : Option Int :=
  (H a).bind fun b => b.words[i]?

/-! ### Calls and what they mean -/

/-- The two families of primitives that reach into a block. -/
inductive HeapKind where
  | field
  | array
  deriving DecidableEq, Repr

/-- Elements are those of arrays only; any block has fields. -/
def HeapKind.Admits (k : HeapKind) (b : HeapBlock) : Prop := k = .array → b.tag = arrayTag

/-- A call of a primitive on the heap, with its operands. -/
inductive HeapCall where
  | newobj (cls size : Int)
  | newarr (size : Int)
  | ref (k : HeapKind) (addr index : Int)
  | upd (k : HeapKind) (addr index value : Int)
  deriving DecidableEq, Repr

/-- How a call ends. -/
inductive HeapReply where
  /-- With a word on the stack. -/
  | gives (w : Int)
  | done
  /-- The program fails. -/
  | fails (why : Condition)
  /-- The machine itself goes wrong. -/
  | breaks
  deriving DecidableEq, Repr

def HeapReply.ofStop : Machine.Stop → HeapReply
  | .failure why => .fails why.condition
  | _ => .breaks

namespace HeapCall

def prim : HeapCall → Prim
  | newobj .. => .newobj
  | newarr .. => .newarr
  | ref .field .. => .fieldref
  | ref .array .. => .arrayref
  | upd .field .. => .fieldupd
  | upd .array .. => .arrayupd

def operands : HeapCall → List Int
  | newobj cls size => [cls, size]
  | newarr size => [size]
  | ref _ addr index => [addr, index]
  | upd _ addr index value => [addr, index, value]

theorem operands_pos (c : HeapCall) : 0 < c.operands.length := by
  cases c <;> exact Nat.succ_pos _

def gives : HeapCall → Bool
  | upd .. => false
  | _ => true

def block? : HeapCall → Option (Int × Int)
  | newobj cls size => some (cls, size)
  | newarr size => some (arrayTag, size)
  | _ => none

def target? : HeapCall → Option (HeapKind × Int × Int)
  | ref k addr index => some (k, addr, index)
  | upd k addr index _ => some (k, addr, index)
  | _ => none

/-- What a call does to a heap when `room` words are free. -/
inductive Means (room : Int) (H : HeapMap) : HeapCall → HeapReply → HeapMap → Prop
  /-- A block of zeros at an address that no block had. -/
  | alloc {c : HeapCall} {tag : Int} {n : Nat} {a : Int} (hc : c.block? = some (tag, (n : Int)))
      (hroom : n + headerWords ≤ room) (hnull : a ≠ 0) (hnew : H a = none) :
      Means room H c (.gives a) (Function.update H a (some ⟨tag, List.replicate n 0⟩))
  | negative {c : HeapCall} {tag n : Int} (hc : c.block? = some (tag, n)) (hn : n < 0) :
      Means room H c (.fails .invalidInstruction) H
  | full {c : HeapCall} {tag n : Int} (hc : c.block? = some (tag, n)) (hn : 0 ≤ n)
      (hroom : room < n + headerWords) : Means room H c (.fails .dataStoreFull) H
  | ref {k : HeapKind} {a : Int} {b : HeapBlock} {i : Nat} {w : Int} (hb : H a = some b)
      (hk : k.Admits b) (hw : b.words[i]? = some w) : Means room H (.ref k a i) (.gives w) H
  | upd {k : HeapKind} {a : Int} {b : HeapBlock} {i : Nat} {v : Int} (hb : H a = some b)
      (hk : k.Admits b) (hi : i < b.words.length) :
      Means room H (.upd k a i v) .done
        (Function.update H a (some { b with words := b.words.set i v }))
  | null {c : HeapCall} {k : HeapKind} {i : Int} (hc : c.target? = some (k, 0, i)) :
      Means room H c (.fails .heapRef) H
  | outside {c : HeapCall} {k : HeapKind} {a i : Int} {b : HeapBlock}
      (hc : c.target? = some (k, a, i)) (hb : H a = some b)
      (hout : ¬ (k.Admits b ∧ 0 ≤ i ∧ i < b.words.length)) :
      Means room H c (.fails .arrayIndex) H

/-- The block at `a` is made by a call. -/
def Creates (c : HeapCall) (r : HeapReply) (a : Int) : Prop := c.block?.isSome ∧ r = .gives a

/-- The word at an index of the block at `a` after a call, where `w` was there before. -/
def writes (a : Int) (i : Nat) (w : Option Int) : HeapCall → HeapReply → Option Int
  | newobj _ n, .gives a' | newarr n, .gives a' => if a' = a ∧ i < n.toNat then some 0 else w
  | upd _ a' i' v, .done => if a' = a ∧ i' = i then some v else w
  | _, _ => w

end HeapCall

namespace HeapMap

/-- A sequence of calls leads from one map to another. -/
inductive Runs : HeapMap → List (HeapCall × HeapReply) → HeapMap → Prop
  | nil (H : HeapMap) : Runs H [] H
  | cons {room : Int} {H H₁ H' : HeapMap} {c : HeapCall} {r : HeapReply}
      {rest : List (HeapCall × HeapReply)} (hc : c.Means room H r H₁) (hrest : Runs H₁ rest H') :
      Runs H ((c, r) :: rest) H'

/-- The word last stored at an index of the block at `a`, where `w` was there at first. -/
def written (a : Int) (i : Nat) (w : Option Int) : List (HeapCall × HeapReply) → Option Int
  | [] => w
  | (c, r) :: rest => written a i (c.writes a i w r) rest

/-- Every call names null, a block that is known, or one that an earlier call made. -/
def Known (known : Int → Prop) : List (HeapCall × HeapReply) → Prop
  | [] => True
  | (c, r) :: rest => (∀ k a i, c.target? = some (k, a, i) → a = 0 ∨ known a) ∧
      Known (fun a => known a ∨ c.Creates r a) rest

variable {H H' : HeapMap} {calls : List (HeapCall × HeapReply)}

theorem word?_of_means {room : Int} {c : HeapCall} {r : HeapReply}
    (h : c.Means room H r H') (a : Int) (i : Nat) :
    H'.word? a i = c.writes a i (H.word? a i) r := by
  cases h with
  | @alloc _ tag n a' hc _ _ hnew =>
    have hwrit : c.writes a i (H.word? a i) (.gives a') =
        if a' = a ∧ i < n then some 0 else H.word? a i := by
      cases c <;> simp_all [HeapCall.block?, HeapCall.writes]
    rw [hwrit]
    by_cases ha : a = a'
    · -- The block is new: where it has no word, there was none before.
      subst ha
      by_cases hi : i < n <;> simp [HeapMap.word?, hnew, hi]
    · simp [HeapMap.word?, ha, Ne.symm ha]
  | ref => rfl
  | negative | full | null | outside => cases c <;> rfl
  | @upd k a' b i' v hb _ hi =>
    simp only [HeapCall.writes, Int.natCast_inj]
    by_cases ha : a = a'
    · subst ha
      by_cases hi' : i' = i
      · subst hi'
        simp [HeapMap.word?, hi]
      · simp [HeapMap.word?, hb, hi']
    · simp [HeapMap.word?, ha, Ne.symm ha]

theorem word?_of_runs (h : H.Runs calls H') (a : Int) (i : Nat) :
    H'.word? a i = written a i (H.word? a i) calls := by
  induction h with
  | nil => rfl
  | cons hc _ ih => rw [ih, word?_of_means hc, written]

theorem exists_of_runs_append (h : H.Runs (calls ++ calls') H') :
    ∃ H₁, H.Runs calls H₁ ∧ H₁.Runs calls' H' := by
  induction calls generalizing H with
  | nil => exact ⟨H, .nil H, h⟩
  | cons call calls ih =>
    cases h with
    | cons hc hrest =>
      obtain ⟨H₁, hbef, haft⟩ := ih hrest
      exact ⟨H₁, .cons hc hbef, haft⟩

theorem gives_of_runs {before rest : List (HeapCall × HeapReply)} {a w : Int} {i : Nat}
    (h : H.Runs (before ++ (.ref k a i, .gives w) :: rest) H') :
    written a i (H.word? a i) before = some w := by
  obtain ⟨H₁, hbef, hrest⟩ := exists_of_runs_append h
  cases hrest with
  | cons hc _ =>
    rw [← word?_of_runs hbef]
    generalize hi : (i : Int) = index at hc
    cases hc with
    | alloc hc => cases hc
    | ref hb _ hw =>
      obtain rfl := Int.natCast_inj.1 hi
      simp [HeapMap.word?, hb, hw]

theorem isSome_of_means {room : Int} {c : HeapCall} {r : HeapReply}
    (h : c.Means room H r H') {a : Int} (ha : (H a).isSome ∨ c.Creates r a) : (H' a).isSome := by
  cases h with
  | @alloc _ tag n a' =>
    by_cases hne : a = a'
    · simp [hne]
    · rcases ha with ha | ha
      · simpa [hne] using ha
      · exact absurd (HeapReply.gives.inj ha.2).symm hne
  | @upd k a' b =>
    by_cases hne : a = a'
    · simp [hne]
    · rcases ha with ha | ha
      · simpa [hne] using ha
      · cases ha.2
  | ref => exact ha.resolve_right fun h => by cases h.1
  | negative | full | null | outside => exact ha.resolve_right fun h => by cases h.2

theorem Known.mono (h : Known known calls) (hle : ∀ a, known a → known' a) :
    Known known' calls := by
  induction calls generalizing known known' with
  | nil => exact trivial
  | cons call calls ih =>
    refine ⟨fun k a i hc => (h.1 k a i hc).imp_right (hle a), ih h.2 ?_⟩
    intro a ha
    exact ha.imp_left (hle a)

end HeapMap

/-! ### Heaps of machines -/

namespace Machine

/-- The block `b` stands at `a` in the heap, behind its tag and its length. -/
structure Lays (m : Machine) (a : Int) (b : HeapBlock) : Prop where
  low : m.ht + headerWords ≤ a
  high : a + b.words.length ≤ m.hb
  tag : m.peek (a + headerClass) = b.tag
  length : m.peek (a + headerSize) = b.words.length
  words : ∀ (i : Nat) w, b.words[i]? = some w → m.peek (a + i) = w

/-- The heap consists of the blocks of a map, without gaps and without overlaps.  As each block has
a header, the map is finite. -/
structure Represents (m : Machine) (H : HeapMap) : Prop where
  laid : ∀ a b, H a = some b → m.Lays a b
  tiled : ∀ x, m.ht ≤ x → x < m.hb → ∃! a, ∃ b, H a = some b ∧ b.Spans a x

/-- The stack lies below the heap, and every address is a word. -/
structure Orderly (m : Machine) : Prop where
  st_nonneg : 0 ≤ m.st
  st_le : m.st ≤ m.ht
  ht_le : m.ht ≤ m.hb
  hb_le : m.hb ≤ maxWord

/-- The operands of a call are on top of the stack. -/
structure Passes (m : Machine) (c : HeapCall) : Prop where
  enough : (c.operands.length : Int) ≤ m.st
  peek : ∀ (k : Nat) w, c.operands[k]? = some w → m.peek (m.st - c.operands.length + k) = w

def answer (m : Machine) (c : HeapCall) : HeapReply × Machine :=
  match Exec.primitive c.prim m with
  | .ok _ m' => (if c.gives then .gives (m'.peek (m'.st - 1)) else .done, m')
  | .error e m' => (.ofStop e, m')

/-- Words on the stack are changed, and the heap is left alone. -/
structure Spares (m m' : Machine) : Prop where
  ht : m'.ht = m.ht
  hb : m'.hb = m.hb
  st_nonneg : 0 ≤ m'.st
  st_le : m'.st ≤ m'.ht
  peek : ∀ x, m.ht ≤ x → x < m.hb → m'.peek x = m.peek x

/-- A call took its operands and left at most a word in their place. -/
structure Took (m : Machine) (c : HeapCall) (m' : Machine) : Prop where
  same : m' = { m with data := m'.data, st := m'.st, ht := m'.ht }
  hb : m'.hb = m.hb
  st : m'.st = m.st - c.operands.length + if c.gives then 1 else 0
  below : ∀ x, 0 ≤ x → x < m.st - c.operands.length → m'.peek x = m.peek x

/-- The calls that a machine serves, one after the other.  Between them the stack may change. -/
inductive Serves : Machine → List (HeapCall × HeapReply) → Machine → Prop
  | nil (m : Machine) : Serves m [] m
  | cons {m m₁ m' : Machine} {c : HeapCall} {rest : List (HeapCall × HeapReply)}
      (hspares : m.Spares m₁) (hpasses : m₁.Passes c) (hrest : Serves (m₁.answer c).2 rest m') :
      Serves m ((c, (m₁.answer c).1) :: rest) m'

variable {m m' : Machine} {H : HeapMap} {a : Int} {b : HeapBlock}

/-! ### Representation -/

variable {x tag size : Int} {n : Nat} {c : HeapCall}

theorem Lays.mem (h : m.Lays a b) (hx : b.Spans a x) : m.ht ≤ x ∧ x < m.hb := by
  have hlow := h.low
  have hhigh := h.high
  simp only [HeapBlock.Spans] at hx
  omega

theorem Lays.congr (h : m.Lays a b) (hlow : m'.ht + headerWords ≤ a) (hhb : m'.hb = m.hb)
    (hp : ∀ x, b.Spans a x → m'.peek x = m.peek x) : m'.Lays a b where
  low := hlow
  high := hhb ▸ h.high
  tag := (hp _ (b.spans_tag a)).trans h.tag
  length := (hp _ (b.spans_length a)).trans h.length
  words := fun i w hw =>
    (hp _ (b.spans_word a (List.getElem?_eq_some_iff.1 hw).1)).trans (h.words i w hw)

theorem Represents.spares (h : m.Represents H) (hs : m.Spares m') : m'.Represents H where
  laid := by
    intro a b hb
    have hl := h.laid a b hb
    exact hl.congr (hs.ht ▸ hl.low) hs.hb fun x hx =>
      hs.peek x (hl.mem hx).1 (hl.mem hx).2
  tiled := by
    rw [hs.ht, hs.hb]
    exact h.tiled

theorem Represents.eq_of_spans (h : m.Represents H) (ha : H a = some b) (hx : b.Spans a x)
    (ha' : H a' = some b') (hx' : b'.Spans a' x) : a = a' := by
  obtain ⟨hlow, hhigh⟩ := (h.laid a b ha).mem hx
  exact (h.tiled x hlow hhigh).unique ⟨b, ha, hx⟩ ⟨b', ha', hx'⟩

theorem Represents.poke (h : m.Represents H) (hm : m.Orderly) (hb : H a = some b)
    (hi : i < b.words.length) (hv : minWord ≤ v ∧ v ≤ maxWord) :
    (m.poke (a + i) v).Represents
      (update H a (some { b with words := b.words.set i v })) := by
  have hl := h.laid a b hb
  have hst := hm.st_nonneg
  have hle := hm.st_le
  have hin := hl.mem (b.spans_word a hi)
  have hoth : ∀ x, 0 ≤ x → x ≠ a + i → (m.poke (a + i) v).peek x = m.peek x :=
    fun x hx hne => m.peek_poke_of_ne v (by omega) hx hne
  refine ⟨?_, ?_⟩
  · intro a' b' hb'
    by_cases ha : a' = a
    · subst ha
      rw [update_self] at hb'
      cases hb'
      have hlow := hl.low
      simp only [headerWords] at hlow
      refine ⟨hl.low, ?_, ?_, ?_, ?_⟩
      · simpa using hl.high
      · rw [hoth _ (by simp only [headerClass]; omega) (by simp only [headerClass]; omega)]
        exact hl.tag
      · rw [hoth _ (by simp only [headerSize]; omega) (by simp only [headerSize]; omega),
          length_set]
        exact hl.length
      · intro j w hw
        by_cases hj : i = j
        · subst hj
          rw [getElem?_set_self hi] at hw
          cases hw
          exact m.peek_poke_self ⟨by omega, hin.2⟩ hv
        · rw [getElem?_set_ne hj] at hw
          rw [hoth _ (by omega) (by omega)]
          exact hl.words j w hw
    · rw [update_of_ne ha] at hb'
      have hl' := h.laid a' b' hb'
      refine hl'.congr hl'.low (m.poke_hb ..) fun x hx => ?_
      have hmem := hl'.mem hx
      refine hoth x (by omega) ?_
      rintro rfl
      exact ha (h.eq_of_spans hb' hx hb (b.spans_word a hi))
  · -- The block keeps its size, so that the same addresses belong to it.
    intro x hlow hh
    rw [poke_hb] at hh
    refine (existsUnique_congr fun a' => ?_).1 (h.tiled x hlow hh)
    by_cases ha : a' = a
    · subst ha
      simp [hb, HeapBlock.Spans]
    · rw [update_of_ne ha]

/-! ### Allocation -/

/-- The machine with `n` words from `addr` on set to zero. -/
def cleared (m : Machine) (addr : Int) : (n : Nat) → Machine
  | 0 => m
  | n + 1 => (m.poke addr 0).cleared (addr + 1) n

theorem cleared_eq (m : Machine) (addr : Int) (n : Nat) :
    m.cleared addr n = { m with data := (m.cleared addr n).data } := by
  induction n generalizing m addr with
  | zero => rfl
  | succ n ih => exact ih (m.poke addr 0) (addr + 1)

@[simp] theorem cleared_st (m : Machine) (addr : Int) (n : Nat) : (m.cleared addr n).st = m.st := by
  rw [cleared_eq]

@[simp] theorem cleared_ht (m : Machine) (addr : Int) (n : Nat) : (m.cleared addr n).ht = m.ht := by
  rw [cleared_eq]

@[simp] theorem cleared_hb (m : Machine) (addr : Int) (n : Nat) : (m.cleared addr n).hb = m.hb := by
  induction n generalizing m addr with
  | zero => rfl
  | succ n ih => rw [cleared, ih, poke_hb]

theorem peek_cleared_of_not_mem (m : Machine) (n : Nat) (haddr : 0 ≤ addr) (hx : 0 ≤ x)
    (hout : x < addr ∨ addr + n ≤ x) : (m.cleared addr n).peek x = m.peek x := by
  induction n generalizing m addr with
  | zero => rfl
  | succ n ih =>
    rw [cleared, ih (m.poke addr 0) (by omega) (by omega)]
    exact m.peek_poke_of_ne 0 haddr hx (by omega)

theorem peek_cleared (m : Machine) (haddr : 0 ≤ addr) (hhigh : addr + n ≤ m.hb) (hk : k < n) :
    (m.cleared addr n).peek (addr + k) = 0 := by
  induction n generalizing m addr k with
  | zero => exact absurd hk (Nat.not_lt_zero k)
  | succ n ih =>
    rw [cleared]
    cases k with
    | zero =>
      rw [peek_cleared_of_not_mem _ n (by omega) (by omega) (.inl (by omega))]
      have hzero : (m.poke addr 0).peek addr = 0 := m.peek_poke_self ⟨haddr, by omega⟩ (by decide)
      simpa using hzero
    | succ k =>
      rw [show addr + ((k + 1 : Nat) : Int) = addr + 1 + k by omega]
      exact ih (m.poke addr 0) (by omega) (by rw [poke_hb]; omega) (by omega)

/-- The machine with a block of `n` zeros at the top of its heap. -/
def allocated (m : Machine) (tag : Int) (n : Nat) : Machine :=
  (((m.withHT (m.ht - (n + headerWords))).poke (m.ht - (n + headerWords)) tag).poke
    (m.ht - (n + headerWords) + 1) n).cleared (m.ht - n) n

section

variable (m : Machine) (tag : Int) (n : Nat)

@[simp] theorem allocated_st : (m.allocated tag n).st = m.st := by simp [allocated]

@[simp] theorem allocated_ht : (m.allocated tag n).ht = m.ht - (n + headerWords) := by
  simp [allocated]

@[simp] theorem allocated_hb : (m.allocated tag n).hb = m.hb := by simp [allocated]

theorem allocated_eq : m.allocated tag n =
    { m with data := (m.allocated tag n).data, ht := m.ht - (n + headerWords) } :=
  cleared_eq ..

end

/-- There is room for a block of `n` words. -/
def HasRoom (m : Machine) (n : Nat) : Prop := n + headerWords ≤ m.ht - m.st

theorem peek_allocated_of_not_mem (hm : m.Orderly) (hroom : m.HasRoom n)
    (hx : 0 ≤ x) (hout : x < m.ht - (n + headerWords) ∨ m.ht ≤ x) :
    (m.allocated tag n).peek x = m.peek x := by
  have hst := hm.st_nonneg
  simp only [HasRoom, headerWords] at *
  rw [allocated, peek_cleared_of_not_mem _ n (by omega) hx (by omega),
    peek_poke_of_ne _ _ (by simp only [headerWords]; omega) hx (by simp only [headerWords]; omega),
    peek_poke_of_ne _ _ (by simp only [headerWords]; omega) hx (by simp only [headerWords]; omega)]
  rfl

theorem lays_allocated (hm : m.Orderly) (hroom : m.HasRoom n)
    (htag : minWord ≤ tag ∧ tag ≤ maxWord) :
    (m.allocated tag n).Lays (m.ht - n) ⟨tag, replicate n 0⟩ := by
  have hst := hm.st_nonneg
  have hht := hm.ht_le
  have hhb := hm.hb_le
  simp only [HasRoom, headerWords] at hroom
  refine ⟨?_, ?_, ?_, ?_, ?_⟩
  · rw [allocated_ht]
    omega
  · rw [allocated_hb, length_replicate]
    omega
  · have ha : m.ht - n + headerClass = m.ht - (n + headerWords) := by
      simp only [headerClass, headerWords]
      omega
    rw [ha, allocated, peek_cleared_of_not_mem _ n (by omega) (by simp only [headerWords]; omega)
      (.inl (by simp only [headerWords]; omega)), peek_poke_of_ne _ _
      (by simp only [headerWords]; omega) (by simp only [headerWords]; omega) (by omega)]
    exact peek_poke_self _ (by simp only [headerWords, withHT_hb]; omega) htag
  · have ha : m.ht - n + headerSize = m.ht - (n + headerWords) + 1 := by
      simp only [headerSize, headerWords]
      omega
    rw [ha, allocated, peek_cleared_of_not_mem _ n (by omega) (by simp only [headerWords]; omega)
      (.inl (by simp only [headerWords]; omega)), length_replicate]
    refine peek_poke_self _ (by simp only [headerWords, poke_hb, withHT_hb]; omega) ?_
    simp only [minWord, maxWord] at *
    omega
  · intro i w hw
    obtain ⟨hi, rfl⟩ := List.getElem?_eq_some_iff.1 hw
    rw [length_replicate] at hi
    rw [getElem_replicate]
    exact peek_cleared _ (by omega) (by simp only [poke_hb, withHT_hb]; omega) hi

theorem Represents.allocated (h : m.Represents H) (hm : m.Orderly)
    (hr : m.HasRoom n) (htag : minWord ≤ tag ∧ tag ≤ maxWord) :
    H (m.ht - n) = none ∧ (m.allocated tag n).Represents
      (update H (m.ht - n) (some ⟨tag, replicate n 0⟩)) := by
  have hst := hm.st_nonneg
  have hle := hm.st_le
  -- The new block lies below the old heap top, the others above it.
  have hnew := lays_allocated hm hr htag
  have hf : H (m.ht - n) = none := by
    cases hb : H (m.ht - n) with
    | none => rfl
    | some b =>
      have hlow := (h.laid _ b hb).low
      simp only [headerWords] at hlow
      omega
  have hspan : ∀ x, (⟨tag, replicate n 0⟩ : HeapBlock).Spans (m.ht - n) x ↔
      m.ht - (n + headerWords) ≤ x ∧ x < m.ht := by
    intro x
    simp only [HeapBlock.Spans, length_replicate]
    omega
  refine ⟨hf, ?_, ?_⟩
  · intro a b hb
    by_cases ha : a = m.ht - n
    · subst ha
      rw [update_self] at hb
      cases hb
      exact hnew
    · rw [update_of_ne ha] at hb
      have hl := h.laid a b hb
      have hlow := hl.low
      refine hl.congr ?_ (allocated_hb ..) fun x hx => ?_
      · rw [allocated_ht]
        simp only [headerWords] at *
        omega
      · have hmem := hl.mem hx
        exact peek_allocated_of_not_mem hm hr (by omega) (.inr hmem.1)
  · intro x hlow hh
    rw [allocated_ht] at hlow
    rw [allocated_hb] at hh
    by_cases hx : x < m.ht
    · refine ⟨m.ht - n, ⟨_, update_self .., (hspan x).2 ⟨hlow, hx⟩⟩, ?_⟩
      rintro a ⟨b, hb, hax⟩
      by_cases ha : a = m.ht - n
      · exact ha
      · rw [update_of_ne ha] at hb
        have hmem := (h.laid a b hb).mem hax
        omega
    · refine (existsUnique_congr fun a => ?_).1 (h.tiled x (by omega) hh)
      by_cases ha : a = m.ht - n
      · subst ha
        simp [hf, hspan, hx]
      · rw [update_of_ne ha]

/-! ### Single calls -/

theorem Passes.operand (h : m.Passes c) {k : Nat} (hk : c.operands[k]? = some x)
    (haddr : addr = m.st - c.operands.length + k) : m.peek addr = x := by
  rw [haddr, h.peek k x hk]

theorem Passes.enough_of (hm : m.Orderly) (h : m.Passes c) (hk : c.operands.length = k) :
    (k : Int) ≤ m.st ∧ m.st ≤ m.hb :=
  ⟨hk ▸ h.enough, Int.le_trans hm.st_le hm.ht_le⟩

namespace Exec

variable {c : HeapCall} {stop : Stop → Machine → Prop}

variable {ok : Int → Machine → Prop} {x : Int}

theorem ensures_passed1 (hm : m.Orderly) (h : m.Passes c)
    (hc : c.operands = [x]) : Ensures top1 m ok stop ↔ ok x m := by
  rw [ensures_top1 (h.enough_of hm (by rw [hc]; rfl)),
    h.operand (k := 0) (x := x) (by rw [hc]; rfl) (by rw [hc]; simp)]

theorem ensures_passed2 {ok : Int × Int → Machine → Prop} (hm : m.Orderly) (h : m.Passes c)
    (hc : c.operands = [x, y]) : Ensures top2 m ok stop ↔ ok (x, y) m := by
  rw [ensures_top2 (h.enough_of hm (by rw [hc]; rfl)),
    h.operand (k := 0) (x := x) (by rw [hc]; rfl) (by rw [hc]; simp),
    h.operand (k := 1) (x := y) (by rw [hc]; rfl) (by rw [hc]; simp; omega)]

theorem ensures_passed3 {ok : Int × Int × Int → Machine → Prop} (hm : m.Orderly) (h : m.Passes c)
    (hc : c.operands = [x, y, z]) : Ensures top3 m ok stop ↔ ok (x, y, z) m := by
  rw [ensures_top3 (h.enough_of hm (by rw [hc]; rfl)),
    h.operand (k := 0) (x := x) (by rw [hc]; rfl) (by rw [hc]; simp),
    h.operand (k := 1) (x := y) (by rw [hc]; rfl) (by rw [hc]; simp; omega),
    h.operand (k := 2) (x := z) (by rw [hc]; rfl) (by rw [hc]; simp; omega)]

theorem ensures_clear {ok : Unit → Machine → Prop} {n : Nat} (haddr : 0 ≤ addr)
    (hhigh : addr + n ≤ m.hb) : Ensures (clear addr n) m ok stop ↔ ok () (m.cleared addr n) := by
  induction n generalizing m addr with
  | zero => exact Iff.rfl
  | succ n ih =>
    have hin : 0 ≤ addr ∧ addr < m.hb := by omega
    simp only [clear, ensures_bind, ensures_setWord, if_pos hin]
    exact ih (by omega) (by rw [poke_hb]; omega)

theorem ensures_allocate (hst : 0 ≤ m.st) (hht : m.ht ≤ m.hb) {n : Nat}
    (tag : Int) (hr : m.HasRoom n) :
    Ensures (allocate tag n) m ok stop ↔ ok (m.ht - n) (m.allocated tag n) := by
  have hr' := hr
  simp only [HasRoom, headerWords] at hr'
  have hin₀ : 0 ≤ m.ht - (n + headerWords) ∧ m.ht - (n + headerWords) < m.hb := by
    simp only [headerWords]
    omega
  have hin₁ : 0 ≤ m.ht - (n + headerWords) + 1 ∧ m.ht - (n + headerWords) + 1 < m.hb := by
    simp only [headerWords]
    omega
  have haddr : m.ht - (n + headerWords) + headerWords = m.ht - n := by omega
  have hsp : (n : Int) + headerWords ≤ m.ht - m.st := hr
  simp only [allocate, ensures_bind, ensures_require, Int.natCast_nonneg, decide_true, ↓reduceIte,
    checkSpace, ensures_get, hsp, ensures_lower, ensures_setWord, withHT_ht, withHT_hb, poke_hb,
    hin₀, hin₁, and_self, haddr, Int.toNat_natCast, ensures_pure]
  exact ensures_clear (by omega) (by simp only [poke_hb, withHT_hb]; omega)

theorem ensures_allocate_stop {size : Int} (tag : Int)
    (h : size < 0 ∨ m.ht - m.st < size + headerWords) :
    Ensures (allocate tag size) m ok stop ↔ stop (.failure (if size < 0 then .allocation size
        else .noRoom (size + headerWords) m.st m.ht)) m := by
  by_cases hneg : size < 0
  · have hs : ¬ 0 ≤ size := by omega
    simp [allocate, hs, hneg]
  · have hs : 0 ≤ size := by omega
    have hfull : ¬ size + headerWords ≤ m.ht - m.st := by omega
    simp [allocate, checkSpace, hs, hfull, hneg]

/-- Fails the program unless a block has a word at an index. -/
def check (k : HeapKind) (addr index : Int) : Exec Unit :=
  match k with
  | .field => fieldIndex addr index
  | .array => arrayIndex addr index

theorem primitive_ref (k : HeapKind) (a i : Int) : primitive (HeapCall.ref k a i).prim = (do
      let (addr, index) ← top2
      check k addr index
      drop 1
      setTop (← word (addr + index))) := by
  cases k <;> rfl

theorem primitive_upd (k : HeapKind) (a i v : Int) : primitive (HeapCall.upd k a i v).prim = (do
      let (addr, index, value) ← top3
      check k addr index
      setWord (addr + index) value
      drop 3) := by
  cases k <;> rfl

theorem ensures_heapRef {ok : Unit → Machine → Prop} (hm : m.Orderly) (h : m.Represents H)
    (hb : H a = some b) : Ensures (heapRef a) m ok stop ↔ ok () m := by
  have hlow := (h.laid a b hb).low
  have hhigh := (h.laid a b hb).high
  have hst := hm.st_nonneg
  have hle := hm.st_le
  have hne : a ≠ 0 := by
    simp only [headerWords] at hlow
    omega
  have hle' : a ≤ m.hb := by omega
  simp [heapRef, hne, hlow, hle']

theorem ensures_check {ok : Unit → Machine → Prop} (hm : m.Orderly) (h : m.Represents H)
    (hkn : a = 0 ∨ (H a).isSome) {k : HeapKind} {i : Int}
    (hnull : a = 0 → stop (.failure .nullReference) m)
    (hin : ∀ b (n : Nat), H a = some b → k.Admits b → n < b.words.length → i = n → ok () m)
    (hout : ∀ b why, H a = some b → ¬ (k.Admits b ∧ 0 ≤ i ∧ i < b.words.length) →
      why.condition = .arrayIndex → stop (.failure why) m) :
    Ensures (check k a i) m ok stop := by
  rcases hkn with rfl | hkn
  · cases k <;> simpa [check, fieldIndex, arrayIndex, heapRef] using hnull rfl
  obtain ⟨b, hb⟩ := Option.isSome_iff_exists.1 hkn
  have hl := h.laid a b hb
  have hst := hm.st_nonneg
  have hle := hm.st_le
  have htag := hl.mem (b.spans_tag a)
  have hlen := hl.mem (b.spans_length a)
  have htag' : 0 ≤ a + headerClass ∧ a + headerClass < m.hb := by omega
  have hlen' : 0 ≤ a + headerSize ∧ a + headerSize < m.hb := by omega
  have hlt : i < b.words.length → a + i < m.hb := by
    have hhigh := hl.high
    omega
  have hin : k.Admits b → 0 ≤ i ∧ i < b.words.length → ok () m := fun hadm hi =>
    hin b i.toNat hb hadm (by omega) (Int.toNat_of_nonneg hi.1).symm
  cases k with
  | field =>
    by_cases hi : 0 ≤ i ∧ i < b.words.length
    · simpa [check, fieldIndex, ensures_heapRef hm h hb, hlen', hl.length, hi, hlt hi.2] using
        hin nofun hi
    · simpa [check, fieldIndex, ensures_heapRef hm h hb, hlen', hl.length, hi] using
        hout b (.fieldIndex i b.words.length) hb (fun h => hi h.2) rfl
  | array =>
    by_cases harr : b.tag = arrayTag
    · by_cases hi : 0 ≤ i ∧ i < b.words.length
      · simpa [check, arrayIndex, ensures_heapRef hm h hb, htag', hlen', hl.tag, hl.length,
          harr, hi, hlt hi.2] using hin (fun _ => harr) hi
      · simpa [check, arrayIndex, ensures_heapRef hm h hb, htag', hlen', hl.tag, hl.length,
          harr, hi] using hout b (.arrayIndex i b.words.length) hb (fun h => hi h.2) rfl
    · simpa [check, arrayIndex, ensures_heapRef hm h hb, htag', hl.tag, harr] using
        hout b (.notAnArray a) hb (fun h => harr (h.1 rfl)) rfl

end Exec

/-- What a call does to a machine that represents `H` is what it means for `H`: with nothing
changed if it fails, and else with the operands taken. -/
def Conforms (m : Machine) (H : HeapMap) (c : HeapCall) (out : HeapReply × Machine) : Prop :=
  ∃ H', c.Means (m.ht - m.st) H out.1 H' ∧ out.2.Represents H' ∧ out.2.Orderly ∧ match out.1 with
    | .fails _ => out.2 = m
    | _ => m.Took c out.2

open Exec in
theorem answer_iff (Q : HeapReply × Machine → Prop) : Q (m.answer c) ↔ Ensures (primitive c.prim) m
      (fun _ m' => Q (if c.gives then .gives (m'.peek (m'.st - 1)) else .done, m'))
      fun e m' => Q (.ofStop e, m') := by
  simp only [answer, Ensures]
  cases primitive c.prim m <;> exact Iff.rfl

theorem Orderly.spares (hm : m.Orderly) (hs : m.Spares m') : m'.Orderly where
  st_nonneg := hs.st_nonneg
  st_le := hs.st_le
  ht_le := by
    rw [hs.ht, hs.hb]
    exact hm.ht_le
  hb_le := hs.hb ▸ hm.hb_le

theorem Orderly.poke (hm : m.Orderly) (x v : Int) : (m.poke x v).Orderly where
  st_nonneg := hm.st_nonneg
  st_le := hm.st_le
  ht_le := (m.poke_hb x v).symm ▸ hm.ht_le
  hb_le := (m.poke_hb x v).symm ▸ hm.hb_le

theorem Orderly.allocated (hm : m.Orderly) (hroom : m.HasRoom n) : (m.allocated tag n).Orderly := by
  have hle := hm.st_le
  have hht := hm.ht_le
  simp only [HasRoom, headerWords] at hroom
  refine ⟨?_, ?_, ?_, ?_⟩
  · rw [allocated_st]
    exact hm.st_nonneg
  · rw [allocated_st, allocated_ht, headerWords]
    omega
  · rw [allocated_ht, allocated_hb, headerWords]
    omega
  · rw [allocated_hb]
    exact hm.hb_le

theorem spares_stack (hm : m.Orderly) {st : Int} (v : Int) (hx : 0 ≤ x ∧ x < m.ht)
    (hst : 0 ≤ st ∧ st ≤ m.ht) : m.Spares ((m.poke x v).withST st) where
  ht := rfl
  hb := m.poke_hb x v
  st_nonneg := hst.1
  st_le := hst.2
  peek := by
    intro y hy _
    have hnon := hm.st_nonneg
    have hle := hm.st_le
    exact m.peek_poke_of_ne v hx.1 (by omega) (by omega)

theorem conforms_of_gives {n : Machine} (hn : n.Orderly) (h : n.Represents H')
    (hgiv : c.gives = true) (henou : (c.operands.length : Int) ≤ m.st)
    (hmns : c.Means (m.ht - m.st) H (.gives w) H') (hw : minWord ≤ w ∧ w ≤ maxWord)
    (hs : n = { m with data := n.data, ht := n.ht }) (hhb : n.hb = m.hb)
    (hbel : ∀ x, 0 ≤ x → x < m.st → n.peek x = m.peek x)
    (hm' : m' = (n.poke (m.st - c.operands.length) w).withST (m.st - c.operands.length + 1)) :
    m.Conforms H c (if c.gives then .gives (m'.peek (m'.st - 1)) else .done, m') := by
  have hst : n.st = m.st := by rw [hs]
  have hpos := c.operands_pos
  have hle := hn.st_le
  have hht := hn.ht_le
  have hspar : n.Spares m' := hm' ▸ spares_stack hn w (by omega) (by omega)
  have htop : m'.peek (m'.st - 1) = w := by
    have haddr : m'.st - 1 = m.st - c.operands.length := by
      rw [hm', withST_st]
      omega
    rw [haddr, hm', peek_withST]
    exact n.peek_poke_self (by omega) hw
  rw [hgiv, if_pos rfl, htop]
  refine ⟨H', hmns, h.spares hspar, hn.spares hspar, ?_, ?_, ?_, ?_⟩
  · rw [hm', hs]
    rfl
  · rw [hspar.hb, hhb]
  · rw [hm', withST_st, hgiv, if_pos rfl]
  · intro x hx hlt
    rw [hm', peek_withST, n.peek_poke_of_ne w (by omega) hx (by omega)]
    exact hbel x hx (by omega)

section
open Exec

variable (hm : m.Orderly) (h : m.Represents H)
include hm h

theorem conforms_of_fails (hmns : c.Means (m.ht - m.st) H (.fails why) H) :
    m.Conforms H c (.fails why, m) := ⟨H, hmns, h, hm, rfl⟩

theorem conforms_ref {a i : Int} (hc : m.Passes (.ref k a i)) (hkn : a = 0 ∨ (H a).isSome) :
    m.Conforms H (.ref k a i) (m.answer (.ref k a i)) := by
  rw [answer_iff (m.Conforms H (.ref k a i)), primitive_ref]
  simp only [ensures_bind, ensures_passed2 hm hc rfl]
  refine ensures_check hm h hkn ?_ (fun b i hb hadm hi hidx => ?_) fun b why hb hout hwhy => ?_
  · rintro rfl
    exact conforms_of_fails hm h (.null rfl)
  · subst hidx
    have hmem := (h.laid a b hb).mem (b.spans_word a hi)
    have hst := hm.st_nonneg
    have hle := hm.st_le
    have henou : (2 : Int) ≤ m.st := hc.enough
    have hword : 0 ≤ a + (i : Int) ∧ a + (i : Int) < (m.withST (m.st - 1)).hb := by
      rw [withST_hb]
      omega
    have htop : 0 ≤ (m.withST (m.st - 1)).st - 1 ∧
        (m.withST (m.st - 1)).st - 1 < (m.withST (m.st - 1)).hb := by
      rw [withST_st, withST_hb]
      omega
    have hw := (h.laid a b hb).words i _ (getElem?_eq_getElem hi)
    simp only [ensures_drop, setTop, ensures_bind, ensures_get, ensures_word, if_pos hword,
      peek_withST, ensures_setWord, if_pos htop]
    have hlen : ((HeapCall.ref k a i).operands.length : Int) = 2 := rfl
    refine conforms_of_gives hm h rfl hc.enough
      (.ref hb hadm (getElem?_eq_getElem hi)) (hw ▸ m.peek_mem _) rfl rfl
      (fun _ _ _ => rfl) ?_
    rw [hw, hlen, withST_st, show m.st - 1 - 1 = m.st - 2 by omega,
      show m.st - 2 + 1 = m.st - 1 by omega]
    rfl
  · rw [HeapReply.ofStop, hwhy]
    exact conforms_of_fails hm h (.outside rfl hb hout)

theorem conforms_upd {a i v : Int} (hc : m.Passes (.upd k a i v)) (hkn : a = 0 ∨ (H a).isSome) :
    m.Conforms H (.upd k a i v) (m.answer (.upd k a i v)) := by
  rw [answer_iff (m.Conforms H (.upd k a i v)), primitive_upd]
  simp only [ensures_bind, ensures_passed3 hm hc rfl]
  refine ensures_check hm h hkn ?_ (fun b i hb hadm hi hidx => ?_) fun b why hb hout hwhy => ?_
  · rintro rfl
    exact conforms_of_fails hm h (.null rfl)
  · subst hidx
    have hmem := (h.laid a b hb).mem (b.spans_word a hi)
    have hst := hm.st_nonneg
    have hle := hm.st_le
    have henou : (3 : Int) ≤ m.st := hc.enough
    have hw : 0 ≤ a + (i : Int) ∧ a + (i : Int) < m.hb := by omega
    -- The value is a word, because it was one on the stack.
    have hv : minWord ≤ v ∧ v ≤ maxWord := hc.peek 2 v rfl ▸ m.peek_mem _
    simp only [ensures_setWord, if_pos hw, ensures_drop, poke_st]
    have hspar : (m.poke (a + i) v).Spares ((m.poke (a + i) v).withST (m.st - 3)) := by
      refine ⟨rfl, rfl, ?_, ?_, fun _ _ _ => rfl⟩
      · rw [withST_st]
        omega
      · rw [withST_st, withST_ht, poke_ht]
        omega
    refine ⟨_, .upd hb hadm hi, (h.poke hm hb hi hv).spares hspar, (hm.poke _ v).spares hspar, ?_⟩
    · refine ⟨rfl, m.poke_hb .., ?_, ?_⟩
      · rw [withST_st]
        simp [HeapCall.operands, HeapCall.gives]
      · intro x hx hlt
        exact m.peek_poke_of_ne v hw.1 hx (by omega)
  · rw [HeapReply.ofStop, hwhy]
    exact conforms_of_fails hm h (.outside rfl hb hout)

theorem conforms_of_room (hc : m.Passes c) (hblk : c.block? = some (tag, (n : Int)))
    (htag : minWord ≤ tag ∧ tag ≤ maxWord) (hr : m.HasRoom n)
    (hm' : m' = ((m.allocated tag n).poke (m.st - c.operands.length) (m.ht - n)).withST
      (m.st - c.operands.length + 1)) :
    m.Conforms H c (if c.gives then .gives (m'.peek (m'.st - 1)) else .done, m') := by
  obtain ⟨hnew, hrep⟩ := h.allocated hm hr htag
  have hst := hm.st_nonneg
  have hht := hm.ht_le
  have hhb := hm.hb_le
  have hr' := hr
  simp only [HasRoom, headerWords] at hr'
  have hgiv : c.gives = true := by cases c <;> first | rfl | cases hblk
  have hnull : m.ht - n ≠ 0 := by omega
  refine conforms_of_gives (hm.allocated hr) hrep hgiv hc.enough
    (.alloc hblk hr hnull hnew) ?_ ?_ (allocated_hb ..) ?_ hm'
  · simp only [minWord, maxWord] at *
    omega
  · rw [allocated_ht]
    exact m.allocated_eq tag n
  · intro x hx hlt
    refine peek_allocated_of_not_mem hm hr hx (.inl ?_)
    rw [headerWords]
    omega

theorem conforms_of_no_room (hblk : c.block? = some (tag, size))
    (hfull : size < 0 ∨ m.ht - m.st < size + headerWords) :
    m.Conforms H c (.ofStop (.failure (if size < 0 then .allocation size
      else .noRoom (size + headerWords) m.st m.ht)), m) := by
  by_cases hneg : size < 0
  · rw [if_pos hneg]
    exact conforms_of_fails hm h (.negative hblk hneg)
  · rw [if_neg hneg]
    exact conforms_of_fails hm h (.full hblk (by omega) (by omega))

theorem conforms_newobj {cls : Int} (hc : m.Passes (.newobj cls size)) :
    m.Conforms H (.newobj cls size) (m.answer (.newobj cls size)) := by
  rw [answer_iff (m.Conforms H (.newobj cls size))]
  simp only [HeapCall.prim, primitive, ensures_bind, ensures_passed2 hm hc rfl]
  by_cases hr : 0 ≤ size ∧ size + headerWords ≤ m.ht - m.st
  · obtain ⟨n, rfl⟩ := Int.eq_ofNat_of_zero_le hr.1
    have henou : (2 : Int) ≤ m.st := hc.enough
    have hle := hm.st_le
    have hht := hm.ht_le
    have hsp : 1 ≤ m.ht - (n + headerWords) - (m.st - 2) := by omega
    have hin : 0 ≤ m.st - 2 ∧ m.st - 2 < ((m.allocated cls n).withST (m.st - 2)).hb := by
      rw [withST_hb, allocated_hb]
      omega
    have hcls : minWord ≤ cls ∧ cls ≤ maxWord := hc.peek 0 cls rfl ▸ m.peek_mem _
    rw [ensures_allocate hm.st_nonneg hm.ht_le cls hr.2]
    simp only [ensures_drop, push, checkSpace, ensures_bind, ensures_get, ensures_require,
      withST_st, withST_ht, allocated_st, allocated_ht, hsp, decide_true, ↓reduceIte,
      ensures_setWord, if_pos hin, ensures_setST]
    refine conforms_of_room hm h hc rfl hcls hr.2 ?_
    rw [show m.st - 2 + 1 = m.st - ((0 + 1 + 1 : Nat) : Int) + 1 by omega]
    rfl
  · rw [ensures_allocate_stop cls (by omega)]
    exact conforms_of_no_room hm h rfl (by omega)

theorem conforms_newarr (hc : m.Passes (.newarr size)) :
    m.Conforms H (.newarr size) (m.answer (.newarr size)) := by
  rw [answer_iff (m.Conforms H (.newarr size))]
  simp only [HeapCall.prim, primitive, ensures_bind, ensures_passed1 hm hc rfl]
  by_cases hr : 0 ≤ size ∧ size + headerWords ≤ m.ht - m.st
  · obtain ⟨n, rfl⟩ := Int.eq_ofNat_of_zero_le hr.1
    have henou : (1 : Int) ≤ m.st := hc.enough
    have hle := hm.st_le
    have hht := hm.ht_le
    have hin : 0 ≤ m.st - 1 ∧ m.st - 1 < m.hb := by omega
    rw [ensures_allocate hm.st_nonneg hm.ht_le arrayTag hr.2]
    simp only [setTop, ensures_bind, ensures_get, allocated_st, ensures_setWord, allocated_hb]
    rw [if_pos hin]
    refine conforms_of_room hm h hc rfl (by decide) hr.2 ?_
    have hst : m.st - (HeapCall.newarr n).operands.length + 1 = (m.allocated arrayTag n).st := by
      rw [allocated_st]
      exact Int.sub_add_cancel ..
    rw [hst]
    rfl
  · rw [ensures_allocate_stop arrayTag (by omega)]
    exact conforms_of_no_room hm h rfl (by omega)

theorem conforms_answer (hc : m.Passes c)
    (hkn : ∀ k a i, c.target? = some (k, a, i) → a = 0 ∨ (H a).isSome) :
    m.Conforms H c (m.answer c) := by
  cases c with
  | newobj cls size => exact conforms_newobj hm h hc
  | newarr size => exact conforms_newarr hm h hc
  | ref k a i => exact conforms_ref hm h hc (hkn k a i rfl)
  | upd k a i v => exact conforms_upd hm h hc (hkn k a i rfl)

end

theorem exists_runs_of_serves (hm : m.Orderly) (h : m.Represents H)
    {calls : List (HeapCall × HeapReply)} (hser : m.Serves calls m')
    (hkn : HeapMap.Known (fun a => (H a).isSome) calls) :
    ∃ H', H.Runs calls H' ∧ m'.Represents H' ∧ m'.Orderly := by
  induction hser generalizing H with
  | nil m => exact ⟨H, .nil H, h, hm⟩
  | cons hspar hpas _ ih =>
    obtain ⟨H₁, hmns, hrep, hord, -⟩ :=
      conforms_answer (hm.spares hspar) (h.spares hspar) hpas hkn.1
    -- What the calls make is known to the calls after them.
    have hkn' := hkn.2.mono fun a ha => HeapMap.isSome_of_means hmns ha
    obtain ⟨H', hruns, hm'⟩ := ih hord hrep hkn'
    exact ⟨H', .cons hmns hruns, hm'⟩

/-- The primitives for objects and arrays implement a map of blocks.  Each call on a machine that
represents a map does what it means for the map; and over every sequence of calls the machine keeps
representing a map, in which each word is the one last stored there, and which each read shows. -/
theorem heap_calls_mean :
    (∀ (m : Machine) (H : HeapMap) (c : HeapCall), m.Orderly → m.Represents H → m.Passes c →
      (∀ k a i, c.target? = some (k, a, i) → a = 0 ∨ (H a).isSome) →
        m.Conforms H c (m.answer c)) ∧
    ∀ (m m' : Machine) (H : HeapMap) (calls : List (HeapCall × HeapReply)), m.Orderly →
      m.Represents H → m.Serves calls m' → HeapMap.Known (fun a => (H a).isSome) calls →
        (∃ H', m'.Represents H' ∧ m'.Orderly ∧ H.Runs calls H' ∧
          ∀ a i, H'.word? a i = HeapMap.written a i (H.word? a i) calls) ∧
        ∀ before rest k a i w, calls = before ++ (HeapCall.ref k a (i : Nat), .gives w) :: rest →
          HeapMap.written a i (H.word? a i) before = some w := by
  refine ⟨fun m H c hm h hc hknown => conforms_answer hm h hc hknown, ?_⟩
  intro m m' H calls hm h hserves hknown
  obtain ⟨H', hruns, hrep, hm'⟩ := exists_runs_of_serves hm h hserves hknown
  refine ⟨⟨H', hrep, hm', hruns, HeapMap.word?_of_runs hruns⟩, ?_⟩
  rintro before rest k a i w rfl
  exact HeapMap.gives_of_runs hruns

/-- A machine with the number two on its stack and nothing in its heap. -/
def twoOnStack : Machine where
  name := ""
  program := #[]
  symbols := none
  capacity := 1
  data := #[2, 0, 0, 0, 0, 0, 0, 0, 0, 0, 0, 0]
  cp := 0
  st := 1
  lb := 0
  ht := 12
  ob := 0
  state := .running
  input := .empty
  lastChar := 0
  output := .empty
  breakpoints := []
  paused := false
  hardCrash := false
  report := ""
  failures := 0

/-- The machine with an array of two elements, and the index of the second one on its stack. -/
def indexOnStack : Machine := ((twoOnStack.answer (.newarr 2)).2.poke 1 1).withST 2

theorem serves_twoOnStack : twoOnStack.Serves [(.newarr 2, .gives 10), (.ref .array 10 1, .gives 0)]
      (indexOnStack.answer (.ref .array 10 1)).2 := by
  have hnew : (twoOnStack.answer (.newarr 2)).1 = .gives 10 := by decide +kernel
  have hread : (indexOnStack.answer (.ref .array 10 1)).1 = .gives 0 := by decide +kernel
  have hsize : twoOnStack.Passes (.newarr 2) := by
    refine ⟨by decide, ?_⟩
    rintro (_ | k) w hk
    · cases hk
      decide
    · simp [HeapCall.operands] at hk
  have hidx : indexOnStack.Passes (.ref .array 10 1) := by
    refine ⟨Int.le_refl 2, ?_⟩
    rintro (_ | _ | k) w hk
    · cases hk
      decide +kernel
    · cases hk
      decide +kernel
    · simp [HeapCall.operands] at hk
  have hord : (twoOnStack.answer (.newarr 2)).2.Orderly :=
    ⟨by decide +kernel, by decide +kernel, by decide +kernel, by decide +kernel⟩
  have hstil : twoOnStack.Spares twoOnStack := ⟨rfl, rfl, by decide, by decide, fun _ _ _ => rfl⟩
  have hpus : (twoOnStack.answer (.newarr 2)).2.Spares indexOnStack :=
    spares_stack hord 1 (by decide +kernel) (by decide +kernel)
  rw [← hnew, ← hread]
  exact .cons hstil hsize (.cons hpus hidx (.nil _))

/-- An array of two elements is made, and its second element is read. -/
theorem heap_calls_mean_twoOnStack :
    ∃ H', (indexOnStack.answer (.ref .array 10 1)).2.Represents H' ∧ H'.word? 10 1 = some 0 := by
  have horderly : twoOnStack.Orderly := ⟨by decide, by decide, by decide, by decide⟩
  have hempty : twoOnStack.Represents fun _ => none := by
    refine ⟨nofun, fun x (hlow : 12 ≤ x) (hhigh : x < 12) => ?_⟩
    omega
  have hknown : HeapMap.Known (fun _ => (none : Option HeapBlock).isSome)
      [(.newarr 2, .gives 10), (.ref .array 10 1, .gives 0)] := by
    refine ⟨nofun, fun k a i hc => .inr (.inr ⟨rfl, ?_⟩), trivial⟩
    cases hc
    rfl
  obtain ⟨⟨H', hrep, -, -, hword⟩, -⟩ :=
    heap_calls_mean.2 _ _ _ _ horderly hempty serves_twoOnStack hknown
  exact ⟨H', hrep, hword 10 1⟩

end Machine

end MiniJam
