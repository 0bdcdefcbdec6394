import Mathlib.Tactic.SplitIfs
import MiniJam.Proofs.Machine.Heap

/-!
# What stops an instruction

Every instruction looks first and writes last.  `Exec.Looks` is about a part of an instruction that
changes nothing, `Exec.Moves` about one that changes registers only, and `Exec.Refuses` about an
action that leaves the machine as it was when it stops.

The stack lies below the heap and the heap in the data store (`Machine.Bounded`), and then nothing
but the program stops an instruction (`Stop.Orderly`).  But a return can put the stack top above the
heap top and even beyond the data store.  What is left of the bounds then is `Machine.Rooted`.  It is
enough for the order of looking and writing because room on the stack is measured up to the heap top.
-/

namespace MiniJam

/-- Whether a primitive computes with words or with the heap; the others read or write text, or only
take a word from the stack. -/
def Prim.computes : Prim → Bool
  | .eol | .eof | .get | .put | .geteol | .puteol | .getint | .putint | .putintnl | .dispose => false
  | _ => true

namespace Machine

/-- The primitive at an address, if it is one of the primitive segment. -/
def primAt? (m : Machine) (addr : Int) : Option Prim :=
  if m.pb ≤ addr ∧ addr < m.pt then Prim.ofCode? (addr - m.pb) else none

/-- The primitive that a call calls, if it calls one. -/
def callee? (m : Machine) (i : Instr) : Option Prim :=
  (Reg.ofCode? i.r).bind fun r => m.primAt? (wrap64 (m.reg r + i.d))

/-- The stack lies below the heap, and the heap in the data store. -/
structure Bounded (m : Machine) : Prop where
  st_nonneg : 0 ≤ m.st
  st_le : m.st ≤ m.ht
  ht_le : m.ht ≤ m.hb

/-- The program stops for a reason of its own, not because the data store or the code is accessed
outside its bounds. -/
def Stop.Orderly : Stop → Prop
  | .failure (.internal _) | .fault _ => False
  | .halt | .failure _ => True

@[simp] theorem orderly_failure_iff (why : Failure) :
    (Stop.failure why).Orderly ↔ ∀ f, why ≠ .internal f := by
  cases why <;> simp [Stop.Orderly]

/-! ### Dumps -/

namespace Writer

/-- The text is written to its end, whatever was written before it. -/
def Completes {α : Type} (w : Writer α) : Prop := ∀ ps, ∃ a ps', w ps = .ok a ps'

theorem Completes.bind {α β : Type} {w : Writer α} {f : α → Writer β} (hw : w.Completes)
    (hf : ∀ a, (f a).Completes) : (w >>= f).Completes := by
  intro ps
  obtain ⟨a, ps₁, h₁⟩ := hw ps
  obtain ⟨b, ps₂, h₂⟩ := hf a ps₁
  exact ⟨b, ps₂, by simp only [Bind.bind, EStateM.bind, h₁, h₂]⟩

theorem completes_pure {α : Type} (a : α) : Completes (pure a) := fun ps => ⟨a, ps, rfl⟩

theorem completes_line (s : String) : (line s).Completes := fun _ => ⟨(), _, rfl⟩

theorem Completes.pieces {w : Writer Unit} (h : w.Completes) : w.pieces.2 = none := by
  obtain ⟨a, ps, hw⟩ := h #[]
  simp [Writer.pieces, hw]

end Writer

open Writer

theorem completes_shownWord {m : Machine} (h : 0 ≤ addr ∧ addr < m.hb) :
    (m.shownWord addr).Completes := by
  intro ps
  have hlt : addr.toNat < m.data.size := by
    simp only [hb] at h
    omega
  refine ⟨m.data[addr.toNat].toInt, ps, ?_⟩
  simp [shownWord, Int.not_lt.2 h.1, hlt, pure, EStateM.pure]

theorem completes_dumpHeap {m : Machine} (n : Nat) (hlt : addr < m.hb)
    (hge : (n : Int) ≤ addr + 1) : (m.dumpHeap addr n).Completes := by
  induction n generalizing addr with
  | zero => exact completes_pure ()
  | succ n ih =>
    refine (completes_shownWord ⟨by omega, hlt⟩).bind fun w => ?_
    exact (completes_line _).bind fun _ => ih (by omega) (by omega)

theorem completes_dumpStack {m : Machine} (n : Nat) (link : Int) (h : (n : Int) ≤ m.hb) :
    (m.dumpStack link n).Completes := by
  induction n generalizing link with
  | zero => exact completes_pure ()
  | succ n ih =>
    refine (completes_shownWord ⟨by omega, by omega⟩).bind fun w => ?_
    refine (completes_line _).bind fun _ => ?_
    split
    · refine (completes_line _).bind fun _ => ?_
      split
      · exact (completes_shownWord ⟨by omega, by assumption⟩).bind fun outer => ih outer (by omega)
      · exact (completes_pure link).bind fun outer => ih outer (by omega)
    · exact ih link (by omega)

theorem completes_dumpHeading (m : Machine) : m.dumpHeading.Completes := by
  refine (completes_line _).bind fun _ => (completes_line _).bind fun _ => ?_
  split
  · split
    · exact (completes_line _).bind fun _ => completes_line _
    · exact (completes_line _).bind fun _ => completes_line _
  · exact (completes_pure ()).bind fun _ => completes_line _

theorem Bounded.completes_dump {m : Machine} (h : m.Bounded) : m.dump.Completes := by
  obtain ⟨h₁, h₂, h₃⟩ := h
  have stack : (m.dumpStack m.lb m.st.toNat).Completes := completes_dumpStack _ _ (by omega)
  have heap : (m.dumpHeap (m.hb - 1) (m.hb - m.ht).toNat).Completes :=
    completes_dumpHeap _ (by omega) (by omega)
  refine m.completes_dumpHeading.bind fun _ => ?_
  by_cases hheap : m.ht = m.hb <;> by_cases hstk : m.st = 0 <;>
    simp only [hheap, hstk, ↓reduceIte] <;>
    repeat' first
      | exact completes_line _
      | refine (completes_line _).bind fun _ => ?_
      | refine heap.bind fun _ => ?_
      | refine stack.bind fun _ => ?_

theorem Bounded.completes_showStatus {m : Machine} (h : m.Bounded) : m.showStatus.Completes := by
  refine (completes_line _).bind fun _ => (completes_line _).bind fun _ => ?_
  split
  · split
    · exact (completes_line _).bind fun _ => h.completes_dump
    · exact h.completes_dump
  · exact completes_pure ()

/-! ### Actions -/

/-- What stays as it is while an instruction is carried out: the program, the size of the data store
and the state.  The stack of a machine that is not `tidy` need not lie below the heap. -/
structure Footing where
  tidy : Bool
  program : Program
  words : Int
  state : MachineState

/-- A machine with its heap in the data store.  The stack top may be anywhere above the start of the
data store, and the base of the local frame may be any word. -/
structure Rooted (c : Footing) (m : Machine) : Prop where
  st_nonneg : 0 ≤ m.st
  ht_nonneg : 0 ≤ m.ht
  ht_le : m.ht ≤ m.hb
  below : c.tidy = true → m.st ≤ m.ht ∧ minWord ≤ m.lb
  hb_eq : m.hb = c.words
  program_eq : m.program = c.program
  state_eq : m.state = c.state

/-- The data store and the code pointer are the same. -/
structure Unwritten (m m' : Machine) : Prop where
  data : m'.data = m.data
  cp : m'.cp = m.cp

instance : Std.Refl Unwritten := ⟨fun _ => ⟨rfl, rfl⟩⟩

theorem Unwritten.trans {l m n : Machine} (h : Unwritten l m) (h' : Unwritten m n) :
    Unwritten l n :=
  ⟨h'.data.trans h.data, h'.cp.trans h.cp⟩

section

variable {c : Footing} {m : Machine}

section

variable (h : m.Rooted c)

include h

theorem Rooted.poke (addr value : Int) : (m.poke addr value).Rooted c := by
  refine ⟨h.st_nonneg, h.ht_nonneg, ?_, h.below, ?_, h.program_eq, h.state_eq⟩
  · rw [poke_hb]
    exact h.ht_le
  · rw [poke_hb]
    exact h.hb_eq

theorem Rooted.withST {st : Int} (hst : 0 ≤ st) (hle : st ≤ m.st ∨ st ≤ m.ht) :
    (m.withST st).Rooted c := by
  refine ⟨hst, h.ht_nonneg, h.ht_le, fun ht => ⟨?_, (h.below ht).2⟩, h.hb_eq, h.program_eq, h.state_eq⟩
  have hbel := (h.below ht).1
  simp only [withST_st, withST_ht]
  omega

theorem Rooted.withHT {ht : Int} (hst : m.st ≤ ht) (hle : ht ≤ m.ht) : (m.withHT ht).Rooted c :=
  ⟨h.st_nonneg, Int.le_trans h.st_nonneg hst, Int.le_trans hle h.ht_le,
    fun htidy => ⟨hst, (h.below htidy).2⟩, h.hb_eq, h.program_eq, h.state_eq⟩

theorem Rooted.withFrame (ob : Int) {lb : Int} (hlb : minWord ≤ lb) :
    (m.withFrame ob lb).Rooted c :=
  ⟨h.st_nonneg, h.ht_nonneg, h.ht_le, fun htidy => ⟨(h.below htidy).1, hlb⟩, h.hb_eq, h.program_eq,
    h.state_eq⟩

theorem Rooted.withCP (cp : Int) : (m.withCP cp).Rooted c :=
  ⟨h.st_nonneg, h.ht_nonneg, h.ht_le, h.below, h.hb_eq, h.program_eq, h.state_eq⟩

theorem Rooted.console (input : Input) (output : Output) (lastChar : Int) :
    Rooted c { m with input := input, output := output, lastChar := lastChar } :=
  ⟨h.st_nonneg, h.ht_nonneg, h.ht_le, h.below, h.hb_eq, h.program_eq, h.state_eq⟩

theorem Rooted.framed (ha : 0 ≤ addr ∧ addr + linkWords ≤ m.ht) (ob : Int) :
    (Exec.framed m addr ob).Rooted c := by
  have hpok := ((h.poke addr m.ob).poke (addr + 1) m.lb).poke (addr + 2) (m.cp + 1)
  have hfr := hpok.withFrame ob (Int.le_trans (by decide) ha.1)
  refine hfr.withST ?_ (.inr ?_)
  · simp only [linkWords]
    omega
  · rw [withFrame_ht, poke_ht, poke_ht, poke_ht]
    exact ha.2

theorem Rooted.allocated (tag : Int) {n : Nat} (hroom : m.HasRoom n) :
    (m.allocated tag n).Rooted c := by
  have hst := h.st_nonneg
  have hht := h.ht_le
  simp only [HasRoom, headerWords] at hroom
  refine ⟨?_, ?_, ?_, fun htidy => ?_, ?_, ?_, ?_⟩
  · rwa [allocated_st]
  · rw [allocated_ht, headerWords]
    omega
  · rw [allocated_ht, allocated_hb, headerWords]
    omega
  · rw [allocated_st, allocated_ht, allocated_eq, headerWords]
    exact ⟨by omega, (h.below htidy).2⟩
  · rw [allocated_hb]
    exact h.hb_eq
  · rw [allocated_eq]
    exact h.program_eq
  · rw [allocated_eq]
    exact h.state_eq

end

end

namespace Exec

variable {α β : Type} {c : Footing} {m : Machine} {R : Machine → Machine → Prop}

/-- Started in `m`, the action changes nothing, and a result has the property `P`.  If the machine is
tidy, nothing but the program stops it; this is said of all actions below. -/
def Looks (c : Footing) (x : Exec α) (m : Machine) (P : α → Prop) : Prop :=
  Ensures x m (fun a m' => m' = m ∧ P a) fun e m' => m' = m ∧ (c.tidy = true → e.Orderly)

/-- Started in `m`, the action changes nothing but registers, the input and the output. -/
def Moves (c : Footing) (x : Exec α) (m : Machine) (P : α → Machine → Prop) : Prop :=
  Ensures x m (fun a m' => m'.Rooted c ∧ Unwritten m m' ∧ P a m') fun e m' =>
    m'.Rooted c ∧ Unwritten m m' ∧ (c.tidy = true → e.Orderly)

/-- Where the action stops, the machine is as it was when it started in `m`, up to `R`. -/
def Refuses (R : Machine → Machine → Prop) (c : Footing) (x : Exec α) (m : Machine) : Prop :=
  Ensures x m (fun _ m' => m'.Rooted c) fun e m' =>
    m'.Rooted c ∧ R m m' ∧ (c.tidy = true → e.Orderly)

def Sure (c : Footing) (x : Exec α) (m : Machine) : Prop :=
  Ensures x m (fun _ m' => m'.Rooted c) fun _ _ => False

/-! ### Sequences of actions -/

variable {x : Exec α} {f : α → Exec β} {P : α → Prop} {addr : Int}

section

variable (hx : Looks c x m P)

include hx

theorem Looks.bind (hf : ∀ a, P a → Looks c (f a) m Q) : Looks c (x >>= f) m Q := by
  simp only [Looks, ensures_bind]
  refine Ensures.mono hx ?_ fun _ _ => id
  rintro a _ ⟨rfl, ha⟩
  exact hf a ha

theorem Looks.mono (h : ∀ a, P a → Q a) : Looks c x m Q :=
  Ensures.mono hx (fun a _ ha => ⟨ha.1, h a ha.2⟩) fun _ _ => id

theorem Looks.andThen [Std.Refl R] (hm : m.Rooted c) (hf : ∀ a, P a → Refuses R c (f a) m) :
    Refuses R c (x >>= f) m := by
  simp only [Refuses, ensures_bind]
  refine Ensures.mono hx ?_ ?_
  · rintro a _ ⟨rfl, ha⟩
    exact hf a ha
  · rintro e _ ⟨rfl, he⟩
    exact ⟨hm, Std.Refl.refl _, he⟩

theorem Looks.refuses [Std.Refl R] (hm : m.Rooted c) : Refuses R c x m := by
  refine Ensures.mono hx (fun _ _ h => h.1 ▸ hm) ?_
  rintro e _ ⟨rfl, he⟩
  exact ⟨hm, Std.Refl.refl _, he⟩

end

theorem Moves.andThen {P : α → Machine → Prop} (hx : Moves c x m P)
    (hf : ∀ a m', m'.Rooted c → P a m' → Refuses Unwritten c (f a) m') :
    Refuses Unwritten c (x >>= f) m := by
  simp only [Refuses, ensures_bind]
  refine Ensures.mono hx ?_ fun _ _ => id
  rintro a m' ⟨hm', hsame, ha⟩
  exact (hf a m' hm' ha).mono (fun _ _ => id) fun _ _ h => ⟨h.1, hsame.trans h.2.1, h.2.2⟩

theorem Sure.refuses (h : Sure c x m) : Refuses R c x m :=
  Ensures.mono h (fun _ _ => id) fun _ _ => False.elim

theorem Refuses.ends (h : Refuses R c x m) (b : β) : Refuses R c (x >>= fun _ => pure b) m := by
  simpa only [Refuses, ensures_bind, ensures_pure] using h

theorem refuses_pure (a : α) (hm : m.Rooted c) : Refuses R c (pure a) m := hm

theorem Moves.refuses {P : α → Machine → Prop} (h : Moves c x m P) : Refuses Unwritten c x m :=
  Ensures.mono h (fun _ _ h => h.1) fun _ _ => id

/-! ### Actions that change nothing -/

theorem looks_pure (a : α) : Looks c (pure a) m fun a' => a' = a := ⟨rfl, rfl⟩

theorem looks_get {f : Machine → Exec α} (h : Looks c (f m) m P) : Looks c (get >>= f) m P := h

theorem refuses_get {f : Machine → Exec α} (h : Refuses R c (f m) m) : Refuses R c (get >>= f) m := h

theorem looks_require (b : Bool) (hwhy : (Stop.failure why).Orderly) :
    Looks c (require b why) m fun _ => b = true := by
  rw [Looks, ensures_require]
  split_ifs with hb
  · exact ⟨rfl, hb⟩
  · exact ⟨rfl, fun _ => hwhy⟩

theorem looks_checkWord (x : Int) : Looks c (checkWord x) m fun _ => True :=
  (looks_require _ (by trivial)).bind fun _ _ => (looks_pure x).mono fun _ _ => trivial

theorem looks_word (h : c.tidy = true → 0 ≤ addr ∧ addr < m.hb) :
    Looks c (word addr) m fun _ => 0 ≤ addr ∧ addr < m.hb := by
  rw [Looks, ensures_word]
  split_ifs with hin
  · exact ⟨rfl, hin⟩
  · exact ⟨rfl, fun htidy => absurd (h htidy) hin⟩

theorem looks_checkAddress (addr : Int) :
    Looks c (checkAddress addr) m fun _ => 0 ≤ addr ∧ addr < m.hb := by
  exact looks_get ((looks_require _ (by trivial)).mono fun _ h => by simpa using h)

theorem looks_checkSpace (k : Int) : Looks c (checkSpace k) m fun _ => k ≤ m.ht - m.st := by
  exact looks_get ((looks_require _ (by trivial)).mono fun _ h => of_decide_eq_true h)

theorem looks_effective (i : Instr) : Looks c (effective i) m fun _ => True := by
  rw [effective]
  cases Reg.ofCode? i.r with
  | none => exact ⟨rfl, fun _ => trivial⟩
  | some r => exact ⟨rfl, trivial⟩

theorem looks_read (addr : Int) : Looks c (read addr) m fun _ => True :=
  (looks_checkAddress addr).bind fun _ h => (looks_word fun _ => h).mono fun _ _ => trivial

theorem looks_heapRef (addr : Int) :
    Looks c (heapRef addr) m fun _ => m.ht + headerWords ≤ addr ∧ addr ≤ m.hb := by
  refine (looks_require _ (by trivial)).bind fun _ _ => looks_get ?_
  exact (looks_require _ (by trivial)).mono fun _ h => by simpa using h

theorem looks_need (k : Int) : Looks c (need k) m fun st => st = m.st ∧ k ≤ m.st := by
  refine looks_get ((looks_require _ (by trivial)).bind fun _ h => ⟨rfl, rfl, ?_⟩)
  have hst : 0 ≤ m.st - k := of_decide_eq_true h
  omega

section

variable (hm : m.Rooted c)

include hm

/-- An operand is in the data store if the stack lies below the heap. -/
theorem looks_operand (hk : 0 < k ∧ k ≤ m.st) :
    Looks c (word (m.st - k)) m fun _ => m.st - k < m.hb := by
  refine (looks_word fun htidy => ?_).mono fun _ h => h.2
  have hst := (hm.below htidy).1
  have hht := hm.ht_le
  omega

theorem looks_top1 : Looks c top1 m fun _ => 1 ≤ m.st ∧ m.st ≤ m.hb := by
  refine (looks_need 1).bind ?_
  rintro _ ⟨rfl, hst⟩
  exact (looks_operand hm ⟨by decide, hst⟩).mono fun _ h => ⟨hst, by omega⟩

theorem looks_top2 : Looks c top2 m fun _ => 2 ≤ m.st ∧ m.st ≤ m.hb := by
  refine (looks_need 2).bind ?_
  rintro _ ⟨rfl, hst⟩
  refine (looks_operand hm ⟨by decide, hst⟩).bind fun x _ =>
    (looks_operand hm ⟨by decide, by omega⟩).bind fun y hy => ?_
  exact ⟨rfl, hst, by omega⟩

theorem looks_top3 : Looks c top3 m fun _ => 3 ≤ m.st ∧ m.st ≤ m.hb := by
  refine (looks_need 3).bind ?_
  rintro _ ⟨rfl, hst⟩
  refine (looks_operand hm ⟨by decide, hst⟩).bind fun x _ =>
    (looks_operand hm ⟨by decide, by omega⟩).bind fun y _ =>
      (looks_operand hm ⟨by decide, by omega⟩).bind fun z hz => ?_
  exact ⟨rfl, hst, by omega⟩

theorem looks_header (haddr : m.ht + headerWords ≤ addr ∧ addr ≤ m.hb)
    (hk : -headerWords ≤ k ∧ k < 0) : Looks c (word (addr + k)) m fun _ => True := by
  have hht := hm.ht_nonneg
  exact (looks_word fun _ => by omega).mono fun _ _ => trivial

theorem looks_within (haddr : m.ht + headerWords ≤ addr ∧ addr ≤ m.hb) (index n : Int)
    (hwhy : (Stop.failure why).Orderly) :
    Looks c (require (0 ≤ index && index < n && addr + index < m.hb) why) m fun _ =>
      0 ≤ addr + index ∧ addr + index < m.hb := by
  have hht := hm.ht_nonneg
  refine (looks_require _ hwhy).mono fun _ h => ?_
  simp only [headerWords] at haddr
  simp only [Bool.and_eq_true, decide_eq_true_eq] at h
  omega

theorem looks_arrayIndex (addr index : Int) :
    Looks c (arrayIndex addr index) m fun _ => 0 ≤ addr + index ∧ addr + index < m.hb := by
  refine (looks_heapRef addr).bind fun _ ha => (looks_header hm ha (by decide)).bind fun tag _ =>
    (looks_require _ (by trivial)).bind fun _ _ => (looks_header hm ha (by decide)).bind fun n _ => ?_
  exact looks_get (looks_within hm ha index n (by trivial))

theorem looks_fieldIndex (addr index : Int) :
    Looks c (fieldIndex addr index) m fun _ => 0 ≤ addr + index ∧ addr + index < m.hb := by
  refine (looks_heapRef addr).bind fun _ ha => (looks_header hm ha (by decide)).bind fun n _ => ?_
  exact looks_get (looks_within hm ha index n (by trivial))

end

/-! ### Actions that nothing stops -/

section

variable (hm : m.Rooted c)

include hm

theorem sure_setWord (h : 0 ≤ addr ∧ addr < m.hb) (value : Int) :
    Sure c (setWord addr value) m := by
  simpa only [Sure, ensures_setWord, if_pos h] using hm.poke addr value

theorem sure_setTop (h : 1 ≤ m.st ∧ m.st ≤ m.hb) (value : Int) : Sure c (setTop value) m := by
  exact sure_setWord hm ⟨by omega, by omega⟩ value

theorem sure_pushFrame (ob : Int)
    (h : 0 ≤ addr ∧ addr + linkWords ≤ m.ht) : Sure c (pushFrame addr ob) m := by
  have hht := hm.ht_le
  exact (ensures_pushFrame ob ⟨h.1, by omega⟩).2 (hm.framed h ob)

theorem sure_setNext (h : 2 ≤ m.st ∧ m.st ≤ m.hb) (value : Int) :
    Sure c (do drop 1; setTop value) m := by
  exact sure_setTop (hm.withST (by omega) (.inl (by omega)))
    (by simp only [withST_st, withST_hb]; omega) value

theorem sure_push (h : m.st < m.ht) (value : Int) : Sure c (push value) m := by
  have hst := hm.st_nonneg
  have hht := hm.ht_le
  have hsp : 1 ≤ m.ht - m.st := by omega
  have hin : 0 ≤ m.st ∧ m.st < m.hb := by omega
  simp only [push, checkSpace, Sure, ensures_bind, ensures_get, ensures_require, hsp, decide_true,
    ↓reduceIte, ensures_setWord, hin, and_self, ensures_setST]
  exact (hm.poke m.st value).withST (by omega) (.inr h)

end

/-! ### Actions that write last -/

section

variable [Std.Refl R]

section

variable (hm : m.Rooted c)

include hm

theorem refuses_write (addr value : Int) : Refuses R c (write addr value) m :=
  (looks_checkAddress addr).andThen hm fun _ h => (sure_setWord hm h value).refuses

theorem refuses_push (value : Int) : Refuses R c (push value) m := by
  by_cases h : m.st < m.ht
  · exact (sure_push hm h value).refuses
  · have hsp : ¬ 1 ≤ m.ht - m.st := by omega
    simp only [push, checkSpace, Refuses, ensures_bind, ensures_get, ensures_require, hsp,
      decide_false, Bool.false_eq_true, ↓reduceIte]
    exact ⟨hm, Std.Refl.refl _, fun _ => trivial⟩

theorem refuses_unary {f : Int → Exec Int}
    (hf : ∀ x, Looks c (f x) m fun _ => True) : Refuses R c (unary f) m :=
  (looks_top1 hm).andThen hm fun x h => (hf x).andThen hm fun r _ => (sure_setTop hm h r).refuses

theorem refuses_binary {f : Int → Int → Exec Int}
    (hf : ∀ x y, Looks c (f x y) m fun _ => True) : Refuses R c (binary f) m :=
  (looks_top2 hm).andThen hm fun (x, y) h => (hf x y).andThen hm fun r _ =>
    (sure_setNext hm h r).refuses

end

omit [Std.Refl R] in
theorem refuses_fetch (hm : m.Rooted c) (hst : 2 ≤ m.st ∧ m.st ≤ m.hb)
    (h : 0 ≤ addr ∧ addr < m.hb) : Refuses R c (do drop 1; setTop (← word addr)) m := by
  have hin : 0 ≤ addr ∧ addr < (m.withST (m.st - 1)).hb := h
  have hs := sure_setNext hm hst (m.peek addr)
  refine Sure.refuses ?_
  simp only [Sure, ensures_bind, ensures_drop, ensures_word, if_pos hin]
  exact hs

omit [Std.Refl R] in
theorem refuses_store (hm : m.Rooted c) (hst : 3 ≤ m.st) (h : 0 ≤ addr ∧ addr < m.hb)
    (value : Int) : Refuses R c (do setWord addr value; drop 3) m := by
  refine Sure.refuses ?_
  simp only [Sure, ensures_bind, ensures_setWord, if_pos h, ensures_drop]
  exact (hm.poke addr value).withST (by simp only [poke_st]; omega) (.inl (by omega))

theorem refuses_allocate {tag size : Int} {f : Int → Exec β} (hm : m.Rooted c)
    (hf : ∀ n : Nat, size = n → m.HasRoom n → Sure c (f (m.ht - n)) (m.allocated tag n)) :
    Refuses R c (allocate tag size >>= f) m := by
  simp only [Refuses, ensures_bind]
  by_cases hr : 0 ≤ size ∧ size + headerWords ≤ m.ht - m.st
  · obtain ⟨n, rfl⟩ := Int.eq_ofNat_of_zero_le hr.1
    rw [ensures_allocate hm.st_nonneg hm.ht_le tag hr.2]
    exact (hf n rfl hr.2).mono (fun _ _ => id) fun _ _ => False.elim
  · rw [ensures_allocate_stop tag (by omega)]
    refine ⟨hm, Std.Refl.refl _, fun _ => ?_⟩
    split_ifs <;> trivial

theorem refuses_computing (hm : m.Rooted c) {q : Prim} (hq : q.computes = true) :
    Refuses R c (primitive q) m := by
  cases q <;> simp only [Prim.computes, Bool.false_eq_true] at hq <;> rw [primitive]
  case id => exact refuses_pure () hm
  case not => exact refuses_unary hm fun _ => (looks_pure _).mono fun _ _ => trivial
  case succ | pred | neg => exact refuses_unary hm fun _ => looks_checkWord _
  case and | or | lt | le | ge | gt | eq | ne =>
    exact refuses_binary hm fun _ _ => (looks_pure _).mono fun _ _ => trivial
  case add | sub | mult => exact refuses_binary hm fun _ _ => looks_checkWord _
  case div | mod =>
    exact refuses_binary hm fun _ _ => (looks_require _ (by trivial)).bind fun _ _ => looks_checkWord _
  case alloc =>
    refine (looks_top1 hm).andThen hm fun size hst => (looks_require _ (by trivial)).andThen hm
      fun _ hs => (looks_checkSpace size).andThen hm fun _ hsp => Sure.refuses ?_
    have hs : 0 ≤ size := of_decide_eq_true hs
    have hm' : (m.withHT (m.ht - size)).Rooted c := hm.withHT (by omega) (by omega)
    exact sure_setTop hm' hst _
  case newobj =>
    refine (looks_top2 hm).andThen hm ?_
    rintro ⟨tag, size⟩ hst
    refine refuses_allocate hm fun n _ hr => ?_
    have hm' := hm.allocated tag hr
    refine sure_push (hm'.withST ?_ (.inl (by omega))) ?_ _
    · rw [allocated_st]
      omega
    · rw [withST_st, withST_ht, allocated_st, allocated_ht]
      simp only [HasRoom] at hr
      omega
  case newarr =>
    refine (looks_top1 hm).andThen hm fun size hst => refuses_allocate hm fun n _ hr => ?_
    refine sure_setTop (hm.allocated _ hr) ?_ _
    rwa [allocated_st, allocated_hb]
  case arrayref | fieldref =>
    refine (looks_top2 hm).andThen hm ?_
    rintro ⟨addr, index⟩ hst
    refine Looks.andThen ?_ hm fun _ hin => refuses_fetch hm hst hin
    first | exact looks_arrayIndex hm addr index | exact looks_fieldIndex hm addr index
  case arrayupd | fieldupd =>
    refine (looks_top3 hm).andThen hm ?_
    rintro ⟨addr, index, value⟩ hst
    refine Looks.andThen ?_ hm fun _ hin => refuses_store hm hst.1 hin value
    first | exact looks_arrayIndex hm addr index | exact looks_fieldIndex hm addr index

end

/-! ### Actions that move registers -/

section

variable (hm : m.Rooted c)

include hm

theorem moves_drop (h : 0 ≤ k ∧ k ≤ m.st) : Moves c (drop k) m fun _ _ => True :=
  ⟨hm.withST (by omega) (.inl (by omega)), ⟨rfl, rfl⟩, trivial⟩

theorem moves_pop : Moves c pop m fun _ _ => True := by
  simp only [Moves, pop, ensures_bind, ensures_get, ensures_require, ensures_setST, ensures_word]
  by_cases hpos : 0 < m.st
  · have hm' : (m.withST (m.st - 1)).Rooted c := hm.withST (by omega) (.inl (by omega))
    simp only [hpos, decide_true, ↓reduceIte]
    split_ifs with hin
    · exact ⟨hm', ⟨rfl, rfl⟩, trivial⟩
    · refine ⟨hm', ⟨rfl, rfl⟩, fun htidy => absurd ?_ hin⟩
      have hst := (hm.below htidy).1
      have hht := hm.ht_le
      simp only [withST_hb]
      omega
  · simpa only [hpos, decide_false, Bool.false_eq_true, ↓reduceIte] using
      ⟨hm, ⟨rfl, rfl⟩, fun _ => trivial⟩

theorem moves_print (text : String) : Moves c (print text) m fun _ _ => True := by
  simp only [Moves, Ensures, print]
  cases m.output.refuses text with
  | some cause => exact ⟨hm, ⟨rfl, rfl⟩, fun _ => trivial⟩
  | none => exact ⟨hm.console _ _ _, ⟨rfl, rfl⟩, trivial⟩

theorem moves_dumpOut : Moves c dumpOut m fun _ _ => True := by
  have hcom : c.tidy = true → m.dump.pieces.2 = none := by
    intro ht
    exact (Bounded.completes_dump ⟨hm.st_nonneg, (hm.below ht).1, hm.ht_le⟩).pieces
  simp only [Moves, Ensures, dumpOut]
  cases hfaul : m.dump.pieces.2 with
  | some f =>
    refine ⟨hm.console _ _ _, ⟨rfl, rfl⟩, fun ht => ?_⟩
    cases (hcom ht).symm.trans hfaul
  | none => exact ⟨hm.console _ _ _, ⟨rfl, rfl⟩, trivial⟩

theorem moves_readAfter (f : UInt8 → Bool) : Moves c (readAfter f) m fun _ m' => m'.st = m.st := by
  simp only [Moves, Ensures, readAfter]
  rcases m.input.nextAfter f with ⟨b | _ | cause, input⟩
  · exact ⟨hm.console _ _ _, ⟨rfl, rfl⟩, rfl⟩
  · exact ⟨hm.console _ _ _, ⟨rfl, rfl⟩, rfl⟩
  · exact ⟨hm.console _ _ _, ⟨rfl, rfl⟩, fun _ => trivial⟩

theorem moves_readInt : Moves c readInt m fun _ m' => m'.st = m.st := by
  simp only [Moves, Ensures, readInt]
  rcases m.input.readInt with ⟨⟨v, after⟩ | _ | cause, input⟩
  · exact ⟨hm.console _ _ _, ⟨rfl, rfl⟩, rfl⟩
  · exact ⟨hm.console _ _ _, ⟨rfl, rfl⟩, fun _ => trivial⟩
  · exact ⟨hm.console _ _ _, ⟨rfl, rfl⟩, fun _ => trivial⟩

end

/-! ### Instructions -/

theorem refuses_primitive (hm : m.Rooted c) (q : Prim) : Refuses Unwritten c (primitive q) m := by
  by_cases hq : q.computes = true
  · exact refuses_computing hm hq
  cases q <;> simp only [Prim.computes, not_true_eq_false] at hq <;> rw [primitive]
  case eol | eof =>
    exact refuses_push hm _
  case get =>
    refine (looks_top1 hm).andThen hm fun addr hst => (moves_readAfter hm _).andThen ?_
    intro w m' hm' hst'
    exact (moves_drop hm' ⟨by decide, by omega⟩).andThen fun _ _ hm' _ => refuses_write hm' addr w
  case put | putint | putintnl =>
    exact (moves_pop hm).andThen fun _ _ hm' _ => (moves_print hm' _).refuses
  case geteol => exact (moves_readAfter hm _).refuses.ends ()
  case puteol => exact (moves_print hm _).refuses
  case getint =>
    refine (looks_top1 hm).andThen hm fun addr hst => (moves_readInt hm).andThen ?_
    intro v m' hm' hst'
    refine (looks_checkWord v).andThen hm' fun w _ => ?_
    exact (moves_drop hm' ⟨by decide, by omega⟩).andThen fun _ _ hm' _ => refuses_write hm' addr w
  case dispose => exact (moves_pop hm).refuses.ends ()

theorem refuses_call [Std.Refl R] (hm : m.Rooted c) (addr next : Int)
    (hq : ∀ q, m.primAt? addr = some q → Refuses R c (primitive q) m) :
    Refuses R c (call addr next) m := by
  refine refuses_get ?_
  split_ifs with hprim
  · split
    · rename_i q hcode
      exact (hq q (by rw [primAt?, if_pos hprim, hcode])).ends next
    · exact ⟨hm, Std.Refl.refl _, fun _ => trivial⟩
  · refine (looks_checkSpace linkWords).andThen hm fun _ hsp => refuses_get ?_
    exact (sure_pushFrame hm 0 ⟨hm.st_nonneg, by omega⟩).refuses.ends addr

theorem refuses_callInstance [Std.Refl R] (hm : m.Rooted c) (addr : Int) :
    Refuses R c (callInstance addr) m := by
  refine refuses_get ?_
  refine (looks_require _ (by trivial)).andThen hm fun _ _ => (looks_top1 hm).andThen hm fun object hst =>
    (looks_checkSpace _).andThen hm fun _ hsp => refuses_get ?_
  simp only [linkWords] at hsp
  exact (sure_pushFrame hm object ⟨by omega, by simp only [linkWords]; omega⟩).refuses.ends addr

theorem refuses_callDynamic [Std.Refl R] (hm : m.Rooted c) (index : Int) :
    Refuses R c (callDynamic index) m := by
  -- A descriptor lies on the stack, and this in the data store if the machine is tidy.
  have hstk : ∀ {addr}, 0 ≤ addr → addr < m.st → Looks c (word addr) m fun _ => True := by
    intro addr h₀ hlt
    refine (looks_word fun htidy => ?_).mono fun _ _ => trivial
    have hst := (hm.below htidy).1
    have hht := hm.ht_le
    omega
  refine (looks_top1 hm).andThen hm fun object hst => (looks_heapRef object).andThen hm fun _ hobj =>
    (looks_header hm hobj (by decide)).andThen hm fun desc _ => refuses_get ?_
  refine (looks_require _ (by trivial)).andThen hm fun _ hd => ?_
  rw [Bool.and_eq_true] at hd
  have hd₀ : 0 ≤ desc := of_decide_eq_true hd.1
  have hd₁ : desc + 3 ≤ m.st := of_decide_eq_true hd.2
  have hcnt : 0 ≤ desc + descriptorCount ∧ desc + descriptorCount < m.st := by
    simp only [descriptorCount]
    omega
  refine (hstk hcnt.1 hcnt.2).andThen hm fun count _ => (looks_require _ (by trivial)).andThen hm
    fun _ hidx => (looks_checkSpace _).andThen hm fun _ hsp => ?_
  rw [Bool.and_eq_true, Bool.and_eq_true] at hidx
  have hidx₀ : 0 ≤ index := of_decide_eq_true hidx.1.1
  have hmeth : 0 ≤ desc + descriptorMethods + index := by
    simp only [descriptorMethods]
    omega
  simp only [linkWords] at hsp
  refine (hstk hmeth (of_decide_eq_true hidx.2)).andThen hm fun addr _ => ?_
  exact (sure_pushFrame hm object ⟨by omega, by simp only [linkWords]; omega⟩).refuses.ends addr

/-- The part of a return after its result has been taken from the stack.  The result is written
after all else that can stop the return. -/
theorem refuses_leave (hc : c.tidy = false) (hm : m.Rooted c) {k : Int} (h : 0 ≤ addr + k)
    (lb result : Int) :
    Refuses Unwritten c (do
      let ob ← word lb
      modify fun m => { m with ob := ob }
      let next ← word (lb + 2)
      let link ← word (lb + 1)
      modify fun m => { m with lb := link }
      if k = 1 then setWord addr result
      setST (addr + k)
      return next) m := by
  have hw : ∀ {P : Prop}, c.tidy = true → P := fun ht => by
    rw [hc] at ht
    cases ht
  -- The registers may get any value.
  have hmov : ∀ {m : Machine} (ob lb : Int), m.Rooted c → (m.withFrame ob lb).Rooted c :=
    fun _ _ hm => ⟨hm.st_nonneg, hm.ht_nonneg, hm.ht_le, hw, hm.hb_eq, hm.program_eq, hm.state_eq⟩
  refine (looks_word hw).andThen hm fun ob _ => ?_
  have hm₁ := hmov ob m.lb hm
  refine Moves.andThen (P := fun _ m' => m' = m.withFrame ob m.lb) ⟨hm₁, ⟨rfl, rfl⟩, rfl⟩ ?_
  rintro _ _ - rfl
  refine (looks_word hw).andThen hm₁ fun next _ => (looks_word hw).andThen hm₁ fun link _ => ?_
  have hm₂ := hmov ob link hm
  refine Moves.andThen (P := fun _ m' => m' = m.withFrame ob link) ⟨hm₂, ⟨rfl, rfl⟩, rfl⟩ ?_
  rintro _ _ - rfl
  have hl : ∀ {m : Machine}, m.Rooted c → (m.withST (addr + k)).Rooted c := fun hm =>
    ⟨h, hm.ht_nonneg, hm.ht_le, hw, hm.hb_eq, hm.program_eq, hm.state_eq⟩
  by_cases hk : k = 1
  · simp only [if_pos hk, Refuses, ensures_bind, ensures_setWord, ensures_setST, ensures_pure]
    split_ifs
    · exact hl (hm₂.poke addr result)
    · exact ⟨hm₂, ⟨rfl, rfl⟩, hw⟩
  · simp only [if_neg hk]
    exact hl hm₂

theorem refuses_ret (hc : c.tidy = false) (hm : m.Rooted c) (k d : Int) :
    Refuses Unwritten c (ret k d) m := by
  refine (looks_require _ (by trivial)).andThen hm fun _ hk => refuses_get ?_
  refine (looks_require _ (by trivial)).andThen hm fun _ ha => ?_
  rw [Bool.and_eq_true] at hk ha
  have hst : 0 ≤ wrap64 (m.lb - d) + k :=
    Int.add_nonneg (of_decide_eq_true ha.1) (of_decide_eq_true hk.1)
  by_cases hres : k = 1
  · simp only [if_pos hres]
    refine (moves_pop hm).andThen fun result _ hm' _ => ?_
    simpa only [if_pos hres] using refuses_leave hc hm' hst m.lb result
  · simp only [if_neg hres]
    refine (looks_pure 0).andThen hm fun result _ => ?_
    simpa only [if_neg hres] using refuses_leave hc hm hst m.lb result

theorem refuses_operation (hm : m.Rooted c) {op : Opcode} (hop : c.tidy = true → op ≠ .ret) (i : Instr)
    (next : Int) : Refuses Unwritten c (operation op i next) m := by
  cases op with
  | load =>
    exact (looks_effective i).andThen hm fun addr _ => (looks_read addr).andThen hm
      fun w _ => (refuses_push hm w).ends next
  | loada => exact (looks_effective i).andThen hm fun addr _ => (refuses_push hm addr).ends next
  | loadi =>
    exact (moves_pop hm).andThen fun addr _ hm _ => (looks_read addr).andThen hm
      fun w _ => (refuses_push hm w).ends next
  | loadl => exact (refuses_push hm i.d).ends next
  | store =>
    exact (looks_effective i).andThen hm fun addr _ => (moves_pop hm).andThen
      fun w _ hm _ => (refuses_write hm addr w).ends next
  | storei =>
    exact (looks_top2 hm).andThen hm fun (w, addr) hst => (moves_drop hm ⟨by decide, hst.1⟩).andThen
      fun _ _ hm _ => (refuses_write hm addr w).ends next
  | call =>
    exact (looks_effective i).andThen hm fun addr _ => refuses_call hm addr next
      fun q _ => refuses_primitive hm q
  | calli => exact (looks_effective i).andThen hm fun addr _ => refuses_callInstance hm addr
  | calld => exact refuses_callDynamic hm i.d
  | ret => exact refuses_ret (Bool.eq_false_iff.2 fun htidy => hop htidy rfl) hm i.n i.d
  | push =>
    refine (looks_require _ (by trivial)).andThen hm fun _ hd => (looks_checkSpace i.d).andThen hm
      fun _ hsp => refuses_get ?_
    exact hm.withST (Int.add_nonneg hm.st_nonneg (of_decide_eq_true hd)) (.inr (by omega))
  | pop =>
    refine refuses_get ?_
    refine (looks_require _ (by trivial)).andThen hm fun _ hd => ?_
    rw [Bool.and_eq_true] at hd
    exact (moves_drop hm ⟨of_decide_eq_true hd.1, of_decide_eq_true hd.2⟩).refuses.ends next
  | jump => exact (looks_effective i).refuses hm
  | jumpi => exact (moves_pop hm).refuses
  | jumpif =>
    refine (moves_pop hm).andThen fun w m' hm' _ => ?_
    split_ifs
    · exact (looks_effective i).refuses hm'
    · exact refuses_pure next hm'
  | halt =>
    rw [operation]
    split_ifs
    · exact (moves_dumpOut hm).refuses.ends next
    · exact ⟨hm, ⟨rfl, rfl⟩, fun _ => trivial⟩

theorem ensures_instruction_rooted {stop : Stop → Machine → Prop} {op : Opcode} {i : Instr}
    (hop : Opcode.ofCode? i.op = some op)
    (h : Ensures (operation op i (m.cp + 1)) m (fun _ m' => m'.Rooted c) stop)
    (hout : ∀ addr top (m' : Machine), m'.Rooted c → stop (.failure (.codeAddress addr top)) m') :
    Ensures (instruction i) m (fun _ m' => m'.Rooted c ∧ 0 ≤ m'.cp ∧ m'.cp < m'.ct) stop := by
  rw [ensures_instruction hop]
  refine h.mono (fun next m' hm' => ?_) fun _ _ => id
  split_ifs with hnext
  · exact ⟨hm'.withCP next, hnext⟩
  · exact hout _ _ _ (hm'.withCP next)

end Exec

end Machine

end MiniJam
