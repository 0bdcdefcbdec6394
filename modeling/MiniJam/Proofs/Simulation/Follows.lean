import MiniJam.Proofs.Simulation.Primitives

/-!
# Machines that follow a run

`Follows X top C x φ C'` says that a machine follows the part `x` of a run: if `x` takes the store
`s` to `s'` with the result `a`, then the machine comes from the configuration `C s` to `C' a s'`; and
if `x` ends with a failure that machines notice, then so does the program of the machine.  Both are
promised if the data store has room for a stack of `top` words next to the heap of `s'`.  There are
rules for the ways in which parts of a run are put together.

`Performs X need K cp ts x ts'` says that the instruction at `cp` carries out the part `x` of a run in
one step.  There is one lemma for each operation of the semantics.
-/

namespace MiniJam

open List Machine Layout

namespace Simulation

open Semantics Machine.Exec

variable {X : Target} {top : Nat}

def Target.used (X : Target) (s : Store) : Nat := heapWords X.package s.heap

/-- How a machine in the configuration `c` notices that a part of a run does not go on.  Nothing is
promised if that gets stuck or goes too deep. -/
structure Breaks (X : Target) (c : Config) (e : Abort) (printed : List Int) : Prop where
  fails : ∀ why, e.failure? = some why → Fails X c why printed
  meetsNull : e = .nullReference → MeetsNull X c printed

/-- The parts of a run that nothing is promised about if they end so. -/
def Vague (e : Abort) : Prop := e.failure? = none ∧ e ≠ .nullReference

/-- How a machine that was in the configuration `c` at the store `s` follows the end of a part of a
run. -/
def Ends {α : Type} (X : Target) (top : Nat) (s : Store) (c : Config) (φ : α → Prop)
    (C' : α → Store → Config) : EStateM.Result Abort Store α → Prop
  | .ok a s' => φ a ∧ X.used s ≤ X.used s' ∧ (top + X.used s' ≤ X.size → Arrives X c (C' a s'))
  | .error e s' => X.used s ≤ X.used s' ∧
    (top + X.used s' ≤ X.size → Breaks X c e s'.printed)

def Follows {α : Type} (X : Target) (top : Nat) (C : Store → Config) (x : Eval α) (φ : α → Prop)
    (C' : α → Store → Config) : Prop :=
  ∀ s, Ends X top s (C s) φ C' (x s)

variable {c : Config} {s : Store} {n n' : Int} {op : Operator} {heap : List Block} {q : Prim}
  {a k cls size : Nat} {id : MemberId} {fields : Nat → Value}

theorem Arrives.breaks {e : Abort} {printed : List Int} (h : Arrives X c c')
    (h' : Breaks X c' e printed) : Breaks X c e printed where
  fails why hwhy := h.fails (h'.fails why hwhy)
  meetsNull he := h.meetsNull (h'.meetsNull he)

/-! ### Rules -/

section

variable {α β : Type} {C C₀ : Store → Config} {x : Eval α} {φ : α → Prop}
  {C' C'' : α → Store → Config}

theorem Follows.bind {f : α → Eval β} (hx : Follows X top C x φ C')
    (hf : ∀ a, φ a → Follows X top (C' a) (f a) ψ D) : Follows X top C (x >>= f) ψ D := by
  intro s
  have hx := hx s
  simp only [Bind.bind, EStateM.bind]
  cases hxs : x s with
  | error e s₁ =>
    rw [hxs] at hx
    exact hx
  | ok a s₁ =>
    rw [hxs] at hx
    obtain ⟨ha, hle, hx⟩ := hx
    have hf := hf a ha s₁
    dsimp only
    cases hfs : f a s₁ with
    | ok b s₂ =>
      rw [hfs] at hf
      obtain ⟨hb, hle', hf⟩ := hf
      exact ⟨hb, by omega, fun hr => (hx (by omega)).trans (hf hr)⟩
    | error e s₂ =>
      rw [hfs] at hf
      obtain ⟨hle', hf⟩ := hf
      exact ⟨by omega, fun hr => (hx (by omega)).breaks (hf hr)⟩

theorem follows_pure {a : α} (ha : φ a)
    (h : ∀ s, top + X.used s ≤ X.size → Arrives X (C s) (C' a s)) :
    Follows X top C (pure a) φ C' :=
  fun s => ⟨ha, Nat.le_refl _, h s⟩

variable {s : Store} {c : Config}

theorem ends_vague {e : Abort} (he : Vague e) : Ends X top s c φ C' (.error e s) :=
  ⟨Nat.le_refl _, fun _ =>
    ⟨fun _ hwhy => absurd (he.1.symm.trans hwhy) nofun, fun hnull => absurd hnull he.2⟩⟩

theorem follows_throw {e : Abort} (he : Vague e) : Follows X top C (throw e : Eval α) φ C' :=
  fun _ => ends_vague he

theorem ends_null (h : top + X.used s ≤ X.size → MeetsNull X c s.printed) :
    Ends X top s c φ C' (.error .nullReference s) :=
  ⟨Nat.le_refl _, fun hroom => ⟨nofun, fun _ => h hroom⟩⟩

theorem follows_expect : Follows X top C (expect o) (fun a => o = some a) fun _ => C := by
  cases o with
  | none => exact follows_throw ⟨rfl, nofun⟩
  | some a => exact follows_pure rfl fun s _ => .refl _

theorem Ends.before {r : EStateM.Result Abort Store α} (h : Ends X top s c φ C' r)
    (hc : top + X.used s ≤ X.size → Arrives X c₀ c) : Ends X top s c₀ φ C' r := by
  cases r with
  | ok a s' => exact ⟨h.1, h.2.1, fun hr => (hc (by have := h.2.1; omega)).trans (h.2.2 hr)⟩
  | error e s' => exact ⟨h.1, fun hr => (hc (by have := h.1; omega)).breaks (h.2 hr)⟩

theorem Follows.before (h : Follows X top C x φ C')
    (hC : ∀ s, top + X.used s ≤ X.size → Arrives X (C₀ s) (C s)) : Follows X top C₀ x φ C' :=
  fun s => (h s).before (hC s)

theorem Follows.after (h : Follows X top C x φ C') (hφ : ∀ a, φ a → ψ a)
    (hC : ∀ a s, φ a → top + X.used s ≤ X.size → Arrives X (C' a s) (C'' a s)) :
    Follows X top C x ψ C'' := by
  intro s
  have h := h s
  cases hxs : x s with
  | ok a s' =>
    rw [hxs] at h
    exact ⟨hφ a h.1, h.2.1, fun hr => (h.2.2 hr).trans (hC a s' h.1 hr)⟩
  | error e s' =>
    rw [hxs] at h
    exact h

theorem Follows.ite {c : Prop} [Decidable c] (hx : c → Follows X top C x φ C')
    (hy : ¬ c → Follows X top C y φ C') : Follows X top C (if c then x else y) φ C' := by
  split
  · exact hx ‹_›
  · exact hy ‹_›

end

/-! ### Views -/

/-- What stays the same on the machine while an expression is evaluated: the frame, the current
object, and the words of the stack below the values of the expression.  Among these are the static
fields. -/
structure View where
  lb : Nat
  this : Value
  /-- The words on the stack, the one on top first. -/
  under : (MemberId → Value) → List Cell
  depth : Nat
  length_under : ∀ statics, (under statics).length = depth

/-- The configuration at an address and a store, with words on top of the stack. -/
def View.config (K : View) (cp : Nat) (ts : List Cell) (s : Store) : Config :=
  ⟨cp, K.lb, K.this, ts ++ K.under s.statics, s.heap, s.printed⟩

variable {K : View} {cp : Nat} {ts : List Cell} {line : Int}

theorem View.length_stack (K : View) (ts : List Cell) (s : Store) :
    (ts ++ K.under s.statics).length = ts.length + K.depth := by
  rw [length_append, K.length_under]

theorem View.room (K : View) (ts : List Cell) (n : Nat)
    (h : ts.length + K.depth + n ≤ top) (hroom : top + X.used s ≤ X.size) :
    (ts ++ K.under s.statics).length + n + heapWords X.package s.heap ≤ X.size := by
  rw [K.length_stack]
  unfold Target.used at hroom
  omega

theorem follows_this (hi : X.InstrAt cp (.make .loada n .ob 0))
    (hroom : ts.length + K.depth + 1 ≤ top) :
    Follows X top (K.config cp ts) (pure K.this) (fun _ => True)
      fun v => K.config (cp + 1) (.val v :: ts) := by
  refine follows_pure trivial fun s hsize => ?_
  have hpush : Grows X _ (K.config cp ts s) (K.config (cp + 1) (.val K.this :: ts) s) :=
    grows_loada hi fun m hm => ⟨hm.live, (Int.add_zero _).trans hm.ob⟩
  exact hpush.arrives (K.room ts 1 hroom hsize)

/-! ### Parts of a run that are one step -/

theorem Target.Extends.used_le {s' : Store} (h : X.Extends s.heap s'.heap) :
    X.used s ≤ X.used s' := by
  obtain ⟨rest, hrest⟩ := h
  rw [Target.used, Target.used, heapWords, heapWords, ← hrest, total_append]
  omega

/-- How one step of a machine that is in the configuration `c` at the store `s` carries out a part of
a run.  Nothing is promised if that gets stuck. -/
def Outcome {α : Type} (X : Target) (need : Nat) (s : Store) (c : Config)
    (C' : α → Store → Config) : EStateM.Result Abort Store α → Prop
  | .ok a s' => X.Extends s.heap s'.heap ∧ Grows X need c (C' a s')
  | .error e s' => s' = s ∧
    (e = .stuck ∨ e = .nullReference ∧ Refused X c ∨ ∃ why, e.failure? = some why ∧ Stops X c why)

/-- The instruction at `cp` carries out a part of a run: it takes the words `ts` from the stack, and
leaves the words `ts'` of the result there. -/
def Performs {α : Type} (X : Target) (need : Nat) (K : View) (cp : Nat) (ts : List Cell) (x : Eval α)
    (ts' : α → List Cell) : Prop :=
  ∀ s, Outcome X need s (K.config cp ts s) (fun a => K.config (cp + 1) (ts' a)) (x s)

section

variable {α : Type} {need : Nat} {x : Eval α} {ts' : α → List Cell}

theorem Performs.follows (h : Performs X need K cp ts x ts') (hneed : need ≤ top) :
    Follows X top (K.config cp ts) x (fun _ => True) fun a => K.config (cp + 1) (ts' a) := by
  intro s
  have h := h s
  cases hx : x s with
  | ok a s' =>
    rw [hx] at h
    obtain ⟨hext, hgrow⟩ := h
    refine ⟨trivial, hext.used_le, fun hroom => hgrow.arrives ?_⟩
    show need + X.used s' ≤ X.size
    omega
  | error e s' =>
    rw [hx] at h
    obtain ⟨rfl, h⟩ := h
    rcases h with rfl | ⟨rfl, href⟩ | ⟨why, hwhy, hstop⟩
    · exact ends_vague ⟨rfl, nofun⟩
    · exact ends_null fun _ => href.meetsNull
    · refine ⟨Nat.le_refl _, fun _ => ⟨fun why' hwhy' => ?_, ?_⟩⟩
      · cases hwhy.symm.trans hwhy'
        exact hstop.fails
      · rintro rfl
        cases hwhy

theorem performs_pure {a : α}
    (h : ∀ s, Grows X need (K.config cp ts s) (K.config (cp + 1) (ts' a) s)) :
    Performs X need K cp ts (pure a) ts' :=
  fun s => ⟨prefix_refl _, h s⟩

theorem performs_stuck : Performs X need K cp ts (throw .stuck) ts' := fun _ => ⟨rfl, .inl rfl⟩

theorem performs_throw {e : Abort} (he : e.failure? = some why)
    (h : ∀ s, Stops X (K.config cp ts s) why) : Performs X need K cp ts (throw e) ts' :=
  fun s => ⟨rfl, .inr (.inr ⟨why, he, h s⟩)⟩

theorem Performs.ite {c : Prop} [Decidable c] (hx : c → Performs X need K cp ts x ts')
    (hy : ¬ c → Performs X need K cp ts y ts') :
    Performs X need K cp ts (if c then x else y) ts' := by
  split
  · exact hx ‹_›
  · exact hy ‹_›

end

/-! ### Numbers and truth values -/

theorem follows_literal {d : Int} (hi : X.InstrAt cp (.make .loadl n .zr d))
    (hv : ∀ heap, Live heap v ∧ X.encode heap v = d) (hroom : ts.length + K.depth + 1 ≤ top) :
    Follows X top (K.config cp ts) (pure v) (fun _ => True)
      fun v => K.config (cp + 1) (.val v :: ts) := by
  refine follows_pure trivial fun s hsize => ?_
  have hgood : Cell.Good s.heap (.val v) := (hv s.heap).1
  have hpush : Grows X _ (K.config cp ts s) (K.config (cp + 1) (.val v :: ts) s) :=
    grows_literal hi hgood (hv s.heap).2.symm
  exact hpush.arrives (K.room ts 1 hroom hsize)

theorem follows_truth {target : Nat} (hi : X.InstrAt cp (.make .jumpif falseWord .cb target))
    (htgt : target < X.assembly.program.size) (v : Value) :
    Follows X top (K.config cp (.val v :: ts)) (truth v) (fun _ => True)
      fun b => K.config (if b then cp + 1 else target) ts := by
  match v with
  | .int _ | .null | .ref _ => exact follows_throw ⟨rfl, nofun⟩
  | .bool b =>
    refine follows_pure trivial fun s _ => ?_
    have hjump : Steps X (K.config cp (.val (.bool b) :: ts) s) ⟨if X.word s.heap (.val (.bool b)) =
        falseWord then target else cp + 1, K.lb, K.this, ts ++ K.under s.statics, s.heap,
        s.printed⟩ := steps_jumpif hi htgt
    cases b <;> exact hjump.arrives

theorem grows_copy (hi : X.InstrAt cp (.make .load n .st (-1))) (cell : Cell) (s : Store) :
    Grows X ((cell :: ts).length + K.depth + 1) (K.config cp (cell :: ts) s)
      (K.config (cp + 1) (cell :: cell :: ts) s) := by
  rw [← K.length_stack _ s]
  refine grows_load hi fun m hm => hm.reads_stack [] (ts ++ K.under s.statics) rfl ?_
  have hst : m.st = ((ts ++ K.under s.statics).length + 1 : Nat) := hm.st
  show m.st + -1 = _
  omega

theorem follows_decides {word : Int} (hw : Code.decidingWord? op = some word) {target : Nat}
    (hc : X.InstrAt cp (.make .load n .st (-1)))
    (hj : X.InstrAt (cp + 1) (.make .jumpif word .cb target))
    (htgt : target < X.assembly.program.size) (hroom : ts.length + K.depth + 2 ≤ top) (v : Value) :
    Follows X top (K.config cp (.val v :: ts)) (decides op v) (fun _ => True)
      fun b => K.config (if b then target else cp + 2) (.val v :: ts) := by
  have hc : ∀ s, top + X.used s ≤ X.size → Arrives X (K.config cp (.val v :: ts) s)
      (K.config (cp + 1) (.val v :: .val v :: ts) s) := by
    intro s hs
    refine (grows_copy hc (.val v) s).arrives ?_
    rw [length_cons]
    show _ + X.used s ≤ X.size
    omega
  have hj : ∀ s, Steps X (K.config (cp + 1) (.val v :: .val v :: ts) s)
      (K.config (if X.word s.heap (.val v) = word then target else cp + 2) (.val v :: ts) s) :=
    fun s => steps_jumpif hj htgt
  cases op with
  | or | and =>
    cases hw
    match v with
    | .int _ | .null | .ref _ => exact follows_throw ⟨rfl, nofun⟩
    | .bool b =>
      refine follows_pure trivial fun s hs => (hc s hs).trans ?_
      cases b <;> exact (hj s).arrives
  | not | eq | ne | lt | le | gt | ge | plus | minus | mul | div => cases hw

theorem performs_word {r : Int} (hok : minWord ≤ r ∧ r ≤ maxWord → ∀ s,
      Steps X (K.config cp ts s) (K.config (cp + 1) (.val (.int (.ofInt r)) :: ts') s))
    (hfail : ¬ (minWord ≤ r ∧ r ≤ maxWord) → ∀ s, Stops X (K.config cp ts s) (.overflow r)) :
    Performs X 0 K cp ts (word r) fun v => .val v :: ts' :=
  Performs.ite (fun h => performs_pure fun s => (hok h s).grows) fun h =>
    performs_throw rfl (hfail h)

theorem performs_neg (hi : X.InstrAt cp (.ofPrim .neg)) (a : Int32) :
    Performs X 0 K cp (.val (.int a) :: ts) (word (-a.toInt)) fun r =>
      .val r :: ts := by
  refine performs_word (fun hr s => steps_prim hi fun m hm => ?_) fun hr s => ?_
  · have hcell := trivial
    refine ensures_unary hm hcell ?_
    exact (checkWord_eq hr).trans (congrArg pure (toInt_ofInt_of_mem hr).symm)
  · refine stops_prim hi fun m hm => ?_
    simp only [primitive, Machine.Exec.unary, ensures_bind, ensures_top1 hm rfl]
    refine (ensures_checkWord_overflow hr).mono (fun _ _ => False.elim) ?_
    rintro e m' ⟨rfl, rfl⟩
    exact ⟨rfl, rfl, rfl⟩

theorem performs_unary (hi : X.InstrAt cp (.ofPrim (Code.unaryPrim op))) (v : Value) :
    Performs X 0 K cp (.val v :: ts) (unary op v) fun r => .val r :: ts := by
  cases op with
  | not =>
    match v with
    | .bool b =>
      refine performs_pure fun s => (steps_prim hi fun m hm => ?_).grows
      have hcell : Cell.Good s.heap (.val (.bool !b)) := trivial
      exact ensures_unary hm hcell (by cases b <;> rfl)
    | .int _ | .null | .ref _ => exact performs_stuck
  | or | and | eq | ne | lt | le | gt | ge | plus | minus | mul | div =>
    match v with
    | .int a => exact performs_neg hi a
    | .bool _ | .null | .ref _ => exact performs_stuck

theorem encode_beq {r : Bool} (h : same? x y = some r) (hx : Live heap x) (hy : Live heap y)
    (hr : heapWords X.package heap ≤ X.size) : (X.encode heap x == X.encode heap y) = r := by
  match x, y with
  | .int a, .int b =>
    cases h
    simp [Target.encode, Bool.beq_eq_decide_eq, Int32.toInt_inj]
  | .bool a, .bool b =>
    cases h
    cases a <;> cases b <;> rfl
  | .ref a, .ref b =>
    cases h
    by_cases hab : a = b
    · simp [hab]
    · have hne : X.encode heap (.ref a) ≠ X.encode heap (.ref b) :=
        fun heq => hab (X.encode_ref_inj hx hy heq)
      simp [hab, hne]
  | .null, .null =>
    cases h
    rfl
  | .null, .ref b =>
    cases h
    have hpos := X.encode_ref_pos hr b
    simpa [Target.encode, nullWord] using Int.ne_of_lt hpos
  | .ref a, .null =>
    cases h
    have hpos := X.encode_ref_pos hr a
    simpa [Target.encode, nullWord] using Int.ne_of_gt hpos

theorem performs_arith {f : Int → Int → Int} (hi : X.InstrAt cp (.ofPrim q))
    (hq : primitive q = arith f) (a b : Int32) :
    Performs X 0 K cp (.val (.int b) :: .val (.int a) :: ts)
      (word (f a.toInt b.toInt)) fun r => .val r :: ts := by
  refine performs_word (fun hr s => steps_arith hi hq rfl hr) fun hr s => ?_
  exact stops_binary hi hq fun m => ensures_checkWord_overflow hr

theorem performs_div (hi : X.InstrAt cp (.ofPrim .div)) (a b : Int32) :
    Performs X 0 K cp (.val (.int b) :: .val (.int a) :: ts)
      (if b.toInt = 0 then throw (.zeroDivide a.toInt) else word (a.toInt.tdiv b.toInt))
      fun r => .val r :: ts := by
  have hq : primitive .div = Machine.Exec.binary fun x y =>
    require (y != 0) (.zeroDivide x) >>= fun _ => checkWord (x.tdiv y) := rfl
  refine Performs.ite (fun hb => performs_throw rfl fun s => ?_) fun hb => ?_
  · refine stops_binary hi hq fun m => ?_
    have hzero : (X.word s.heap (.val (.int b)) != 0) = false := by
      simpa [Target.word, Target.encode] using hb
    simp only [ensures_bind, ensures_require, hzero, Bool.false_eq_true, ↓reduceIte, and_true]
    rfl
  · have hdiv : ∀ heap,
        (require (X.word heap (.val (.int b)) != 0) (.zeroDivide (X.word heap (.val (.int a)))) >>=
          fun _ => checkWord ((X.word heap (.val (.int a))).tdiv (X.word heap (.val (.int b))))) =
        checkWord (a.toInt.tdiv b.toInt) := by
      intro heap
      have hnon : (X.word heap (.val (.int b)) != 0) = true := by
        simpa [Target.word, Target.encode] using hb
      rw [hnon]
      rfl
    refine performs_word (fun hr s => steps_arith hi hq (hdiv s.heap) hr) fun hr s => ?_
    refine stops_binary hi hq fun m => ?_
    rw [hdiv s.heap]
    exact ensures_checkWord_overflow hr

theorem performs_compare {r : Bool} (hi : X.InstrAt cp (.ofPrim q)) (hq : primitive q = compare rel)
    (hr : ∀ heap, Live heap x → Live heap y → heapWords X.package heap ≤ X.size →
      rel (X.encode heap x) (X.encode heap y) = r) :
    Performs X 0 K cp (.val y :: .val x :: ts) (pure (.bool r)) fun r => .val r :: ts :=
  performs_pure fun s => (steps_compare (x := .val x) (y := .val y) hi hq (hr s.heap)).grows

theorem performs_binary (hq : Code.binaryPrim? op = some q)
    (hi : X.InstrAt cp (.ofPrim q)) (x y : Value) :
    Performs X 0 K cp (.val y :: .val x :: ts) (binary op x y) fun r =>
      .val r :: ts := by
  cases op with
  | not => cases hq
  | plus | minus | mul =>
    cases hq
    cases x <;> cases y <;> first | exact performs_stuck | exact performs_arith hi rfl _ _
  | div =>
    cases hq
    cases x <;> cases y <;> first | exact performs_stuck | exact performs_div hi _ _
  | lt | le | gt | ge =>
    cases hq
    cases x <;> cases y <;>
      first | exact performs_stuck | exact performs_compare hi rfl fun _ _ _ _ => rfl
  | and | or =>
    cases hq
    match x, y with
    | .bool a, .bool b =>
      exact performs_compare hi rfl fun _ _ _ _ => by cases a <;> cases b <;> rfl
    | .bool _, .int _ | .bool _, .null | .bool _, .ref _ | .int _, _ | .null, _ | .ref _, _ =>
      exact performs_stuck
  | eq =>
    cases hq
    simp only [Semantics.binary]
    split
    · rename_i r hr
      exact performs_compare hi rfl fun heap hx hy hroom => encode_beq hr hx hy hroom
    · exact performs_stuck
  | ne =>
    cases hq
    simp only [Semantics.binary]
    split
    · rename_i r hr
      refine performs_compare hi rfl fun heap hx hy hroom => ?_
      exact congrArg not (encode_beq hr hx hy hroom)
    · exact performs_stuck

/-! ### Objects and arrays -/

section

variable {β : Type} {s : Store} {R : EStateM.Result Abort Store β → Prop}

theorem array_bind {f : Nat × Ty × List Value → Eval β} (hstuc : R (.error .stuck s))
    (hnull : o = .null → R (.error .nullReference s))
    (h : ∀ a elem elems, o = .ref a → s.heap[a]? = some (.array elem elems) →
      R (f (a, elem, elems) s)) : R ((array o >>= f) s) := by
  match o with
  | .null => exact hnull rfl
  | .int _ | .bool _ => exact hstuc
  | .ref a =>
    simp only [array, bind_assoc, get_bind]
    cases hb : s.heap[a]? with
    | none => exact hstuc
    | some b =>
      cases b with
      | object cls fields => exact hstuc
      | array elem elems => exact h a elem elems rfl hb

theorem object_bind {cls : Nat} {f : Nat × (Nat → Value) → Eval β} (hstuc : R (.error .stuck s))
    (hnull : o = .null → R (.error .nullReference s))
    (h : ∀ a fields, o = .ref a → s.heap[a]? = some (.object cls fields) → R (f (a, fields) s)) :
    R ((object cls o >>= f) s) := by
  match o with
  | .null => exact hnull rfl
  | .int _ | .bool _ => exact hstuc
  | .ref a =>
    simp only [object, bind_assoc, get_bind]
    cases hb : s.heap[a]? with
    | none => exact hstuc
    | some b =>
      cases b with
      | array elem elems => exact hstuc
      | object cls' fields =>
        by_cases hcls : cls' = cls
        · subst hcls
          simp only [↓reduceIte]
          exact h a fields rfl hb
        · simp only [if_neg hcls]
          exact hstuc

theorem position_bind {elems : List Value} {f : Nat → Eval β} (hstuc : R (.error .stuck s))
    (hok : ∀ k : Int32, i = .int k → 0 ≤ k.toInt ∧ k.toInt < elems.length → R (f k.toInt.toNat s))
    (hfail : ∀ k : Int32, i = .int k → ¬ (0 ≤ k.toInt ∧ k.toInt < elems.length) →
      R (.error (.arrayIndex k.toInt elems.length) s)) : R ((position elems i >>= f) s) := by
  match i with
  | .null | .bool _ | .ref _ => exact hstuc
  | .int k =>
    by_cases hk : 0 ≤ k.toInt ∧ k.toInt < elems.length
    · simp only [position, if_pos hk]
      exact hok k rfl hk
    · simp only [position, if_neg hk]
      exact hfail k rfl hk

end

theorem fails_arrayIndex {elem : Ty} {elems : List Value}
    (hb : s.heap[a]? = some (.array elem elems)) {k : Int}
    (hk : ¬ (0 ≤ k ∧ k < elems.length)) {m : Machine} (hm : Shows X m c)
    (hh : c.heap = s.heap) {f : Unit → Machine.Exec Unit} :
    Ensures (arrayIndex (X.encode s.heap (.ref a)) k >>= f) m (fun _ _ => False)
      fun e m' => e = .failure (.arrayIndex k elems.length) ∧ m'.output = m.output ∧
        m'.data = m.data := by
  rw [ensures_bind, ← hh, ensures_arrayIndex hm (hh ▸ hb), if_neg hk]
  exact ⟨rfl, rfl, rfl⟩

theorem performs_element (hi : X.InstrAt cp (.ofPrim .arrayref)) (o i : Value) :
    Performs X 0 K cp (.val i :: .val o :: ts) (element o i) fun v => .val v :: ts := by
  intro s
  refine array_bind ⟨rfl, .inl rfl⟩ (fun ho => ?_) fun a elem elems ho hb => ?_
  · subst ho
    exact ⟨rfl, .inr (.inl ⟨rfl, refused_word [_] hi rfl⟩)⟩
  refine position_bind ⟨rfl, .inl rfl⟩ (fun k hik hk => ?_) fun k hik hk => ?_
  · subst ho hik
    refine ⟨prefix_refl _, (steps_prim hi fun m hm => ?_).grows⟩
    have hget : (values X.package (.array elem elems))[k.toInt.toNat]? =
        some (elems.getD k.toInt.toNat .null) := by
      have hlt : k.toInt.toNat < elems.length := by omega
      rw [values, getD_eq_getElem?_getD, getElem?_eq_getElem hlt]
      rfl
    have hread := hm.reads_value hb hget (congrArg (_ + ·) (Int.toNat_of_nonneg hk.1).symm)
    refine (ensures_bind _ _).2 ((ensures_top2 hm rfl).2 ((ensures_bind _ _).2 ?_))
    exact (ensures_arrayIndex hm hb _).2 ((if_pos hk).mpr (ensures_fetch hm hread))
  · subst ho hik
    refine ⟨rfl, .inr (.inr ⟨_, rfl, stops_prim hi fun m hm => ?_⟩)⟩
    exact (ensures_bind _ _).2 ((ensures_top2 hm rfl).2 (fails_arrayIndex hb hk hm rfl))

theorem performs_setElement (hi : X.InstrAt cp (.ofPrim .arrayupd)) (o i v : Value) :
    Performs X 0 K cp (.val v :: .val i :: .val o :: ts) (setElement o i v) fun _ => ts := by
  intro s
  refine array_bind ⟨rfl, .inl rfl⟩ (fun ho => ?_) fun a elem elems ho hb => ?_
  · subst ho
    exact ⟨rfl, .inr (.inl ⟨rfl, refused_word [_, _] hi rfl⟩)⟩
  refine position_bind ⟨rfl, .inl rfl⟩ (fun k hik hk => ?_) fun k hik hk => ?_
  · subst ho hik
    have hlt : k.toInt.toNat < elems.length := by omega
    refine ⟨X.extends_set hb (by simp [span, values]), (steps_prim hi fun m hm => ?_).grows⟩
    refine (ensures_bind _ _).2 ((ensures_top3 hm rfl).2 ((ensures_bind _ _).2 ?_))
    refine (ensures_arrayIndex hm hb _).2 ((if_pos hk).mpr ?_)
    exact ensures_update hm hb hlt rfl rfl (congrArg (_ + ·) (Int.toNat_of_nonneg hk.1).symm)
  · subst ho hik
    refine ⟨rfl, .inr (.inr ⟨_, rfl, stops_prim hi fun m hm => ?_⟩)⟩
    exact (ensures_bind _ _).2 ((ensures_top3 hm rfl).2 (fails_arrayIndex hb hk hm rfl))

/-- The field of an instance lies at a position of its block. -/
structure FieldAt (p : Package) (id : MemberId) (k : Nat) : Prop where
  get : ∀ fields, (values p (.object id.cls fields))[k]? = some (fields id.index)
  set : ∀ fields v, values p (.object id.cls fun j => if j = id.index then v else fields j) =
    (values p (.object id.cls fields)).set k v

theorem FieldAt.lt (h : FieldAt p id k) (fields : Nat → Value) :
    k < (values p (.object id.cls fields)).length :=
  (List.getElem?_eq_some_iff.1 (h.get fields)).1

theorem FieldAt.cells_set (h : FieldAt X.package id k) (fields : Nat → Value) (v : Value) :
    cells X.package (.object id.cls fun j => if j = id.index then v else fields j) =
      (cells X.package (.object id.cls fields)).set (k + 2) (.val v) := by
  simp [cells, h.set, tag]

theorem FieldAt.extends_set (h : FieldAt X.package id k) (hb : heap[a]? = some (.object id.cls fields))
    (v : Value) : X.Extends heap (heap.set a (.object id.cls fun j =>
      if j = id.index then v else fields j)) :=
  X.extends_set hb (by simp [span, h.set])

/-- The position of a field of an instance is a word, since the instance is there. -/
theorem FieldAt.low_eq (hid : FieldAt X.package id k) (hm : Shows X m c)
    (hb : c.heap[a]? = some (.object id.cls fields)) : X.word c.heap (.low k) = k := by
  have hlt := hid.lt fields
  have hspan := span_le_heapWords (p := X.package) hb
  have hws := hm.heapWords_le
  have hmax := X.size_le
  rw [Cell.low_eq]
  · rfl
  · simp only [span, minWord, maxWord] at *
    omega

theorem performs_field (hi : X.InstrAt cp (.ofPrim .fieldref))
    (hid : FieldAt X.package id k) (o : Value) :
    Performs X 0 K cp (.low k :: .val o :: ts) (field id o) fun v => .val v :: ts := by
  intro s
  refine object_bind ⟨rfl, .inl rfl⟩ (fun ho => ?_) fun a fields ho hb => ?_
  · subst ho
    exact ⟨rfl, .inr (.inl ⟨rfl, refused_word [_] hi rfl⟩)⟩
  subst ho
  refine ⟨prefix_refl _, (steps_prim hi fun m hm => ?_).grows⟩
  have hread := hm.reads_value hb (hid.get fields) rfl
  refine (ensures_bind _ _).2 ((ensures_top2 hm rfl).2 ?_)
  rw [hid.low_eq hm hb]
  exact (ensures_bind _ _).2 ((ensures_fieldIndex hm hb (hid.lt fields)).2 (ensures_fetch hm hread))

theorem performs_setField (hi : X.InstrAt cp (.ofPrim .fieldupd))
    (hid : FieldAt X.package id k) (o v : Value) :
    Performs X 0 K cp (.val v :: .low k :: .val o :: ts) (setField id o v) fun _ => ts := by
  intro s
  refine object_bind ⟨rfl, .inl rfl⟩ (fun ho => ?_) fun a fields ho hb => ?_
  · subst ho
    exact ⟨rfl, .inr (.inl ⟨rfl, refused_word [_, _] hi rfl⟩)⟩
  subst ho
  refine ⟨hid.extends_set hb v, (steps_prim hi fun m hm => ?_).grows⟩
  refine (ensures_bind _ _).2 ((ensures_top3 hm rfl).2 ?_)
  rw [hid.low_eq hm hb]
  refine (ensures_bind _ _).2 ((ensures_fieldIndex hm hb (hid.lt fields)).2 ?_)
  exact ensures_update hm hb (hid.lt fields) rfl (hid.set fields v) rfl

theorem meetsNull_own {op : Opcode} {d : Int} (hi : X.InstrAt cp (.make op n .ob d))
    (hop : op = .load ∨ op = .store) (hthis : K.this = .null) (s : Store) :
    MeetsNull X (K.config cp ts s) s.printed := by
  have hob : ∀ m, Shows X m (K.config cp ts s) → m.reference .own = nullWord := fun m hm =>
    hm.ob.trans (congrArg (X.encode s.heap) hthis)
  refine meetsNull_of_meets fun m hm => ⟨hm.state, ?_, hob m hm⟩
  rw [hm.instrAt? hi.get]
  rcases hop with rfl | rfl <;> rfl

theorem performs_thisField (hi : X.InstrAt cp (.make .load n .ob k)) (hid : FieldAt X.package id k)
    (hthis : K.this ≠ .null) :
    Performs X (ts.length + K.depth + 1) K cp ts (field id K.this) fun v => .val v :: ts := by
  intro s
  refine object_bind ⟨rfl, .inl rfl⟩ (fun ho => absurd ho hthis) fun a fields ho hb => ?_
  refine ⟨prefix_refl _, ?_⟩
  rw [← K.length_stack ts s]
  refine grows_load hi fun m hm => ?_
  exact hm.reads_value hb (hid.get fields) (congrArg (· + (k : Int)) (ho ▸ hm.ob))

theorem performs_setThisField
    (hi : X.InstrAt cp (.make .store n .ob k)) (hid : FieldAt X.package id k)
    (hthis : K.this ≠ .null) (v : Value) :
    Performs X 0 K cp (.val v :: ts) (setField id K.this v) fun _ => ts := by
  intro s
  refine object_bind ⟨rfl, .inl rfl⟩ (fun ho => absurd ho hthis) fun a fields ho hb => ?_
  have hlt := hid.lt fields
  have hx : ∀ m, Shows X m (K.config cp (.val v :: ts) s) →
      Reads X m s.heap (X.encode s.heap (.ref a) + k) (.val (fields id.index)) :=
    fun m hm => hm.reads_value hb (hid.get fields) rfl
  have hsto : Steps X (K.config cp (.val v :: ts) s) (K.config (cp + 1) ts ⟨s.heap.set a
      (.object id.cls fun j => if j = id.index then v else fields j), s.statics, s.printed⟩) := by
    refine steps_store hi (x := X.encode s.heap (.ref a) + k) (fun m hm => ?_) fun m hm => ?_
    · exact ⟨congrArg (· + (k : Int)) (ho ▸ hm.ob), (hx m hm).nonneg, (hx m hm).lt⟩
    · have hv : Live s.heap v := (hm.holds_at [] rfl).1
      refine (hm.drop [.val v] rfl rfl).setBlock hb (hid.cells_set fields v)
        (by simp only [span]; omega) hv ?_ rfl
      show X.base s.heap a + 2 + (k : Int) = X.base s.heap a + ((k + 2 : Nat) : Int)
      omega
  exact ⟨hid.extends_set hb v, hsto.grows⟩

theorem steps_lengthAddr (hi : X.InstrAt cp (.ofPrim .sub))
    (hv : minWord ≤ X.encode s.heap v - -headerSize ∧ X.encode s.heap v - -headerSize ≤ maxWord) :
    Steps X (K.config cp (.raw (-headerSize) :: .val v :: ts) s)
      (K.config (cp + 1) (.val (.int (.ofInt (X.encode s.heap v - -headerSize))) :: ts) s) :=
  steps_arith (f := fun x y => checkWord (x - y)) hi rfl rfl hv

theorem Target.lengthAddr_mem (ha : a < heap.length) (hws : heapWords X.package heap ≤ X.size) :
    minWord ≤ X.encode heap (.ref a) - -headerSize ∧
      X.encode heap (.ref a) - -headerSize ≤ maxWord := by
  have hlive : Cell.Good heap (.val (.ref a)) := ha
  have hpos := X.encode_ref_pos hws a
  have := X.word_mem hws hlive
  simp only [Target.word, headerSize, minWord, maxWord] at *
  omega

theorem Target.lengthAddr_null_mem (X : Target) (heap : List Block) :
    minWord ≤ X.encode heap .null - -headerSize ∧ X.encode heap .null - -headerSize ≤ maxWord :=
  show minWord ≤ nullWord - -headerSize ∧ nullWord - -headerSize ≤ maxWord by decide

theorem steps_length {elem : Ty} (hi : X.InstrAt cp (.make .loadi n .zr 0))
    (hb : s.heap[a]? = some (.array elem elems)) :
    Steps X (K.config cp (.val (.int (.ofInt (X.encode s.heap (.ref a) - -headerSize))) :: ts) s)
      (K.config (cp + 1) (.val (.int (.ofInt elems.length)) :: ts) s) := by
  refine steps_loadi hi fun m hm => ?_
  have hmem := X.lengthAddr_mem (List.getElem?_eq_some_iff.1 hb).1 hm.heapWords_le
  have hr := hm.reads_size hb
  have haddr : X.word s.heap (.val (.int (.ofInt (X.encode s.heap (.ref a) - -headerSize)))) =
      X.encode s.heap (.ref a) + headerSize :=
    (toInt_ofInt_of_mem hmem).trans (Int.sub_neg _ _)
  have hlen : (Int32.ofInt elems.length).toInt = elems.length := toInt_ofInt_of_mem hr.good
  rw [haddr]
  exact ⟨hr.nonneg, hr.lt, trivial, hr.peek.trans hlen.symm⟩

theorem refused_length (hi : X.InstrAt cp (.make .loadi n .zr 0)) :
    Refused X (K.config cp (.val (.int (.ofInt (X.encode s.heap .null - -headerSize))) :: ts) s) :=
  refused_loadi hi (show (Int32.ofInt (nullWord - -headerSize)).toInt =
    nullWord + headerSize by decide)

theorem follows_length (hlit : X.InstrAt cp (.make .loadl n' .zr (-headerSize)))
    (hsub : X.InstrAt (cp + 1) (.ofPrim .sub)) (hl : X.InstrAt (cp + 2) (.make .loadi n .zr 0))
    (hr : ts.length + K.depth + 2 ≤ top) (o : Value) :
    Follows X top (K.config cp (.val o :: ts)) (length o) (fun _ => True)
      fun v => K.config (cp + 3) (.val v :: ts) := by
  intro s
  have hone : Cell.Good s.heap (.raw (-headerSize)) := by
    simp [Cell.Good, headerSize, minWord, maxWord]
  -- The address of the length is computed before it is known whether there is an array.
  have ha : top + X.used s ≤ X.size → (minWord ≤ X.encode s.heap o - -headerSize ∧
      X.encode s.heap o - -headerSize ≤ maxWord) → Arrives X (K.config cp (.val o :: ts) s)
      (K.config (cp + 2) (.val (.int (.ofInt (X.encode s.heap o - -headerSize))) :: ts) s) := by
    intro hs hmem
    have hr' := K.room (.val o :: ts) 1 (by rw [length_cons]; omega) hs
    exact ((grows_literal hlit hone rfl).arrives hr').trans
      (steps_lengthAddr hsub hmem).arrives
  refine array_bind (ends_vague ⟨rfl, fun h => by cases h⟩) (fun ho => ?_)
    fun a elem elems ho hb => ?_
  · subst ho
    refine ends_null fun hs => (ha hs (X.lengthAddr_null_mem s.heap)).meetsNull ?_
    exact (refused_length hl).meetsNull
  · subst ho
    refine ⟨trivial, Nat.le_refl _, fun hs => ?_⟩
    have hws : heapWords X.package s.heap ≤ X.size := by
      unfold Target.used at hs
      omega
    have hmem := X.lengthAddr_mem (List.getElem?_eq_some_iff.1 hb).1 hws
    exact (ha hs hmem).trans (steps_length hl hb).arrives

theorem encode_initial (heap : List Block) (t : Ty) :
    Live heap (initial t) ∧ X.encode heap (initial t) = 0 := by
  cases t <;> exact ⟨trivial, rfl⟩

theorem good_append (heap : List Block) (b : Block) :
    Cell.Good (heap ++ [b]) (.val (.ref heap.length)) := by
  simp [Cell.Good, Live]

theorem performs_newArray (hi : X.InstrAt cp (.ofPrim .newarr)) (elem : Ty) (n : Value) :
    Performs X (ts.length + K.depth + 1) K cp (.val n :: ts) (newArray elem n) fun v =>
      .val v :: ts := by
  match n with
  | .null | .bool _ | .ref _ => exact performs_stuck
  | .int n =>
    refine Performs.ite (fun hn s => ⟨X.extends_append _ _, grows_prim hi fun m hm => ?_⟩) fun hn =>
      performs_throw rfl fun s => stops_prim hi fun m hm => ?_
    · have htag : Cell.Good s.heap (.raw arrayTag) := by
        simp [Cell.Good, arrayTag, minWord, maxWord]
      have hzero : ∀ v ∈ List.replicate n.toInt.toNat (initial elem),
          Live s.heap v ∧ X.encode s.heap v = 0 := by
        intro v hv
        rw [eq_of_mem_replicate hv]
        exact encode_initial s.heap elem
      have hlen : n.toInt = ((values X.package
          (.array elem (.replicate n.toInt.toNat (initial elem)))).length : Nat) := by
        simp only [values, length_replicate]
        omega
      refine (ensures_bind _ _).2 ((ensures_top1 hm rfl).2 ((ensures_bind _ _).2 ?_))
      have hall := ensures_allocate hm (b := .array elem (.replicate n.toInt.toNat (initial elem)))
        htag hzero
      rw [← hlen] at hall
      refine hall.mono ?_ ?_
      · rintro r m' ⟨rfl, hm'⟩
        exact (ensures_setTop hm' rfl _).2 (hm'.setStack [] rfl (good_append _ _) rfl rfl)
      · rintro e m' ⟨hwhy, hfull⟩
        have hlength := K.length_stack (.val (.int n) :: ts) s
        refine ⟨hwhy, fun hroom => hfull ?_⟩
        rw [length_cons, Nat.add_right_comm] at hlength
        exact hlength ▸ hroom
    · have hn' : ¬ 0 ≤ X.word s.heap (.val (.int n)) := hn
      refine (ensures_bind _ _).2 ((ensures_top1 hm rfl).2 ((ensures_bind _ _).2 ?_))
      refine (ensures_bind _ _).2 ((ensures_require _ _).2 ?_)
      exact (if_neg (by simpa using hn')).mpr ⟨rfl, rfl, rfl⟩

/-- The address of the descriptor of a class and the size of its instances are replaced by a new
instance. -/
theorem grows_newobj (hi : X.InstrAt cp (.ofPrim .newobj))
    (hsize : (values X.package (.object cls fields)).length = size)
    (hzero : ∀ v ∈ values X.package (.object cls fields), Live s.heap v ∧ X.encode s.heap v = 0) :
    Grows X (ts.length + K.depth + 2)
      (K.config cp (.raw size :: .raw (descriptorAddr X.package cls) :: ts) s)
      (K.config (cp + 1) (.val (.ref s.heap.length) :: ts)
        { s with heap := s.heap ++ [.object cls fields] }) := by
  refine grows_prim hi fun m hm => ?_
  refine (ensures_bind _ _).2 ((ensures_top2 hm rfl).2 ((ensures_bind _ _).2 ?_))
  have hall := ensures_allocate hm (b := .object cls fields) (hm.holds_at [.raw size] rfl).1 hzero
  rw [hsize] at hall
  refine hall.mono ?_ ?_
  · rintro r m' ⟨rfl, hm'⟩
    have hst : m'.st = ((ts ++ K.under s.statics).length + 1 + 1 : Nat) := hm'.st
    have hst' : m'.st - 2 = (ts ++ K.under s.statics).length := by omega
    have hm'' := hm'.drop [.raw size, .raw _] rfl hst'
    have hp : (ts ++ K.under s.statics).length + 1 +
        heapWords X.package (s.heap ++ [.object cls fields]) ≤ X.size := by
      have : (ts ++ K.under s.statics).length + 1 + 1 +
        heapWords X.package (s.heap ++ [.object cls fields]) ≤ X.size := hm'.room
      omega
    refine (ensures_bind _ _).2 ((ensures_drop _).2 ((ensures_push hm'' _).2 ?_))
    exact (if_pos hp).mpr (hm''.push (good_append _ _) rfl rfl hp)
  · rintro e m' ⟨hwhy, hfull⟩
    have hlen := K.length_stack (.raw size :: .raw (descriptorAddr X.package cls) :: ts) s
    refine ⟨hwhy, fun hroom => hfull ?_⟩
    rw [length_cons, length_cons, Nat.add_right_comm, Nat.add_right_comm ts.length] at hlen
    exact hlen ▸ hroom

theorem follows_allocate
    (hdescAt : X.InstrAt cp (.make .loada n .sb (descriptorAddr X.package cls)))
    (hsizeAt : X.InstrAt (cp + 1) (.make .loadl n' .zr size))
    (hnewAt : X.InstrAt (cp + 2) (.ofPrim .newobj)) (hdesc : descriptorAddr X.package cls ≤ top)
    (hs : (values X.package (.object cls fields)).length = size)
    (hzero : ∀ heap, ∀ v ∈ values X.package (.object cls fields), Live heap v ∧ X.encode heap v = 0)
    (hroom : ts.length + K.depth + 2 ≤ top) :
    Follows X top (K.config cp ts) (allocate (.object cls fields)) (fun _ => True)
      fun v => K.config (cp + 3) (.val v :: ts) := by
  intro s
  have hused : heapWords X.package (s.heap ++ [.object cls fields]) =
    heapWords X.package s.heap + span X.package (.object cls fields) := heapWords_append _ _
  refine ⟨trivial, (X.extends_append s.heap _).used_le, fun hl => ?_⟩
  have hl : top + heapWords X.package (s.heap ++ [.object cls fields]) ≤ X.size := hl
  have hle : top + X.used s ≤ X.size := by
    rw [Target.used]
    omega
  have hmax := X.size_le
  have htag : Cell.Good s.heap (.raw (descriptorAddr X.package cls)) := by
    simp only [Cell.Good, minWord, maxWord] at *
    omega
  have hspan : span X.package (.object cls fields) = size + 2 := congrArg (· + 2) hs
  have hgood : Cell.Good s.heap (.raw size) := by
    simp only [Cell.Good, minWord, maxWord] at *
    omega
  have hsb : ∀ m : Machine, m.reg .sb + (descriptorAddr X.package cls : Int) =
      descriptorAddr X.package cls := fun m => Int.zero_add _
  refine ((grows_loada hdescAt fun m _ => ⟨htag, hsb m⟩).arrives
    (K.room ts 1 (by omega) hle)).trans ?_
  refine ((grows_literal hsizeAt hgood rfl).arrives
    (K.room (.raw _ :: ts) 1 (by rw [length_cons]; omega) hle)).trans ?_
  refine (grows_newobj hnewAt hs (hzero s.heap)).arrives ?_
  exact Nat.le_trans (Nat.add_le_add_right hroom _) hl

theorem zero_newObject (c : ClassDecl) (heap : List Block) (v : Value)
    (hv : v ∈ values X.package (.object cls fun k =>
      ((c.fields[k]?).map (initial ·.type)).getD .null)) : Live heap v ∧ X.encode heap v = 0 := by
  obtain ⟨k, -, rfl⟩ := mem_map.1 hv
  cases c.fields[k]? with
  | none => exact ⟨trivial, rfl⟩
  | some f => exact encode_initial heap f.type

theorem follows_newObject
    (hdescAt : X.InstrAt cp (.make .loada n .sb (descriptorAddr X.package cls)))
    (hsizeAt : X.InstrAt (cp + 1) (.make .loadl n' .zr size))
    (hnewAt : X.InstrAt (cp + 2) (.ofPrim .newobj)) (hdesc : descriptorAddr X.package cls ≤ top)
    (hsize : ∀ fields, (values X.package (.object cls fields)).length = size)
    (hroom : ts.length + K.depth + 2 ≤ top) :
    Follows X top (K.config cp ts) (newObject X.package cls) (fun _ => True)
      fun v => K.config (cp + 3) (.val v :: ts) :=
  follows_expect.bind fun c _ => follows_allocate hdescAt hsizeAt hnewAt hdesc (hsize _)
    (zero_newObject c) hroom

theorem follows_print (hlim : X.limit = none) (hi : X.InstrAt cp (.ofPrim .putintnl))
    (us : List Value) :
    Follows X top (K.config cp (us.map .val ++ ts)) (print us) (fun r => r = none)
      fun _ => K.config (cp + 1) ts := by
  match us with
  | [.int n] => exact fun s => ⟨rfl, Nat.le_refl _, fun _ => (steps_putintnl hlim hi).arrives⟩
  | [] | .int _ :: _ :: _ | .bool _ :: _ | .null :: _ | .ref _ :: _ => exact follows_throw ⟨rfl, nofun⟩

end Simulation

end MiniJam
