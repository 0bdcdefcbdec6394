import MiniJam.Proofs.Simulation.Typed

/-!
# Running programs stay sound

`Sound.goes` says that a machine in a sound configuration stops with its next step or comes to a
sound one, unless it calls a method of nothing by its address.  There is one lemma for the
instructions that stay in a method (`At.goes_turns`), with a case for each rule of `Code.Turns`, and
one for each way to enter a method or to leave it.
-/

namespace MiniJam

open Assembly Layout Machine

def Machine.CallsNull (m : Machine) : Prop :=
  m.peek (m.st - 1) = nullWord ∧
    ∃ i ∈ m.instrAt? m.cp, i.op = Opcode.calli.code ∨ i.op = Opcode.calld.code

instance (m : Machine) : Decidable m.CallsNull :=
  inferInstanceAs (Decidable (_ ∧ ∃ i ∈ m.instrAt? m.cp, _))

namespace Simulation

open Semantics Machine.Exec

variable {X : Target}

def Target.Sized (X : Target) : Prop :=
  ∀ cls c, X.package.class? cls = some c → (instanceWords c : Int) ≤ maxWord

section

variable {R : Routine X} {K : View} {σ τ : List Code.Slot} {ops rest ts : List Cell} {s : Store}
  {x cls : Nat} {t : Ty}

/-! ### Numbers of the machine -/

variable {c : Config} {n : Int} {item : Item}

theorem Goes.of_room (h : c.stack.length + heapWords X.package c.heap ≤ X.size → Goes X c Q) :
    Goes X c Q :=
  fun m hm => h hm.room m hm

/-- The descriptors lie on the stack, so that their addresses are words. -/
theorem At.low_descriptorAddr (h : At R σ K ops s) (cls : Nat)
    (hroom : (K.config x ops s).stack.length + heapWords X.package (K.config x ops s).heap ≤ X.size) :
    Cell.low (descriptorAddr X.package cls) = .raw (descriptorAddr X.package cls) := by
  have hdesc := X.descriptorAddr_le cls
  have hgrou := h.runs.groundWords_le
  have hlen : (K.config x ops s).stack.length = _ := K.length_stack ops s
  have hsize := X.size_le
  refine Cell.low_eq ?_
  simp only [minWord, maxWord] at *
  omega

/-! ### Instructions that stay in the method -/

theorem At.goes_descriptor (h : At R σ K ops s)
    (hi : X.InstrAt x (.make .loada n .sb (descriptorAddr X.package cls))) :
    Goes X (K.config x ops s) (Stands R (x + 1) (.number (descriptorAddr X.package cls) :: σ)) := by
  refine Goes.of_room fun hroom => ?_
  refine (grows_loada hi fun m hm => ⟨Cell.good_low s.heap _, ?_⟩).goes_to (h.push (.number _))
  rw [h.low_descriptorAddr cls hroom]
  exact Int.zero_add _

theorem performs_newObject {c : ClassDecl} (hc : X.package.class? cls = some c)
    (hi : X.InstrAt x (.ofPrim .newobj)) :
    Performs X (ts.length + K.depth + 2) K x
      (.raw (instanceWords c) :: .raw (descriptorAddr X.package cls) :: ts)
      (newObject X.package cls) fun v => .val v :: ts := by
  intro s
  have hsize := length_values X.typed hc
  rw [newObject, hc]
  exact ⟨X.extends_append _ _, grows_newobj hi (hsize _) (zero_newObject c s.heap)⟩

theorem At.goes_newObject {c : ClassDecl} (hsiz : X.Sized) (hc : X.package.class? cls = some c)
    (h : At R (.number (instanceWords c) :: .number (descriptorAddr X.package cls) :: σ) K ops s)
    (hi : X.InstrAt x (.ofPrim .newobj)) :
    Goes X (K.config x ops s) (Stands R (x + 1) (.value (.cls c.name) :: σ)) := by
  have hname : X.package.signature.className cls = some c.name := congrArg (Option.map _) hc
  have hws : Cell.low (instanceWords c) = .raw (instanceWords c) := by
    refine Cell.low_eq ⟨?_, hsiz cls c hc⟩
    simp only [minWord]
    omega
  refine Goes.of_room fun hroom => ?_
  have hdesc := h.low_descriptorAddr cls hroom
  obtain ⟨_, rfl, h₁⟩ := h.pop_number
  obtain ⟨rest, rfl, h₂⟩ := h₁.pop_number
  rw [hws, hdesc]
  exact h₂.goes_value (performs_newObject hc hi) (safe_newObject X.typed hname)

theorem At.goes_lengthAddr {elem : Ty}
    (h : At R (.number (-headerSize) :: .value (.array elem) :: σ) K ops s)
    (hi : X.InstrAt x (.ofPrim .sub)) :
    Goes X (K.config x ops s) (Stands R (x + 1) (.lengthAddr :: σ)) := by
  obtain ⟨_, rfl, h₁⟩ := h.pop_number
  obtain ⟨v, rest, rfl, hv, h₂⟩ := h₁.pop_value
  have hone : Cell.low (-headerSize) = .raw (-headerSize) := Cell.low_eq (by decide)
  refine Goes.of_room fun hroom => ?_
  refine (steps_lengthAddr hi ?_).goes_to (h₂.push (.lengthAddr hv))
  match v, hv with
  | .null, _ => exact X.lengthAddr_null_mem s.heap
  | .ref a, hv => exact X.lengthAddr_mem (live_of_hasType hv) (Nat.le_trans (Nat.le_add_left _ _) hroom)

theorem At.goes_length (h : At R (.lengthAddr :: σ) K ops s)
    (hi : X.InstrAt x (.make .loadi n .zr 0)) :
    Goes X (K.config x ops s) (Stands R (x + 1) (.value .int :: σ)) := by
  obtain ⟨cell, rest, rfl, hcell, hrest⟩ := h.pop
  cases hcell with
  | @lengthAddr v elem hv =>
    match v, hv with
    | .null, _ => exact (refused_length hi).goes
    | .ref a, ⟨b, hb, hkind⟩ =>
      cases b with
      | object => cases hkind
      | array elem' elems => exact (steps_length hi hb).goes_to (hrest.push (.value trivial))

theorem At.goes_print (h : At R (.value .int :: σ) K ops s) (hi : X.InstrAt x (.ofPrim .putintnl)) :
    Goes X (K.config x ops s) (Stands R (x + 1) σ) := by
  obtain ⟨v, rest, rfl, hv, hrest⟩ := h.pop_value
  match v, hv with
  | .int n, _ =>
    have hstan : Stands R (x + 1) σ
        (K.config (x + 1) rest { s with printed := s.printed ++ [n.toInt] }) :=
      ⟨K, rest, _, rfl, hrest.later (.refl _) ⟨h.store.heap, h.store.statics⟩⟩
    exact fun _ hm hrun => ⟨_, (shows_putintnl hi hm).resolve_right fun h => h.1 hrun, hstan⟩

theorem At.goes_pop (gone : List Code.Slot) (h : At R (gone ++ σ) K ops s)
    (hi : X.InstrAt x (.make .pop n .zr gone.length)) :
    Goes X (K.config x ops s) (Stands R (x + 1) σ) := by
  obtain ⟨cells, rest, rfl, hcel, hrest⟩ := exists_of_forall₂_append h.ops
  rw [hcel.length_eq] at hi
  have hpop : Steps X ⟨x, K.lb, K.this, cells ++ (rest ++ K.under s.statics), s.heap, s.printed⟩ _ :=
    steps_pop cells hi
  rw [← List.append_assoc] at hpop
  exact hpop.goes_to ⟨K, rest, s, rfl, h.runs, hrest, h.store⟩

theorem At.goes_turns (hsiz : X.Sized) (h : At R σ K ops s)
    (htur : Code.Turns X.package (R.decl.site X.package.signature R.id.cls) item σ τ)
    (hcal : item.callee = none) (hi : X.InstrAt x item.instr) :
    Goes X (K.config x ops s) (Stands R (x + 1) τ) := by
  cases htur with
  | @int _ n _ hn =>
    have hword : n = X.word s.heap (.val (.int (.ofInt n))) := (toInt_ofInt_of_mem hn).symm
    have hg : Cell.Good s.heap (.val (.int (.ofInt n))) := trivial
    exact (grows_literal hi hg hword).goes_to (h.push (.value trivial))
  | bool b =>
    have hg : Cell.Good s.heap (.val (.bool b)) := trivial
    exact (grows_literal hi hg rfl).goes_to (h.push (.value trivial))
  | number => exact (grows_low hi).goes_to (h.push (.number _))
  | this hstat hname =>
    have hthis := (h.runs.this hstat).hasType hname
    have hpush : Grows X _ (K.config x ops s) (K.config (x + 1) (.val K.this :: ops) s) :=
      grows_loada hi fun m hm => ⟨hm.live, (Int.add_zero _).trans hm.ob⟩
    exact hpush.goes_to (h.push (.value hthis))
  | descriptor cls => exact h.goes_descriptor hi
  | load hpl => exact h.goes_load hpl hi
  | store hpl => exact h.goes_store hpl hi
  | copy =>
    obtain ⟨cell, rest, rfl, hcell, -⟩ := h.pop
    exact (grows_copy hi cell s).goes_to (h.push hcell)
  | unary op =>
    obtain ⟨v, rest, rfl, hv, h₁⟩ := h.pop_value
    exact h₁.goes_value (performs_unary hi v) (safe_unary hv)
  | binary hq hop =>
    obtain ⟨v, _, rfl, hv, h₁⟩ := h.pop_value
    obtain ⟨u, rest, rfl, hu, h₂⟩ := h₁.pop_value
    exact h₂.goes_value (performs_binary hq hi u v) (safe_binary hop hu hv)
  | newObject hc => exact At.goes_newObject hsiz hc h hi
  | newArray helem =>
    obtain ⟨n, rest, rfl, hn, h₁⟩ := h.pop_value
    exact h₁.goes_value (performs_newArray hi _ n) (safe_newArray helem.elem hn)
  | lengthAddr => exact h.goes_lengthAddr hi
  | length => exact h.goes_length hi
  | element =>
    obtain ⟨i, _, rfl, hidx, h₁⟩ := h.pop_value
    obtain ⟨o, rest, rfl, ho, h₂⟩ := h₁.pop_value
    exact h₂.goes_value (performs_element hi o i) (safe_element ho hidx)
  | setElement =>
    obtain ⟨v, _, rfl, hv, h₁⟩ := h.pop_value
    obtain ⟨i, _, rfl, hidx, h₂⟩ := h₁.pop_value
    obtain ⟨o, rest, rfl, ho, h₃⟩ := h₂.pop_value
    exact h₃.goes_unit (performs_setElement hi o i v) (safe_setElement ho hidx hv)
  | field hf hstat he hname =>
    obtain ⟨k, -, ha, hk⟩ := exists_fieldAt X.typed hf hstat he
    obtain ⟨_, rfl, h₁⟩ := h.pop_number
    obtain ⟨o, rest, rfl, ho, h₂⟩ := h₁.pop_value
    rw [ha]
    exact h₂.goes_value (performs_field hi hk o) (safe_field X.typed hf hname ho)
  | setField hf hstat he hname =>
    obtain ⟨k, -, ha, hk⟩ := exists_fieldAt X.typed hf hstat he
    obtain ⟨v, _, rfl, hv, h₁⟩ := h.pop_value
    obtain ⟨_, rfl, h₂⟩ := h₁.pop_number
    obtain ⟨o, rest, rfl, ho, h₃⟩ := h₂.pop_value
    rw [ha]
    exact h₃.goes_unit (performs_setField hi hk o v) (safe_setField X.typed hf hname ho hv)
  | print => exact h.goes_print hi
  | pop gone => exact h.goes_pop gone hi
  | call | invoke => cases hcal

/-! ### Calls -/

theorem exists_values {heap : List Block} {types : List Ty} {cells : List Cell}
    (h : List.Forall₂ (Fits X heap) (types.map .value) cells) :
    ∃ us, cells = us.map .val ∧ List.Forall₂ (HasType X.package.signature heap) us types := by
  induction types generalizing cells with
  | nil =>
    cases h
    exact ⟨[], rfl, .nil⟩
  | cons t types ih =>
    obtain ⟨cell, cells, hcell, hcel, rfl⟩ := List.forall₂_cons_left_iff.1 h
    obtain ⟨us, rfl, hus⟩ := ih hcel
    cases hcell with
    | @value v _ hv => exact ⟨v :: us, rfl, .cons hv hus⟩

theorem At.pop_params {d : MethodDecl} (h : At R (Code.Slot.ofParams d ++ σ) K ops s) :
    ∃ us rest, ops = us.map .val ++ rest ∧
      List.Forall₂ (HasType X.package.signature s.heap) us (d.params.map (·.type)) ∧
      At R σ K rest s := by
  obtain ⟨cells, rest, rfl, hcel, hrest⟩ := exists_of_forall₂_append h.ops
  have hcel : List.Forall₂ (Fits X s.heap) ((d.params.map (·.type)).map .value) cells := by
    rw [List.map_map]
    exact hcel
  obtain ⟨us, rfl, hus⟩ := exists_values hcel
  exact ⟨us, rest, rfl, hus, h.runs, hrest, h.store⟩

theorem At.called {R' : Routine X} (h : At R σ K ops s) (hx : R.start ≤ x ∧ x < R.last)
    (hσ : R.slots (x + 1) = Code.Slot.ofResult R'.decl.type ++ σ) (htak : R'.Takes s.heap o us) :
    Sound X (K.called x (us.map .val ++ ops) R'.start o s) := by
  obtain ⟨hruns, hops, hs⟩ := h
  obtain @⟨this, us', next, lb, this', rest, htak', hrest⟩ := hruns
  have hnext : R.start ≤ x + 1 ∧ x + 1 ≤ R.last := by omega
  refine .running R' ⟨Nat.le_refl _, R'.shape.le⟩ ⟨_, [], s, ?_,
    .mk htak (.frame R hnext hσ hops htak' hrest), ?_, hs⟩
  · simp [View.called, View.config, Target.viewOf, X.length_ground]
    omega
  · rw [R'.shape.words_start]
    exact .nil

theorem Runs.lb_le (h : Runs X s.heap R K) : K.lb ≤ K.depth := by
  have := h.depth
  omega

theorem decl_of_body {id : MemberId} {b : Code.Body} {d : MethodDecl}
    (hb : X.assembly.body? id = some b) (hd : X.package.method? id = some d) : b.decl = d := by
  obtain ⟨b', hb', hdecl, -⟩ := exists_body X.dynamic X.entry hd
  cases hb.symm.trans hb'
  exact hdecl

section

variable (hcmp : X.package.comparesValues = true)
include hcmp

variable {id : MemberId} {d : MethodDecl}

theorem exists_routine (hd : X.package.method? id = some d) :
    ∃ R : Routine X, R.id = id ∧ R.decl = d ∧
      ∃ b, (ofPackage X.package false X.entry).body? id = some b ∧ b.addr = R.start := by
  obtain ⟨b, last, S, hb, hlast, hshp, -⟩ := exists_shape X.typed X.entry hd
    (MethodDecl.comparesValues_of_package hcmp hd)
  obtain ⟨b', hb', haddr, hsize, -⟩ := body?_of_static hb X.dynamic
  have hlt := (X.codeAt_body hb').lt
  exact ⟨⟨id, d, b.addr, last, S, hd, hshp, by omega⟩, rfl, rfl, b, hb, rfl⟩

theorem At.goes_call {line : Int}
    (h : At R (Code.Slot.ofParams d ++ σ) K ops s) (hd : X.package.method? id = some d)
    (hstat : d.isStatic = true) (hx : R.start ≤ x ∧ x < R.last)
    (hσ : R.slots (x + 1) = Code.Slot.ofResult d.type ++ σ)
    (hi : X.InstrAt x (instrOf X.package X.dynamic X.entry
      ⟨.make .call 0 .cb 0, line, some id⟩)) :
    Goes X (K.config x ops s) (Sound X) := by
  obtain ⟨R', rfl, rfl, b, hb, ha⟩ := exists_routine hcmp hd
  obtain ⟨b', hb', ha', -⟩ := body?_of_static hb X.dynamic
  rw [instrOf_call hb, ← ha'] at hi
  obtain ⟨us, rest, rfl, hus, hrest⟩ := h.pop_params
  have htak : R'.Takes s.heap .null us :=
    ⟨hus, fun hinst => nomatch hstat.symm.trans hinst⟩
  refine (grows_static hi hb' h.runs.lb_le s).goes_to ?_
  rw [ha', ha]
  exact hrest.called hx hσ htak

theorem At.goes_invoke {line : Int} {name : String}
    (h : At R (.value (.cls name) :: (Code.Slot.ofParams d ++ σ)) K (.val o :: ops) s)
    (hd : X.package.method? id = some d) (hstat : d.isStatic = false)
    (hname : X.package.signature.className id.cls = some name) (ho : o ≠ .null)
    (hx : R.start ≤ x ∧ x < R.last) (hσ : R.slots (x + 1) = Code.Slot.ofResult d.type ++ σ)
    (hi : X.InstrAt x (instrOf X.package X.dynamic X.entry
      ⟨.make .calli 0 .cb 0, line, some id⟩)) :
    Goes X (K.config x (.val o :: ops) s) (Sound X) := by
  obtain ⟨R', rfl, rfl, b, hb, ha⟩ := exists_routine hcmp hd
  obtain ⟨b', hb', ha', -⟩ := body?_of_static hb X.dynamic
  obtain ⟨c, hc, -⟩ := Option.bind_eq_some_iff.1 hd
  have hmeth : b'.decl.isStatic = false := (congrArg _ (decl_of_body hb' hd)).trans hstat
  rw [instrOf_calli hb hc, ← ha'] at hi
  obtain ⟨_, _, hcel, hot, h₁⟩ := h.pop_value
  obtain ⟨hcell, rfl⟩ := List.cons.inj hcel
  cases hcell
  obtain ⟨us, rest, rfl, hus, hrest⟩ := h₁.pop_params
  have ht : Instance s.heap R'.id.cls o := instance_of_hasType hname hot ho
  have htak : R'.Takes s.heap o us := ⟨hus, fun _ => ht⟩
  have hcal := hrest.called hx hσ htak
  rw [← ha, ← ha'] at hcal
  cases hdyn : X.dynamic with
  | false =>
    rw [hdyn] at hi
    exact (grows_instance hi hb' h.runs.lb_le s).goes_to hcal
  | true =>
    rw [hdyn] at hi
    obtain ⟨a, fields, rfl, hobj⟩ := ht.exists_object
    have hlb := h.runs.lb_le
    obtain ⟨words, lb, this, rfl⟩ := h.runs.viewOf
    exact (grows_dynamic hc hi hb' hmeth hobj hlb).goes_to hcal

end

/-! ### Returns -/

theorem Routine.lt_of_le (R : Routine X) (hx : x ≤ R.last) : x < X.assembly.program.size :=
  Nat.lt_of_le_of_lt hx (Nat.lt_of_succ_lt R.lt)

theorem Stacked.next_lt {next lb : Nat} {this : Value} {words : List Cell}
    (h : Stacked X s.heap next lb this t words) : next < X.assembly.program.size := by
  cases h with
  | bottom =>
    rw [X.size_program]
    exact Nat.lt_succ_self _
  | frame R hnext => exact R.lt_of_le hnext.2

theorem Stacked.returned {next lb : Nat} {this : Value} {words result : List Cell}
    (h : Stacked X s.heap next lb this t words)
    (hres : List.Forall₂ (Fits X s.heap) (Code.Slot.ofResult t) result)
    (hs : s.Typed X.package.signature) :
    Sound X ⟨next, lb, this, result ++ (words ++ (X.ground s.statics).reverse), s.heap,
      s.printed⟩ := by
  cases h with
  | bottom =>
    cases hres
    exact .done
  | @frame R _ _ _ σ ops us next' lb' this' rest hnext hσ hops htak hrest =>
    refine .running R hnext ⟨_, result ++ ops, s, ?_, .mk htak hrest, ?_, hs⟩
    · simp [View.config, Target.viewOf]
    · rw [hσ]
      exact List.rel_append hres hops

theorem At.goes_return (h : At R (Code.Slot.atEnd R.decl) K ops s)
    (hi : X.InstrAt x (.make .ret R.decl.type.size .zr R.decl.params.length)) :
    Goes X (K.config x ops s) (Sound X) := by
  obtain ⟨result, junk, rfl, hres, -⟩ := exists_of_forall₂_append h.ops
  have hs : R.decl.type.size = result.length := by
    rw [← hres.length_eq, Code.Slot.length_ofResult]
  have hone : result.length ≤ 1 := by
    rw [← hs, Ty.size.eq_def]
    split <;> decide
  obtain @⟨this, us, next, lb, this', rest, htak, hr⟩ := h.runs
  have hpar : R.decl.params.length = us.length := by
    simpa using htak.args.length_eq.symm
  have hret : Steps X ⟨x, (us.map Cell.val ++ (rest ++ (X.ground s.statics).reverse)).length,
        this, result ++ junk ++ .raw next :: .raw lb :: .val this' ::
          (us.map .val ++ (rest ++ (X.ground s.statics).reverse)), s.heap, s.printed⟩
      ⟨next, lb, this', result ++ (rest ++ (X.ground s.statics).reverse), s.heap, s.printed⟩ :=
    steps_return hi (by rw [hs]) hone (by rw [hpar, List.length_map]) hr.next_lt rfl
  have hsta : (X.viewOf (.raw next :: .raw lb :: .val this' :: (us.map .val ++ rest))
      (us.length + rest.length + X.groundWords) this).config x (result ++ junk) s = ⟨x,
        (us.map Cell.val ++ (rest ++ (X.ground s.statics).reverse)).length, this,
        result ++ junk ++ .raw next :: .raw lb :: .val this' ::
          (us.map .val ++ (rest ++ (X.ground s.statics).reverse)), s.heap, s.printed⟩ := by
    simp [View.config, Target.viewOf, X.length_ground, Nat.add_assoc]
  rw [hsta]
  exact hret.goes_to (hr.returned hres h.store)

/-! ### Running programs -/

theorem Stands.sound (hx : R.start ≤ x ∧ x ≤ R.last) (h : Stands R x (R.slots x) c) : Sound X c :=
  .running R hx h

theorem Routine.instrAt (hx : x ≤ R.last)
    (hitem : (ofPackage X.package false X.entry).code.items[x]? = some item) :
    X.InstrAt x (instrOf X.package X.dynamic X.entry item) where
  get := by
    rw [Target.assembly, getElem?_dynamic, hitem]
    rfl
  lt := Nat.lt_of_le_of_lt (Nat.succ_le_succ hx) R.lt

variable {m : Machine}

theorem Shows.ne_null (hm : Shows X m (K.config x (.val o :: ops) s)) (hi : X.InstrAt x i)
    (hop : i.op = Opcode.calli.code ∨ i.op = Opcode.calld.code) (hnull : ¬ m.CallsNull) :
    o ≠ .null := by
  rintro rfl
  refine hnull ⟨?_, i, hm.instrAt? hi.get, hop⟩
  have hst : m.st = ((ops ++ K.under s.statics).length + 1 : Nat) := hm.st
  have htop : m.st - 1 = (ops ++ K.under s.statics).length := by omega
  rw [htop]
  exact (hm.holds_at [] rfl).2

theorem At.goes_turn (hsiz : X.Sized) (hcmp : X.package.comparesValues = true)
    (h : At R (R.slots x) K ops s) (hx : R.start ≤ x ∧ x < R.last)
    (htur : Code.Turns X.package (R.decl.site X.package.signature R.id.cls) item (R.slots x)
      (R.slots (x + 1)))
    (hi : X.InstrAt x (instrOf X.package X.dynamic X.entry item))
    (hm : Shows X m (K.config x ops s)) (hnull : ¬ m.CallsNull)
    (hrun : m.step.1.state = .running) : ∃ c', Shows X m.step.1 c' ∧ Sound X c' := by
  cases hcal : item.callee with
  | none =>
    have hins : instrOf X.package X.dynamic X.entry item = item.instr := by
      obtain ⟨i, line, callee⟩ := item
      obtain rfl : callee = none := hcal
      exact instrOf_none
    obtain ⟨c', hc', hstan⟩ := h.goes_turns hsiz htur hcal (hins ▸ hi) m hm hrun
    exact ⟨c', hc', hstan.sound (by omega)⟩
  | some id =>
    generalize hσ : R.slots x = σ at h htur
    generalize hτ : R.slots (x + 1) = τ at htur
    cases htur with
    | call hd hstat => exact h.goes_call hcmp hd hstat hx hτ hi m hm hrun
    | @invoke _ _ _ d _ hd hstat hname =>
      obtain ⟨o, rest, rfl, -, -⟩ := h.pop_value
      obtain ⟨b, hb, -, -⟩ := exists_body false X.entry hd
      obtain ⟨c, hc, -⟩ := Option.bind_eq_some_iff.1 hd
      have ho : o ≠ .null := by
        refine hm.ne_null hi ?_ hnull
        rw [instrOf_calli hb hc]
        cases X.dynamic
        · exact .inl rfl
        · exact .inr rfl
      exact h.goes_invoke hcmp hd hstat hname ho hx hτ hi m hm hrun
    | _ => cases hcal

/-- A machine that runs does not get to a configuration that is not sound before it calls a method
of nothing. -/
theorem Sound.goes (hsiz : X.Sized) (hcmp : X.package.comparesValues = true)
    (h : Sound X c) (hm : Shows X m c) (hnull : ¬ m.CallsNull)
    (hrun : m.step.1.state = .running) : ∃ c', Shows X m.step.1 c' ∧ Sound X c' := by
  cases h with
  | done => exact nomatch (hm.halts rfl).1.symm.trans hrun
  | @running R x _ hx h =>
    obtain ⟨K, ops, s, rfl, hat⟩ := h
    obtain hlt | rfl := Nat.lt_or_eq_of_le hx.2
    · obtain ⟨item, hitem, hmov⟩ := R.shape.moves x hx.1 hlt
      have hi := R.instrAt hx.2 hitem
      have hnext : R.start ≤ x + 1 ∧ x + 1 ≤ R.last := by omega
      cases hmov with
      | turn htur => exact hat.goes_turn hsiz hcmp ⟨hx.1, hlt⟩ htur hi hm hnull hrun
      | jump hy =>
        rw [instrOf_none] at hi
        exact (steps_jump hi (R.lt_of_le hy.2.1)).goes_to (.running R ⟨hy.1, hy.2.1⟩
          ⟨K, ops, s, rfl, hy.2.2 ▸ hat⟩) m hm hrun
      | branch hσ hy =>
        rw [instrOf_none] at hi
        rw [hσ] at hat
        obtain ⟨v, rest, rfl, hv, hr⟩ := hat.pop_value
        refine (steps_jumpif hi (R.lt_of_le hy.2.1)).goes_to ?_ m hm hrun
        split
        · exact .running R ⟨hy.1, hy.2.1⟩ ⟨K, rest, s, rfl, hy.2.2 ▸ hr⟩
        · exact .running R hnext ⟨K, rest, s, rfl, hr⟩
    · obtain ⟨line, hitem⟩ := R.shape.ret
      have hi := R.instrAt hx.2 hitem
      rw [instrOf_none] at hi
      rw [R.shape.words_last] at hat
      exact hat.goes_return hi m hm hrun

end

/-! ### From the start on -/

section

variable {m : Machine}

theorem exists_entry (hcmp : X.package.comparesValues = true) : ∃ (R : Routine X) (b : Code.Body),
    X.assembly.body? X.entry = some b ∧ b.addr = R.start ∧ R.decl.type = .void ∧
      R.Takes [] .null [.null] := by
  obtain ⟨id, hid, hprof⟩ := X.typed.entry
  cases X.entry_eq.symm.trans hid
  obtain ⟨d, hd, hprof⟩ := Option.map_eq_some_iff.1 hprof
  obtain ⟨R, hR, rfl, b, hb, ha⟩ := exists_routine hcmp hd
  obtain ⟨b', hb', ha', -⟩ := body?_of_static hb X.dynamic
  obtain ⟨hstat, hpar, htype⟩ := Profile.mk.inj hprof
  refine ⟨R, b', hb', ha'.trans ha, htype, ?_, fun hinst => ?_⟩
  · rw [hpar]
    exact .cons trivial .nil
  · exact nomatch hstat.symm.trans hinst

/-- A machine that has a package's code is at its first instruction, on the path to the method where
the package starts, or in a sound configuration. -/
inductive Underway (X : Target) (m : Machine) : Prop
  | fresh (h : Shows X m ⟨0, 0, .null, [], [], []⟩) (hzero : ∀ x, m.peek x = 0)
  | started (top : Nat) {c c' : Config} (h : Shows X m c) (hpath : Path X top c c')
    (hsound : Sound X c')

theorem Underway.step (hsiz : X.Sized) (hcmp : X.package.comparesValues = true)
    (h : Underway X m) (hnull : ¬ m.CallsNull) (hrun : m.step.1.state = .running) :
    Underway X m.step.1 := by
  cases h with
  | fresh h hzero =>
    obtain ⟨R, b, hb, haddr, htype, htak⟩ := exists_entry hcmp
    have hshow := (shows_statics h hzero).resolve_right fun hfull => hfull.1 hrun
    refine .started _ hshow (path_entry hb) (.running R ⟨Nat.le_refl _, R.shape.le⟩ ?_)
    have hr : Stacked X (start X.package).heap X.bottom.next 0 .null R.decl.type [] := by
      rw [htype]
      exact .bottom
    refine ⟨_, [], start X.package, ?_, .mk htak hr, ?_, typed_start X.typed⟩
    · rw [haddr]
      simp [Target.view, Caller.words, Target.bottom]
    · rw [R.shape.words_start]
      exact .nil
  | started top h hpath hsnd =>
    cases hpath with
    | refl =>
      obtain ⟨c', hc', hsnd'⟩ := hsnd.goes hsiz hcmp h hnull hrun
      exact .started 0 hc' (.refl c') hsnd'
    | step _ _ hgrow _ hr =>
      obtain ⟨c₁, hc₁, rfl⟩ := hgrow.goes m h hrun
      exact .started _ hc₁ hr hsnd

end

end Simulation

end MiniJam
