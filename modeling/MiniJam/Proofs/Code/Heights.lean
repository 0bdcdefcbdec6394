import MiniJam.Proofs.Code.Compiled
import MiniJam.Proofs.Code.Dispatch
import MiniJam.Proofs.Code.Flow
import MiniJam.Proofs.Code.Placed

/-!
# The height of the stack

The code of a method keeps the stack in order: there is a height for every address of the code, from
the base of the frame on, such that each instruction finds its operands above the link words, and
leaves the height of every address at which the method may go on.  `Assembly.Heights` states this,
with what follows for the places of the variables and for the return, and
`Compiler.stack_discipline` proves it for every compiled source in which only values are compared.

The heights are the numbers of the words that a `Code.Flow` gives to the addresses.
-/

namespace MiniJam

open List Option Opcode Instr

/-- What an instruction does to the height of the stack. -/
structure Effect where
  /-- The words that it takes from the top of the stack. -/
  takes : Nat
  /-- The words that it leaves there in their place. -/
  leaves : Nat
  deriving DecidableEq, Repr

def Prim.effect : Prim → Effect
  | .id | .geteol | .puteol => ⟨0, 0⟩
  | .eol | .eof => ⟨0, 1⟩
  | .get | .put | .getint | .putint | .putintnl | .dispose => ⟨1, 0⟩
  | .not | .succ | .pred | .neg | .alloc | .newarr => ⟨1, 1⟩
  | .and | .or | .add | .sub | .mult | .div | .mod | .lt | .le | .ge | .gt | .eq | .ne
  | .newobj | .arrayref | .fieldref => ⟨2, 1⟩
  | .arrayupd | .fieldupd => ⟨3, 0⟩

/-- The operands and results of an instruction; `callee` is the method that it calls.  A call takes
the arguments, and the instance if there is one, and leaves the result. -/
def Instr.effect? (callee : Option MethodDecl) (i : Instr) : Option Effect := do
  match ← Opcode.ofCode? i.op with
  | .load => if i.r = Reg.st.code then some ⟨1, 2⟩ else some ⟨0, 1⟩
  | .loada | .loadl => some ⟨0, 1⟩
  | .loadi => some ⟨1, 1⟩
  | .store => some ⟨1, 0⟩
  | .storei => some ⟨2, 0⟩
  | .call =>
    match callee with
    | some m => some ⟨m.params.length, m.type.size⟩
    | none => if i.r = Reg.pb.code then (Prim.ofCode? i.d).map Prim.effect else none
  | .calli | .calld => callee.map fun m => ⟨m.params.length + 1, m.type.size⟩
  | .ret => some ⟨i.n.toNat, 0⟩
  | .push => some ⟨0, i.d.toNat⟩
  | .pop => some ⟨i.d.toNat, 0⟩
  | .jump | .halt => some ⟨0, 0⟩
  | .jumpi | .jumpif => some ⟨1, 0⟩

/-- The addresses at which a method may go on after its instruction at the address `x`; there is
`none` for one that is not known. -/
def Instr.successors (x : Nat) (i : Instr) : List (Option Int) :=
  let target := if i.r = Reg.cb.code then some i.d else none
  match Opcode.ofCode? i.op with
  | some .jump => [target]
  | some .jumpif => [target, some (x + 1 : Nat)]
  | some .jumpi | none => [none]
  | some .ret | some .halt => []
  | some _ => [some (x + 1 : Nat)]

/-- With an instruction the stack changes from the height `a` to `b`, and the method goes on with
the next instruction. -/
def Instr.Passes (i : Instr) (callee : Option MethodDecl) (a b : Nat) : Prop :=
  ∃ e rest, i.effect? callee = some e ∧ a = rest + e.takes ∧ b = rest + e.leaves ∧
    i.op ≠ Opcode.ret.code ∧ ∀ x : Nat, i.successors x = [some ((x + 1 : Nat) : Int)]

theorem Instr.passes_ofPrim {q : Prim} {a b rest : Nat} (h : q.effect = ⟨a, b⟩) :
    (ofPrim q).Passes none (rest + a) (rest + b) := by
  refine ⟨⟨a, b⟩, rest, ?_, rfl, rfl, nofun, fun _ => rfl⟩
  simp [effect?, ofPrim, callPrimitive, make, ofCode?_code,
    Prim.ofCode?_code, h]

namespace Code

def Body.Spans (b : Body) (x : Nat) : Prop := b.addr ≤ x ∧ x < b.addr + b.code.size

theorem effect_unaryPrim (op : Operator) : (unaryPrim op).effect = ⟨1, 1⟩ := by
  cases op <;> rfl

theorem effect_binaryPrim {op : Operator} (h : binaryPrim? op = some q) : q.effect = ⟨2, 1⟩ := by
  cases op <;> cases h <;> rfl

section

variable {p : Package} {params : List ParamDecl}

mutual

theorem initialisers_dynamic (dynamic : Bool) (frame : Frame) (pc : Nat) (s : Stmt) :
    initialisers ⟨p, dynamic, params⟩ frame pc s = initialisers ⟨p, false, params⟩ frame pc s := by
  cases dynamic with
  | false => rfl
  | true =>
    match s with
    | .block _ body =>
      rw [initialisers, initialisers]
      exact initialisersOf_dynamic true frame pc body
    | .decl .. | .assign .. | .call _ => rw [initialisers, initialisers]
    | .ifThen _ cond body | .loop _ cond body =>
      rw [initialisers, initialisers, ofExpr_dynamic, size_dispatched]
      exact initialisers_dynamic true frame _ body
    | .ifElse _ cond body other =>
      rw [initialisers, initialisers, ofExpr_dynamic, size_dispatched]
      simp only [ofStmt_dynamic, size_dispatched]
      rw [initialisers_dynamic true frame _ body, initialisers_dynamic true _ _ other]

theorem initialisersOf_dynamic (dynamic : Bool) (frame : Frame) (pc : Nat) (ss : List Stmt) :
    initialisersOf ⟨p, dynamic, params⟩ frame pc ss =
      initialisersOf ⟨p, false, params⟩ frame pc ss := by
  cases dynamic with
  | false => rfl
  | true =>
    match ss with
    | [] => rw [initialisersOf, initialisersOf]
    | s :: ss =>
      rw [initialisersOf, initialisersOf]
      simp only [ofStmt_dynamic, size_dispatched]
      rw [initialisers_dynamic true frame pc s, initialisersOf_dynamic true _ _ ss]

end

end

variable {p : Package} {Γ : Site} {σ : List Slot} {t : Ty} {base : Reg} {addr : Int}

theorem base_fieldEntity {id : MemberId} {e : Entity} (h : Layout.fieldEntity? p id = some e) :
    e.base = .sb ∨ e.base = .ob := by
  obtain ⟨c, -, h⟩ := bind_eq_some_iff.1 h
  obtain ⟨f, -, h⟩ := bind_eq_some_iff.1 h
  split at h
  · cases h
    exact .inl rfl
  · cases h
    exact .inr rfl

theorem Place.base_ne (h : Place p Γ σ t base addr) : base.code ≠ Reg.st.code := by
  cases h with
  | var | param => decide
  | field hf he ht h =>
    obtain hbase | hbase := base_fieldEntity he <;> rw [hbase] <;> decide

theorem Place.frame (h : Place p Γ σ t base addr) (hbase : base.code = Reg.lb.code) :
    3 ≤ addr ∧ addr < 3 + σ.length ∨ -(Γ.params.length : Int) ≤ addr ∧ addr ≤ -1 := by
  cases h with
  | var h =>
    have hlt := (List.getElem?_eq_some_iff.1 h).1
    rw [length_reverse] at hlt
    omega
  | param h =>
    have hlt := (List.getElem?_eq_some_iff.1 h).1
    omega
  | field hf he ht h =>
    obtain hsb | hob := base_fieldEntity he
    · rw [hsb] at hbase
      exact absurd hbase (by decide)
    · rw [hob] at hbase
      exact absurd hbase (by decide)

end Code

namespace Assembly

variable {p : Package} {dynamic : Bool} {entry : MemberId}

/-! ### Instructions in their places -/

def calleeAt (p : Package) (entry : MemberId) (x : Nat) : Option MemberId :=
  (ofPackage p false entry).code.items[x]?.bind (·.callee)

/-- The instruction of an item of the code that calls methods by their addresses, in the code that
may call those of instances through descriptors. -/
def instrOf (p : Package) (dynamic : Bool) (entry : MemberId) (item : Item) : Instr :=
  (ofPackage p false entry).link (bif dynamic then item.dispatched p else item)

theorem getElem?_dynamic (x : Nat) : (ofPackage p dynamic entry).program[x]? =
    (ofPackage p false entry).code.items[x]?.map (instrOf p dynamic entry) := by
  rw [getElem?_program]
  cases dynamic with
  | false => rfl
  | true =>
    rw [code_dynamic, Code.dispatched, getElem?_map, Option.map_map]
    congr 1
    funext item
    exact link_dynamic p entry _

variable {i : Instr} {line : Int} {id : MemberId} {b : Code.Body} {Γ : Site} {item : Item}
  {σ τ : List Code.Slot} {m : MethodDecl} {start last x : Nat} {S : Nat → List Code.Slot}

theorem instrOf_none : instrOf p dynamic entry ⟨i, line, none⟩ = i := by
  cases dynamic <;> rfl

section

variable (hb : (ofPackage p false entry).body? id = some b)

include hb

theorem instrOf_call :
    instrOf p dynamic entry ⟨.make .call 0 .cb 0, line, some id⟩ = .make .call 0 .cb b.addr := by
  have hitem : (bif dynamic then Item.dispatched p ⟨.make .call 0 .cb 0, line, some id⟩
      else ⟨.make .call 0 .cb 0, line, some id⟩) = ⟨.make .call 0 .cb 0, line, some id⟩ := by
    cases dynamic with
    | false => rfl
    | true => exact Item.dispatched_eq (.inr (show call.code ≠ calli.code by decide))
  rw [instrOf, hitem]
  simp [link, hb, make]

theorem instrOf_calli {c : ClassDecl} (hc : p.class? id.cls = some c) :
    instrOf p dynamic entry ⟨.make .calli 0 .cb 0, line, some id⟩ =
      bif dynamic then .make .calld 0 .zr (Layout.methodSlot c id.index)
      else .make .calli 0 .cb b.addr := by
  cases dynamic with
  | false => simp [instrOf, link, hb, make]
  | true => simp [instrOf, Item.dispatched_calli hc, link]

/-- The body of a method in one code, from that in the code that calls methods by their addresses. -/
theorem body?_of_static (dynamic : Bool) :
    ∃ b', (ofPackage p dynamic entry).body? id = some b' ∧ b'.addr = b.addr ∧
      b'.code.size = b.code.size ∧ b'.frame = b.frame := by
  cases dynamic with
  | false => exact ⟨b, hb, rfl, rfl, rfl⟩
  | true =>
    refine ⟨b.dispatched p, ?_, rfl, Code.size_dispatched _, rfl⟩
    rw [body?_dynamic, hb]
    rfl

end

/-! ### Effects -/

theorem passes_turns (h : Code.Turns p Γ item σ τ) :
    (instrOf p dynamic entry item).Passes (item.callee.bind p.method?) σ.length τ.length := by
  cases h with
  | int | bool | number | this | descriptor =>
    rw [instrOf_none]
    exact ⟨⟨0, 1⟩, _, rfl, rfl, rfl, nofun, fun _ => rfl⟩
  | load h =>
    rw [instrOf_none]
    exact ⟨⟨0, 1⟩, _, if_neg h.base_ne, rfl, rfl, nofun, fun _ => rfl⟩
  | store =>
    rw [instrOf_none]
    exact ⟨⟨1, 0⟩, _, rfl, rfl, rfl, nofun, fun _ => rfl⟩
  | copy =>
    rw [instrOf_none]
    exact ⟨⟨1, 2⟩, _, rfl, rfl, rfl, nofun, fun _ => rfl⟩
  | length =>
    rw [instrOf_none]
    exact ⟨⟨1, 1⟩, _, rfl, rfl, rfl, nofun, fun _ => rfl⟩
  | pop gone =>
    rw [instrOf_none, length_append, Nat.add_comm]
    exact ⟨⟨gone.length, 0⟩, _, rfl, rfl, rfl, nofun, fun _ => rfl⟩
  | unary op =>
    rw [instrOf_none]
    exact passes_ofPrim (Code.effect_unaryPrim op)
  | binary hq _ =>
    rw [instrOf_none]
    exact passes_ofPrim (Code.effect_binaryPrim hq)
  | newObject | newArray | lengthAddr | element | setElement | field | setField | print =>
    rw [instrOf_none]
    exact passes_ofPrim rfl
  | @call _ σ id m hm hstat =>
    obtain ⟨b, hb, -⟩ := exists_body false entry hm
    rw [instrOf_call hb]
    refine ⟨⟨m.params.length, m.type.size⟩, σ.length, ?_, ?_, ?_, nofun, fun _ => rfl⟩
    · rw [bind_some, hm]
      rfl
    · simp [Code.Slot.ofParams, Nat.add_comm]
    · simp [Nat.add_comm]
  | @invoke _ σ id m _ hm hstat hname =>
    obtain ⟨b, hb, -⟩ := exists_body false entry hm
    obtain ⟨c, hc, -⟩ := bind_eq_some_iff.1 hm
    rw [instrOf_calli hb hc]
    refine ⟨⟨m.params.length + 1, m.type.size⟩, σ.length, ?_, ?_, ?_, ?_, fun _ => ?_⟩
    · rw [bind_some, hm]
      cases dynamic <;> rfl
    · simp only [length_cons, length_append, Code.Slot.ofParams, length_map]
      omega
    · simp [Nat.add_comm]
    · cases dynamic <;> exact nofun
    · cases dynamic <;> rfl

/-- An instruction that loads or stores a word of the frame finds it among the words of its rule, or
among the parameters. -/
theorem frame_turns (h : Code.Turns p Γ item σ τ)
    (hop : (instrOf p dynamic entry item).op = load.code ∨
      (instrOf p dynamic entry item).op = store.code)
    (hr : (instrOf p dynamic entry item).r = Reg.lb.code) :
    3 ≤ (instrOf p dynamic entry item).d ∧ (instrOf p dynamic entry item).d < 3 + σ.length ∨
      -(Γ.params.length : Int) ≤ (instrOf p dynamic entry item).d ∧
      (instrOf p dynamic entry item).d ≤ -1 := by
  cases h with
  | load h =>
    rw [instrOf_none] at hr ⊢
    exact h.frame hr
  | store h =>
    rw [instrOf_none] at hr ⊢
    have hfr := h.frame hr
    simp only [make, length_cons] at hfr ⊢
    omega
  | copy =>
    rw [instrOf_none] at hr
    exact absurd hr (show Reg.st.code ≠ Reg.lb.code by decide)
  | call hm =>
    obtain ⟨b, hb, -⟩ := exists_body false entry hm
    rw [instrOf_call hb] at hop
    exact absurd hop (show ¬ (call.code = _ ∨ call.code = _) by decide)
  | invoke hm =>
    obtain ⟨b, hb, -⟩ := exists_body false entry hm
    obtain ⟨c, hc, -⟩ := bind_eq_some_iff.1 hm
    rw [instrOf_calli hb hc] at hop
    cases dynamic with
    | false => exact absurd hop (show ¬ (calli.code = _ ∨ calli.code = _) by decide)
    | true => exact absurd hop (show ¬ (calld.code = _ ∨ calld.code = _) by decide)
  | _ =>
    rw [instrOf_none] at hop
    obtain hop | hop := hop <;> cases hop

/-- The instruction calls a method: at its address, or at its position in the descriptor of the class
that it belongs to. -/
def Calls (p : Package) (dynamic : Bool) (entry id : MemberId) (i : Instr) : Prop :=
  ∃ b c, (ofPackage p dynamic entry).body? id = some b ∧ p.class? id.cls = some c ∧
    (i = .make .call 0 .cb b.addr ∨ i = .make .calli 0 .cb b.addr ∨
      i = .make .calld 0 .zr (Layout.methodSlot c id.index))

theorem calls_turns (h : Code.Turns p Γ item σ τ) (hid : item.callee = some id) :
    Calls p dynamic entry id (instrOf p dynamic entry item) := by
  cases h with
  | call hm =>
    cases hid
    obtain ⟨b, hb, -⟩ := exists_body false entry hm
    obtain ⟨b', hb', ha, -⟩ := body?_of_static hb dynamic
    obtain ⟨c, hc, -⟩ := bind_eq_some_iff.1 hm
    rw [instrOf_call hb]
    exact ⟨b', c, hb', hc, .inl (by rw [ha])⟩
  | invoke hm =>
    cases hid
    obtain ⟨b, hb, -⟩ := exists_body false entry hm
    obtain ⟨b', hb', ha, -⟩ := body?_of_static hb dynamic
    obtain ⟨c, hc, -⟩ := bind_eq_some_iff.1 hm
    rw [instrOf_calli hb hc]
    refine ⟨b', c, hb', hc, .inr ?_⟩
    cases dynamic with
    | false => exact .inl (by rw [ha]; rfl)
    | true => exact .inr rfl
  | _ => cases hid

/-! ### Methods -/

/-- The words `S` lie on the stack at the addresses of a method, from the first instruction to the
return. -/
structure Shape (p : Package) (entry id : MemberId) (m : MethodDecl) (start last : Nat)
    (S : Nat → List Code.Slot) : Prop where
  le : start ≤ last
  words_start : S start = []
  words_last : S last = Code.Slot.atEnd m
  moves : ∀ x, start ≤ x → x < last → ∃ item, (ofPackage p false entry).code.items[x]? = some item ∧
    Code.Moves p (m.site p.signature id.cls) (fun y σ => start ≤ y ∧ y ≤ last ∧ S y = σ) (S x)
      (S (x + 1)) item
  ret : ∃ line, (ofPackage p false entry).code.items[last]? =
    some ⟨.make .ret m.type.size .zr m.params.length, line, none⟩

theorem exists_shape (hp : p.Typed) (entry : MemberId)
    (hm : p.method? id = some m) (hcmp : m.comparesValues = true) :
    ∃ b last S, (ofPackage p false entry).body? id = some b ∧ b.addr + b.code.size = last + 1 ∧
      Shape p entry id m b.addr last S ∧
      (b.code, b.frame) = Code.ofMethod ⟨p, false, m.params⟩ .start b.addr m ∧
      ∀ x ∈ Code.initialisersOf ⟨p, false, m.params⟩ .start b.addr m.body,
        b.addr ≤ x.2.1 ∧ x.2.1 ≤ last ∧ 3 + (S x.2.1).length = x.2.2 := by
  obtain ⟨b, hb, -, hbody⟩ := exists_body false entry hm
  obtain ⟨code, hc, S, hsta, hlast, hmov, hvars⟩ := Code.flow_ofMethod hp hm hcmp b.addr
  have hplac := codeAt_body hb
  rw [show b.code = _ from (congrArg Prod.fst hbody).trans hc] at hplac
  obtain ⟨hc', hret⟩ := codeAt_append.1 hplac
  have hsize : b.addr + b.code.size = b.addr + code.size + 1 := by
    rw [show b.code = _ from (congrArg Prod.fst hbody).trans hc, Code.size_append, Code.size_one,
      Nat.add_assoc]
  refine ⟨b, b.addr + code.size, S, hb, hsize, ⟨Nat.le_add_right _ _, hsta, hlast, ?_, ?_⟩,
    hbody, hvars⟩
  · intro x hle hlt
    obtain ⟨k, rfl⟩ := Nat.exists_eq_add_of_le hle
    have hk : k < code.items.length := by
      rw [Code.size] at hlt
      omega
    refine ⟨code.items[k], hc'.items k _ (getElem?_eq_getElem hk), ?_⟩
    refine (hmov k _ (getElem?_eq_getElem hk)).mono ?_
    rintro y σ (hin | hout)
    · exact hin
    · exact hout.elim
  · exact ⟨_, hret.items 0 _ rfl⟩

section

variable (hS : Shape p entry id m start last S)

include hS

theorem Shape.step (dynamic : Bool) (hle : start ≤ x) (hlt : x < last) :
    ∃ i e rest, (ofPackage p dynamic entry).program[x]? = some i ∧
      i.effect? ((calleeAt p entry x).bind p.method?) = some e ∧ (S x).length = rest + e.takes ∧
      i.op ≠ Opcode.ret.code ∧
      ∀ y ∈ i.successors x, ∃ z : Nat, y = some (z : Int) ∧ start ≤ z ∧ z ≤ last ∧
        (S z).length = rest + e.leaves := by
  obtain ⟨item, hitem, hmov⟩ := hS.moves x hle hlt
  rw [getElem?_dynamic, calleeAt, hitem]
  cases hmov with
  | turn h =>
    have hpass : (instrOf p dynamic entry item).Passes _ _ _ := passes_turns h
    obtain ⟨e, rest, he, hx, hnext, hret, hsucc⟩ := hpass
    refine ⟨_, e, rest, rfl, he, hx, hret, fun y hy => ?_⟩
    rw [hsucc, mem_singleton] at hy
    exact ⟨x + 1, hy, by omega, by omega, hnext⟩
  | @jump _ y h =>
    refine ⟨_, ⟨0, 0⟩, (S x).length, rfl, ?_, rfl, ?_, fun z hz => ?_⟩
    · rw [instrOf_none]
      rfl
    · rw [instrOf_none]
      exact nofun
    · rw [instrOf_none] at hz
      obtain rfl := mem_singleton.1 hz
      exact ⟨y, rfl, h.1, h.2.1, congrArg length h.2.2⟩
  | @branch _ n y hσ h =>
    refine ⟨_, ⟨1, 0⟩, (S (x + 1)).length, rfl, ?_, by rw [hσ]; rfl, ?_, fun z hz => ?_⟩
    · rw [instrOf_none]
      rfl
    · rw [instrOf_none]
      exact nofun
    · rw [instrOf_none] at hz
      obtain rfl | hz := mem_cons.1 hz
      · exact ⟨y, rfl, h.1, h.2.1, congrArg length h.2.2⟩
      · exact ⟨x + 1, mem_singleton.1 hz, by omega, by omega, rfl⟩

theorem Shape.frame (hle : start ≤ x) (hlt : x < last)
    (hi : (ofPackage p dynamic entry).program[x]? = some i)
    (hop : i.op = load.code ∨ i.op = store.code) (hr : i.r = Reg.lb.code) :
    3 ≤ i.d ∧ i.d < (3 + (S x).length : Nat) ∨ -(m.params.length : Int) ≤ i.d ∧ i.d ≤ -1 := by
  obtain ⟨item, hitem, hmov⟩ := hS.moves x hle hlt
  rw [getElem?_dynamic, hitem] at hi
  cases hi
  cases hmov with
  | turn h =>
    have hfr := frame_turns h hop hr
    rw [show (m.site p.signature id.cls).params.length = m.params.length from
      length_map _] at hfr
    omega
  | jump | branch =>
    rw [instrOf_none] at hop
    obtain hop | hop := hop <;> cases hop

theorem Shape.calls (hle : start ≤ x) (hlt : x < last)
    (hi : (ofPackage p dynamic entry).program[x]? = some i) (hid : calleeAt p entry x = some id') :
    Calls p dynamic entry id' i := by
  obtain ⟨item, hitem, hmov⟩ := hS.moves x hle hlt
  rw [getElem?_dynamic, hitem] at hi
  cases hi
  rw [calleeAt, hitem] at hid
  cases hmov with
  | turn h => exact calls_turns h hid
  | jump | branch => cases hid

end

/-! ### Heights -/

/-- The stack discipline of the code of a method: `h` gives the height of the stack, from the base of
the frame on, before each instruction. -/
structure Heights (p : Package) (dynamic : Bool) (entry : MemberId) (m : MethodDecl)
    (b : Code.Body) (h : Nat → Nat) : Prop where
  start : h b.addr = 3
  step : ∀ x, b.Spans x → ∃ i e, (ofPackage p dynamic entry).program[x]? = some i ∧
    i.effect? ((calleeAt p entry x).bind p.method?) = some e ∧ 3 + e.takes ≤ h x ∧
    ∀ y ∈ i.successors x, ∃ z : Nat, y = some (z : Int) ∧ b.Spans z ∧ h z + e.takes = h x + e.leaves
  calls : ∀ x i id, b.Spans x → (ofPackage p dynamic entry).program[x]? = some i →
    calleeAt p entry x = some id → Calls p dynamic entry id i
  ret : ∃ x, x + 1 = b.addr + b.code.size ∧
    h x = 3 + (m.body.flatMap (·.declared)).length + m.type.size ∧
    (ofPackage p dynamic entry).program[x]? = some (.make .ret m.type.size .zr m.params.length) ∧
    ∀ y i, b.Spans y → (ofPackage p dynamic entry).program[y]? = some i →
      i.op = Opcode.ret.code → y = x
  vars : List.Forall₂ (fun x slot => x.1 = slot.1 ∧ b.Spans x.2.1 ∧ h x.2.1 = slot.2)
    (Code.initialisersOf ⟨p, dynamic, m.params⟩ .start b.addr m.body) b.frame.slots.reverse
  frame : ∀ x i, b.Spans x → (ofPackage p dynamic entry).program[x]? = some i →
    i.op = Opcode.load.code ∨ i.op = Opcode.store.code → i.r = Reg.lb.code →
    3 ≤ i.d ∧ i.d < h x ∨ -(m.params.length : Int) ≤ i.d ∧ i.d ≤ -1

theorem exists_heights (hp : p.Typed) (dynamic : Bool) (entry : MemberId) (hm : p.method? id = some m) (hcmp : m.comparesValues = true) :
    ∃ b h, (ofPackage p dynamic entry).body? id = some b ∧ Heights p dynamic entry m b h := by
  obtain ⟨b₀, last, S, hb₀, hs, hS, hc, hv⟩ := exists_shape hp entry hm hcmp
  obtain ⟨b, hb, ha, hcod, hfr⟩ := body?_of_static hb₀ dynamic
  rw [← ha, ← hcod] at hs
  rw [← ha] at hS hc hv
  have hspan : ∀ x, b.Spans x → b.addr ≤ x ∧ (x < last ∨ x = last) := by
    rintro x ⟨hle, hlt⟩
    omega
  have hret : (ofPackage p dynamic entry).program[last]? =
      some (.make .ret m.type.size .zr m.params.length) := by
    obtain ⟨line, hl⟩ := hS.ret
    rw [getElem?_dynamic, hl, map_some, instrOf_none]
  have hlast : 3 + (S last).length = 3 + (m.body.flatMap (·.declared)).length + m.type.size := by
    rw [hS.words_last, Code.Slot.atEnd, length_append, Code.Slot.length_ofResult,
      Code.Slot.length_ofVars]
    omega
  refine ⟨b, fun x => 3 + (S x).length, hb, ?_, ?_, ?_, ⟨last, hs.symm, hlast, hret, ?_⟩, ?_, ?_⟩
  · rw [hS.words_start]
    rfl
  · intro x hx
    obtain ⟨hle, hlt | rfl⟩ := hspan x hx
    · obtain ⟨i, e, rest, hi, he, hht, -, hsucc⟩ := hS.step dynamic hle hlt
      refine ⟨i, e, hi, he, by omega, fun y hy => ?_⟩
      obtain ⟨z, rfl, hlo, hhi, hz⟩ := hsucc y hy
      exact ⟨z, rfl, ⟨hlo, by omega⟩, by omega⟩
    · refine ⟨_, ⟨m.type.size, 0⟩, hret, rfl, ?_, forall_mem_nil _⟩
      show 3 + m.type.size ≤ 3 + (S x).length
      omega
  · intro x i id' hx hi hid
    obtain ⟨hle, hlt | rfl⟩ := hspan x hx
    · exact hS.calls hle hlt hi hid
    · obtain ⟨line, hl⟩ := hS.ret
      rw [calleeAt, hl] at hid
      cases hid
  · intro y i hy hi hop
    obtain ⟨hle, hlt | rfl⟩ := hspan y hy
    · obtain ⟨i', e, rest, hi', -, -, hne, -⟩ := hS.step dynamic hle hlt
      cases hi.symm.trans hi'
      exact absurd hop hne
    · rfl
  · have hslot : b.frame.slots.reverse =
        (Code.initialisersOf ⟨p, dynamic, m.params⟩ .start b.addr m.body).map
          fun x => (x.1, x.2.2) := by
      rw [hfr, show b₀.frame = _ from congrArg Prod.snd hc, Code.initialisersOf_dynamic]
      show (Code.ofStmts _ _ _ _).2.slots.reverse = _
      rw [Code.slots_ofStmts, reverse_append, reverse_reverse]
      rfl
    rw [hslot, forall₂_map_right_iff, forall₂_same, Code.initialisersOf_dynamic]
    intro x hx
    obtain ⟨hlo, hhi, hht⟩ := hv x hx
    exact ⟨rfl, ⟨hlo, by omega⟩, hht⟩
  · intro x i hx hi hop hr
    obtain ⟨hle, hlt | rfl⟩ := hspan x hx
    · exact hS.frame hle hlt hi hop hr
    · rw [hret] at hi
      cases hi
      exact absurd hop (show ¬ (ret.code = _ ∨ ret.code = _) by decide)

end Assembly

/-- The code of every method of a compiled source keeps the stack in order if only values are
compared in it, whichever way the methods of instances are called. -/
theorem Compiler.stack_discipline {c : Compiler} {name : String} {source : List UInt8}
    {object : Object} (h : c.compile name source = .ok object) :
    ∃ p entry, Package.checked? (Path.base name) source = some p ∧ p.entry = some entry ∧
      object.program = (Assembly.ofPackage p c.dynamic entry).program ∧
      (p.comparesValues = true → ∀ id m, p.method? id = some m →
        ∃ b h, (Assembly.ofPackage p c.dynamic entry).body? id = some b ∧
          Assembly.Heights p c.dynamic entry m b h) := by
  obtain ⟨p, entry, hp, htyped, hentry, hprogram, -⟩ := Compiler.exists_checked h
  refine ⟨p, entry, hp, hentry, hprogram, fun hcmp id m hm => ?_⟩
  exact Assembly.exists_heights htyped c.dynamic entry hm
    (Semantics.MethodDecl.comparesValues_of_package hcmp hm)

def callsMethod : List UInt8 :=
  "class M{int f(int x){return x;}public static void main(String[]a){M m=new M();int y=m.f(5);}}"
    |>.toUTF8.toList

/-- Its code, which calls the method by its address or through the descriptor. -/
def callsMethodCode (dynamic : Bool) : List Instr :=
  [.make .push 0 .zr 1,
    .make .jump 0 .cb 2, .make .loadl 0 .zr (-1), .make .loadl 0 .zr 0, .make .loadl 0 .zr 0,
    .make .jump 0 .cb 7, .make .ret 0 .zr 1,
    .make .loadl 0 .zr (-1), .make .loadl 0 .zr 0, .make .loadl 0 .zr 1, .make .loadl 0 .zr 6,
    .make .jump 0 .cb 12, .make .loadl 0 .zr (-1), .make .loadl 0 .zr 0, .make .loadl 0 .zr 0,
    .make .jump 0 .cb 25, .make .load 1 .lb (-1), .make .ret 1 .zr 1,
    .make .loada 0 .sb 11, .make .loadl 0 .zr 0, .ofPrim .newobj, .make .loadl 0 .zr 5,
    .make .load 1 .lb 3, if dynamic then .make .calld 0 .zr 0 else .make .calli 0 .cb 16,
    .make .ret 0 .zr 1,
    .make .loadl 0 .zr (-1), .make .loadl 0 .zr 0, .make .loadl 0 .zr 1, .make .loadl 0 .zr 16,
    .make .loadl 0 .zr 0, .make .call 0 .cb 18, .make .halt 0 .zr 0]

theorem callsMethod_evaluated (dynamic : Bool) : ∃ p object m,
    Package.checked? "M" callsMethod = some p ∧ p.comparesValues = true ∧
    Compiler.object ⟨dynamic, 1024⟩ p = .ok object ∧
    p.method? ⟨3, 0⟩ = some m ∧ m.isStatic = false ∧ m.params.length = 1 ∧
    object.program.toList = callsMethodCode dynamic := by
  have h : (Package.checked? "M" callsMethod).elim False fun p => p.comparesValues = true ∧
      (p.method? ⟨3, 0⟩).elim False fun m => (m.isStatic = false ∧ m.params.length = 1) ∧
        (Compiler.object ⟨dynamic, 1024⟩ p).toOption.elim False fun object =>
          object.program.toList = callsMethodCode dynamic := by
    cases dynamic <;> cbv
  obtain ⟨p, hp, hcmp, h⟩ := exists_some_of_elim h
  obtain ⟨m, hm, ⟨hstat, hpar⟩, h⟩ := exists_some_of_elim h
  obtain ⟨object, hobj, hcode⟩ := exists_ok_of_elim h
  exact ⟨p, object, m, hp, hcmp, hobj, hm, hstat, hpar, hcode⟩

/-- The method that the program calls through a descriptor keeps the stack in order. -/
theorem Compiler.stack_discipline_callsMethod : ∃ object p entry m b h,
    Compiler.compile ⟨true, 1024⟩ "M" callsMethod = .ok object ∧
    Package.checked? "M" callsMethod = some p ∧ p.comparesValues = true ∧
    p.method? ⟨3, 0⟩ = some m ∧
    (Assembly.ofPackage p true entry).body? ⟨3, 0⟩ = some b ∧
    Assembly.Heights p true entry m b h := by
  obtain ⟨p, object, m, hp, hcompare, hobject, hm, -⟩ := callsMethod_evaluated true
  have hcompile := (Compiler.compile_of_checked "M" hp).trans hobject
  obtain ⟨q, entry, hq, -, -, hheights⟩ := Compiler.stack_discipline hcompile
  cases hp.symm.trans hq
  obtain ⟨b, h, hb, hheights⟩ := hheights hcompare ⟨3, 0⟩ m hm
  exact ⟨object, p, entry, m, b, h, hcompile, hp, hcompare, hm, hb, hheights⟩

end MiniJam
