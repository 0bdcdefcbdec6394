import MiniJam.Proofs.Code.Placed
import MiniJam.Proofs.Machine.Arithmetic

/-!
# The code of expressions computes their values

An expression of literals, variables on the stack and operators (`Code.Plain`) has a value that
depends on the words of the variables only (`Code.evaluate`).  Its code, wherever it stands in a
program, leaves this word on top of the stack and changes nothing below, or fails the program for the
reason for which there is no value (`Machine.evaluates_plain`).
-/

namespace MiniJam

namespace Code

open Machine.Exec

/-! ### Values -/

def exact (x : Int) : Except Failure Int := if IsWord x then .ok x else .error (.overflow x)

def unaryValue : Operator → Int → Except Failure Int
  | .not, x => .ok (boolWord (x == 0))
  | _, x => exact (-x)

/-- The result of an operator on two words, if the first one does not decide it. -/
def binaryValue : Operator → Int → Int → Except Failure Int
  | .plus, x, y => exact (x + y)
  | .minus, x, y => exact (x - y)
  | .mul, x, y => exact (x * y)
  | .div, x, y => if y = 0 then .error (.zeroDivide x) else exact (x.tdiv y)
  | .lt, x, y => .ok (boolWord (x < y))
  | .le, x, y => .ok (boolWord (x ≤ y))
  | .gt, x, y => .ok (boolWord (y < x))
  | .ge, x, y => .ok (boolWord (y ≤ x))
  | .eq, x, y => .ok (boolWord (x == y))
  | .ne, x, y => .ok (boolWord (x != y))
  | .and, _, y | .or, _, y | .not, _, y => .ok y

/-- Whether the left operand is the result, and the right one is not evaluated. -/
def decides : Operator → Int → Bool
  | .and, x => x == 0
  | .or, x => x == 1
  | _, _ => false

/-- The value of an expression whose variables have the words `σ`. -/
def evaluate (σ : Binding → Int) : Expr → Except Failure Int
  | .ref (.id _ _ (some b) _) | .ref (.member _ _ _ (some b) _ _) => .ok (σ b)
  | .int _ spelling _ => .ok (Text.natOfDigits spelling.toList)
  | .bool _ value _ => .ok (boolWord value)
  | .unary _ op e _ => (evaluate σ e).bind (unaryValue op)
  | .binary op lhs rhs _ => (evaluate σ lhs).bind fun x =>
    if decides op x then .ok x else (evaluate σ rhs).bind (binaryValue op x)
  | _ => .ok 0

/-- The words by which the stack grows at most. -/
def depth : Expr → Nat
  | .unary _ _ e _ => depth e
  | .binary _ lhs rhs _ => max (depth lhs) (depth rhs + 1)
  | _ => 1

/-- Parameters, local variables and static fields. -/
def Env.OnStack (env : Env) : Binding → Prop
  | .param _ | .var _ => True
  | .field id => env.isStatic (some (.field id)) = true
  | .cls _ | .method _ => False

/-- An expression of literals, operators and variables on the stack with the property `V`. -/
inductive Plain (env : Env) (V : Binding → Ty → Prop) : Expr → Prop
  | id (hb : env.OnStack b) (hv : V b t) : Plain env V (.ref (.id span name (some b) t))
  | static (hb : env.OnStack b) (hfield : env.isStatic (some b) = true) (hv : V b t) :
      Plain env V (.ref (.member base span name (some b) false t))
  | int : Plain env V (.int span spelling t)
  | bool : Plain env V (.bool span value t)
  | unary (he : Plain env V e) : Plain env V (.unary span op e t)
  | binary (hl : Plain env V lhs) (hr : Plain env V rhs) : Plain env V (.binary op lhs rhs t)

theorem isWord_boolWord (b : Bool) : IsWord (boolWord b) := by
  cases b <;> decide

theorem isWord_of_exact (h : exact x = .ok w) : IsWord w := by
  unfold exact at h
  split_ifs at h with hx
  exact Except.ok.inj h ▸ hx

theorem boolWord_eq (b : Bool) : boolWord b = 0 ∨ boolWord b = 1 := by
  cases b <;> decide

theorem exists_of_bind_ok {r : Except Failure Int} (h : r.bind f = .ok w) :
    ∃ x, r = .ok x ∧ f x = .ok w := by
  cases r with
  | error => cases h
  | ok x => exact ⟨x, rfl, h⟩

theorem isWord_of_unaryValue (h : unaryValue op x = .ok w) : IsWord w := by
  cases op
  case not => exact Except.ok.inj h ▸ isWord_boolWord _
  all_goals exact isWord_of_exact h

theorem isWord_of_binaryValue (hy : IsWord y) (h : binaryValue op x y = .ok w) : IsWord w := by
  cases op
  case plus | minus | mul => exact isWord_of_exact h
  case div =>
    simp only [binaryValue] at h
    split at h
    · cases h
    · exact isWord_of_exact h
  case and | or | not => exact Except.ok.inj h ▸ hy
  all_goals exact Except.ok.inj h ▸ isWord_boolWord _

theorem depth_pos (he : Plain env V e) : 0 < depth e := by
  induction he with
  | id | static | int | bool => exact Nat.one_pos
  | unary _ ih => exact ih
  | binary => exact Nat.lt_of_lt_of_le (Nat.succ_pos _) (Nat.le_max_right _ _)

/-- A boolean value is one of the two truth values. -/
theorem boolean_of_evaluate {σ : Binding → Int} (he : Plain env V e) (htyp : e.Typed Γ vs .boolean)
    (hV : ∀ b, V b .boolean → σ b = 0 ∨ σ b = 1) (hw : evaluate σ e = .ok w) : w = 0 ∨ w = 1 := by
  induction he generalizing w with
  | @id b t _ _ _ hv | @static b t _ _ _ _ _ hv =>
    cases hw
    exact hV b (htyp.1 ▸ hv)
  | int => cases htyp.2.1
  | bool =>
    cases hw
    exact boolWord_eq _
  | @unary e span op u he ih =>
    obtain ⟨x, -, hx⟩ := exists_of_bind_ok hw
    cases op
    case not => exact Except.ok.inj hx ▸ boolWord_eq _
    all_goals cases htyp.2.1
  | @binary lhs rhs op u hl hr ihl ihr =>
    obtain ⟨x, -, hx⟩ := exists_of_bind_ok hw
    obtain ⟨-, v, -, hrhs, hop⟩ := htyp
    split at hx
    · cases hx
      cases op <;> simp_all [decides]
    · obtain ⟨y, hy, hval⟩ := exists_of_bind_ok hx
      cases op <;> simp only [Operator.Typed] at hop
      case plus | minus | mul | div => cases hop.2
      case and | or =>
        rw [hop.1] at hrhs
        exact Except.ok.inj hval ▸ ihr hrhs hy
      all_goals exact Except.ok.inj hval ▸ boolWord_eq _

end Code

namespace Machine

open Code Exec

/-! ### Machines that have pushed words -/

/-- A machine that runs a program, with its stack below its heap and the addresses of the data store,
the code and the primitive routines in the range of 64 bit integers. -/
structure Ready (a : Assembly) (m : Machine) : Prop extends Bounded m where
  running : m.state = .running
  program_eq : m.program = a.program
  hb_le : m.hb ≤ maxInt64
  addresses : Addresses m.ct m.capacity

/-- Since it was `m`, the machine has pushed words and done nothing else. -/
structure Above (m m' : Machine) : Prop extends SameBelow m.st m m' where
  st_le : m.st ≤ m'.st
  state : m'.state = m.state
  program : m'.program = m.program
  capacity : m'.capacity = m.capacity
  hb : m'.hb = m.hb
  output : m'.output = m.output

/-- The machine has come to `pc` with one more word on the stack. -/
structure Leaves (m : Machine) (pc : Nat) (w : Int) (m' : Machine) : Prop extends Above m m' where
  cp_eq : m'.cp = pc
  st_eq : m'.st = m.st + 1
  top : m'.peek m.st = w

/-- The machine has come to `pc` with the value on top of the stack, or has failed for the reason why
there is none. -/
def Arrived (m : Machine) (pc : Nat) (value : Except Failure Int) (m' : Machine) : Prop :=
  match value with
  | .ok w => Leaves m pc w m'
  | .error why => m'.state = .failed why

/-- The primitive puts the value in the place of `k` words, or fails for the reason why there is
none. -/
def Computes (m : Machine) (q : Prim) (k : Nat) (value : Except Failure Int) : Prop :=
  ∀ ok stop, Ensures (primitive q) m ok stop ↔ match value with
    | .ok w => ok () (m.replaced k w)
    | .error why => stop (.failure why) m

variable {a : Assembly} {l m m₁ m' : Machine} {pc k : Nat} {w x y : Int}

theorem Above.refl (m : Machine) : Above m m :=
  ⟨⟨fun _ _ _ => rfl, rfl, rfl, rfl⟩, Int.le_refl _, rfl, rfl, rfl, rfl, rfl⟩

theorem Above.trans (h : Above l m) (h' : Above m m') : Above l m' where
  words addr h₀ hlt := (h'.words addr h₀ (Int.lt_of_lt_of_le hlt h.st_le)).trans (h.words addr h₀ hlt)
  lb := h'.lb.trans h.lb
  ht := h'.ht.trans h.ht
  ob := h'.ob.trans h.ob
  st_le := Int.le_trans h.st_le h'.st_le
  state := h'.state.trans h.state
  program := h'.program.trans h.program
  capacity := h'.capacity.trans h.capacity
  hb := h'.hb.trans h.hb
  output := h'.output.trans h.output

theorem Above.ready (h : Above m m') (hm : m.Ready a) (hst : m'.st ≤ m.ht) : m'.Ready a where
  st_nonneg := Int.le_trans hm.st_nonneg h.st_le
  st_le := h.ht ▸ hst
  ht_le := h.ht ▸ h.hb ▸ hm.ht_le
  running := h.state.trans hm.running
  program_eq := h.program.trans hm.program_eq
  hb_le := h.hb ▸ hm.hb_le
  addresses := by
    rw [ct, h.program, h.capacity]
    exact hm.addresses

/-- A word takes the place of those that have been pushed. -/
theorem Above.leaves (h : Above m m') (hst : m'.st - k = m.st) (h₀ : 0 ≤ m.st) (hroom : m.st < m.hb)
    (hw : IsWord w) (pc : Nat) : Leaves m pc w ((m'.replaced k w).withCP pc) :=
  { h with
    words := fun addr ha hlt => (m'.peek_poke_of_ne w (by omega) ha (by omega)).trans
      (h.words addr ha hlt)
    cp_eq := rfl
    st_le := by
      show m.st ≤ m'.st - k + 1
      omega
    st_eq := congrArg (· + 1) hst
    hb := (poke_hb m' _ _).trans h.hb
    top := hst ▸ m'.peek_poke_self ⟨by omega, by rw [h.hb]; omega⟩ hw }

theorem Leaves.peek_top (h : Leaves m pc w m') : m'.peek (m'.st - 1) = w := by
  rw [h.st_eq, Int.add_sub_cancel, h.top]

theorem leads_bind {value : Except Failure Int} {f : Int → Except Failure Int}
    (h : m₁.Leads (l.Arrived pc value))
    (hf : ∀ w m₂, value = .ok w → Leaves l pc w m₂ → m₂.Leads (m.Arrived pc' (f w))) :
    m₁.Leads (m.Arrived pc' (value.bind f)) := by
  cases value with
  | error why => exact h
  | ok w => exact h.trans fun m₂ => hf w m₂ rfl

/-! ### Instructions -/

section

variable {op : Opcode} {n d : Int} {r : Reg} (hm : m.Ready a) (hcp : m.cp = pc)

include hm hcp

theorem Ready.leads {Q : Machine → Prop} (hi : a.InstrAt pc (.make op n r d))
    (hx : Ensures (operation op (.make op n r d) (pc + 1)) m
      (fun next m' => ∃ pc' : Nat, next = pc' ∧ pc' < a.program.size ∧ m'.program = m.program ∧
        Q (m'.withCP pc')) fun e m' => Q (m'.stopped e).1) : m.Leads Q := by
  have hget : m.instrAt? m.cp = some (.make op n r d) := by
    rw [instrAt?, hcp, if_neg (by omega), hm.program_eq]
    exact hi.get
  refine leads_step ((step_iff hm.running hget fun r => Q r.1).2 ?_)
  rw [ensures_instruction (Opcode.ofCode?_code op), hcp]
  refine hx.mono ?_ fun _ _ => id
  rintro _ m' ⟨pc', rfl, hlt, hprog, hQ⟩
  have hct : m'.ct = a.program.size := by rw [ct, hprog, hm.program_eq]
  rw [if_pos ⟨by omega, by omega⟩]
  exact hQ

theorem Ready.leads_push (hroom : m.st < m.ht) (hw : IsWord w) (hi : a.InstrAt pc (.make op n r d))
    (hx : ∀ {ok : Int → Machine → Prop} {stop : Stop → Machine → Prop},
      Ensures (operation op (.make op n r d) (pc + 1)) m ok stop ↔
        Ensures (push w) m (fun _ => ok (pc + 1)) stop) : m.Leads (m.Leaves (pc + 1) w) := by
  have hht := hm.ht_le
  refine hm.leads hcp hi (hx.2 ((ensures_push ⟨hm.st_nonneg, hroom, hht⟩ w).2
    ⟨pc + 1, rfl, hi.lt, rfl, ?_⟩))
  have hleav := (Above.refl m).leaves (k := 0) (by simp) hm.st_nonneg (by omega) hw (pc + 1)
  simpa [replaced] using hleav

theorem Ready.leads_literal (hroom : m.st < m.ht) (hw : IsWord w)
    (hi : a.InstrAt pc (.make .loadl 0 .zr w)) : m.Leads (m.Leaves (pc + 1) w) :=
  hm.leads_push hcp hroom hw hi (by
    simp only [operation, ensures_bind, ensures_pure]
    exact Iff.rfl)

theorem Ready.leads_load (hroom : m.st < m.ht) (hin : 0 ≤ m.reg r + d ∧ m.reg r + d < m.st)
    (hi : a.InstrAt pc (.make .load n r d)) :
    m.Leads (m.Leaves (pc + 1) (m.peek (m.reg r + d))) := by
  refine hm.leads_push hcp hroom (m.peek_mem _) hi ?_
  have hht := hm.ht_le
  have hhb := hm.hb_le
  have hwrap : wrap64 (m.reg r + d) = m.reg r + d := wrap64_of_mem (by simp only [minInt64]; omega)
  have heff : Reg.ofCode? (Instr.make .load n r d).r = some r := Reg.ofCode?_code r
  have hdisp : (Instr.make .load n r d).d = d := rfl
  simp only [operation, effective, heff, ensures_bind, ensures_get, ensures_pure, hdisp, hwrap,
    ensures_read (m := m) ⟨hin.1, by omega⟩, implies_true]

theorem Ready.leads_jumpif {target : Nat} (hst : 1 ≤ m.st) (hx : m.peek (m.st - 1) = x)
    (htgt : target < a.program.size) (hi : a.InstrAt pc (.make .jumpif n .cb target)) :
    m.Leads (· = (m.withST (m.st - 1)).withCP (if x = n then target else pc + 1 : Nat)) := by
  have hht := hm.ht_le
  have hlt := hm.st_le
  have hwrap : wrap64 (0 + (target : Int)) = target := by
    have haddrs := hm.addresses
    simp only [Addresses, ct, Prim.count, hm.program_eq] at haddrs
    rw [Int.zero_add]
    exact wrap64_of_mem (by simp only [minInt64]; omega)
  refine hm.leads hcp hi ?_
  have hn : (Instr.make .jumpif n .cb target).n = n := rfl
  rw [operation, ensures_bind, ensures_pop ⟨hst, by omega⟩, hx, hn]
  split_ifs with hxn
  · exact ⟨target, hwrap, htgt, rfl, rfl⟩
  · rw [ensures_pure]
    exact ⟨pc + 1, rfl, hi.lt, rfl, rfl⟩

/-- A primitive takes the words pushed since the machine was `l` for a value. -/
theorem Ready.leads_prim {value : Except Failure Int} {q : Prim} (h : Above l m)
    (hk : m.st - k = l.st) (h₀ : 0 ≤ l.st ∧ l.st < l.hb) (hi : a.InstrAt pc (.ofPrim q))
    (hq : m.Computes q k value) (hw : ∀ w, value = .ok w → IsWord w) :
    m.Leads (l.Arrived (pc + 1) value) := by
  refine hm.leads hcp hi ((ensures_primitive (Int.natCast_nonneg _) hm.addresses q).2
    ((hq _ _).2 ?_))
  cases value with
  | ok w => exact ⟨pc + 1, rfl, hi.lt, rfl, h.leaves hk h₀.1 h₀.2 (hw w rfl) (pc + 1)⟩
  | error why => rfl

omit hcp in
/-- A copy of the word on top of the stack decides a jump. -/
theorem Ready.leads_test {target : Nat} (h : Leaves l pc x m) (h₀ : 0 ≤ l.st) (hroom : m.st < m.ht)
    (hload : a.InstrAt pc (.make .load 1 .st (-1)))
    (hjump : a.InstrAt (pc + 1) (.make .jumpif n .cb target)) (htgt : target < a.program.size) :
    m.Leads (Leaves l (if x = n then target else pc + 2) x) := by
  have hst := h.st_eq
  have hin : 0 ≤ m.st + -1 ∧ m.st + -1 < m.st := by omega
  refine (hm.leads_load h.cp_eq hroom hin hload).trans fun m₁ h₁ => ?_
  have hst₁ := h₁.st_eq
  have hx : m₁.peek (m₁.st - 1) = x := h₁.peek_top.trans h.peek_top
  refine ((h₁.ready hm (by omega)).leads_jumpif h₁.cp_eq (by omega) hx htgt hjump).trans ?_
  rintro _ rfl
  have hpop : m₁.st - 1 = l.st + 1 := by omega
  refine .refl { h.trans h₁.toAbove with cp_eq := rfl, st_eq := hpop, st_le := ?_, top := ?_ }
  · show l.st ≤ m₁.st - 1
    omega
  · exact (h₁.words _ h₀ (by omega)).trans h.top

end

/-! ### Operators -/

variable {op : Operator}

theorem computes_unary (h : 1 ≤ m.st ∧ m.st ≤ m.hb) (hx : m.peek (m.st - 1) = x)
    (hbool : op = .not → x = 0 ∨ x = 1) : m.Computes (unaryPrim op) 1 (unaryValue op x) := by
  have hneg : m.Computes .neg 1 (exact (-x)) := by
    intro ok stop
    rw [ensures_arithmetic (q := .neg) rfl h, if_neg (fun h => by cases h.1), hx]
    unfold exact
    split_ifs <;> rfl
  cases op
  case not =>
    intro ok stop
    rw [unaryPrim, primitive, ensures_unary h, ensures_pure, ensures_setTop_replaced h, hx]
    obtain rfl | rfl := hbool rfl <;> rfl
  all_goals exact hneg

theorem computes_binary (hop : binaryPrim? op = some q) (h : 2 ≤ m.st ∧ m.st ≤ m.hb)
    (hx : m.peek (m.st - 2) = x) (hy : m.peek (m.st - 1) = y)
    (hb : op = .and ∨ op = .or → (x = 0 ∨ x = 1) ∧ (y = 0 ∨ y = 1) ∧ ¬ decides op x) :
    m.Computes q 2 (binaryValue op x y) := by
  intro ok stop
  cases op <;> cases hop
  case plus | minus | mul =>
    rw [ensures_arithmetic rfl h, if_neg (fun h => by cases h.1), hx, hy]
    simp only [binaryValue, exact]
    split_ifs <;> rfl
  case div =>
    rw [ensures_arithmetic rfl h, hx, hy]
    simp only [binaryValue, exact, Prim.divides]
    split_ifs <;> simp_all
  all_goals rw [primitive, Exec.compare, ensures_binary h, ensures_pure, ensures_setTop_next h, hx, hy]
  case and =>
    obtain ⟨rfl | rfl, rfl | rfl, hdec⟩ := hb (.inl rfl) <;> first | rfl | cases hdec rfl
  case or =>
    obtain ⟨rfl | rfl, rfl | rfl, hdec⟩ := hb (.inr rfl) <;> first | rfl | cases hdec rfl
  all_goals rfl

/-! ### Expressions -/

variable {env : Env} {frame : Frame} {σ : Binding → Int} {b : Binding} {e : Expr} {t : Ty}

/-- The variable has a place on the stack with its word, one of the truth values if it is boolean. -/
def Stores (m : Machine) (env : Env) (frame : Frame) (σ : Binding → Int) (b : Binding) (t : Ty) :
    Prop :=
  ∃ v, env.entity? frame b = some v ∧ 0 ≤ m.reg v.base + v.addr ∧ m.reg v.base + v.addr < m.st ∧
    m.peek (m.reg v.base + v.addr) = σ b ∧ (t = .boolean → σ b = 0 ∨ σ b = 1)

theorem Stores.boolean (h : m.Stores env frame σ b .boolean) : σ b = 0 ∨ σ b = 1 := by
  obtain ⟨v, -, -, -, -, hbool⟩ := h
  exact hbool rfl

theorem base_of_onStack {v : Entity} (hb : env.OnStack b) (hv : env.entity? frame b = some v) :
    v.base = .lb ∨ v.base = .sb := by
  cases b with
  | param i =>
    obtain ⟨d, -, rfl⟩ := Option.map_eq_some_iff.1 hv
    exact .inl rfl
  | var d =>
    obtain ⟨offset, -, rfl⟩ := Option.map_eq_some_iff.1 hv
    exact .inl rfl
  | field id =>
    obtain ⟨c, hc, hv⟩ := Option.bind_eq_some_iff.1 hv
    obtain ⟨f, hf, hv⟩ := Option.bind_eq_some_iff.1 hv
    have hstat : f.isStatic = true := by
      simpa [Env.OnStack, Env.isStatic, Package.field?, hc, hf] using hb
    rw [if_pos hstat] at hv
    cases hv
    exact .inr rfl
  | cls | method => exact hb.elim

theorem Ready.leads_var (hm : m.Ready a) (hcp : m.cp = pc) (h : Above l m) (hroom : m.st < m.ht)
    (hb : env.OnStack b) (hstor : l.Stores env frame σ b t) {v : Entity}
    (hv : env.entity? frame b = some v) (hi : a.InstrAt pc (.make .load n v.base v.addr)) :
    m.Leads (m.Arrived (pc + 1) (.ok (σ b))) := by
  obtain ⟨v', hv', h₀, hlt, hword, -⟩ := hstor
  obtain rfl := Option.some.inj (hv'.symm.trans hv)
  have hreg : m.reg v'.base = l.reg v'.base := by
    obtain hbase | hbase := base_of_onStack hb hv <;> rw [hbase]
    · exact h.lb
    · rfl
  rw [← hword, ← h.words _ h₀ hlt, ← hreg]
  have hst := h.st_le
  exact hm.leads_load hcp hroom (by rw [hreg]; omega) hi

/-- The right operand and the operation, with the left operand on the stack. -/
theorem Leaves.leads_binary {r : Except Failure Int} (h : Leaves m pc x m₁)
    (hm : m.Ready a) (hroom : m.st + 2 ≤ m.ht) (hr : m₁.Leads (m₁.Arrived pc' r))
    (hq : binaryPrim? op = some q) (hi : a.InstrAt pc' (.ofPrim q))
    (hb : op = .and ∨ op = .or →
      (x = 0 ∨ x = 1) ∧ (∀ y, r = .ok y → y = 0 ∨ y = 1) ∧ ¬ decides op x) :
    m₁.Leads (m.Arrived (pc' + 1) (r.bind (binaryValue op x))) := by
  refine leads_bind hr fun y m₂ hy h₂ => ?_
  have hnon := hm.st_nonneg
  have hht := hm.ht_le
  have hst := h.st_eq
  have hst₂ := h₂.st_eq
  have h' := h.trans h₂.toAbove
  have hstk : 2 ≤ m₂.st ∧ m₂.st ≤ m₂.hb := by
    rw [h'.hb]
    omega
  have hnext : m₂.peek (m₂.st - 2) = x := by
    rw [show m₂.st - 2 = m.st by omega, h₂.words _ hnon (by omega), h.top]
  refine (h'.ready hm (by omega)).leads_prim h₂.cp_eq h' (by omega) (by omega) hi
    (computes_binary hq hstk hnext h₂.peek_top fun hop => ?_)
    fun w => isWord_of_binaryValue (h₂.peek_top ▸ m₂.peek_mem _)
  obtain ⟨hx, hr, hdec⟩ := hb hop
  exact ⟨hx, hr y hy, hdec⟩

theorem decides_eq (op : Operator) (x : Int) : decides op x = (decidingWord? op == some x) := by
  cases op <;> simp [decides, decidingWord?, falseWord, trueWord, eq_comm]

theorem leads_plain (he : Plain env (l.Stores env frame σ) e) (htyp : e.Typed Γ vs t) (h : Above l m)
    (hm : m.Ready a) (hcp : m.cp = pc) (hc : a.CodeAt pc (ofExpr env frame pc e))
    (hroom : m.st + depth e ≤ m.ht) :
    m.Leads (m.Arrived (pc + (ofExpr env frame pc e).size) (evaluate σ e)) := by
  induction he generalizing t pc m with
  | @id b u span name hb hv =>
    obtain ⟨v, hent, -⟩ := id hv
    rw [ofExpr, ofRef, Env.withEntity, hent] at hc ⊢
    exact hm.leads_var hcp h (Int.add_one_le_iff.1 hroom) hb hv hent hc.one
  | @static b u base span name hb hfld hv =>
    obtain ⟨v, hent, -⟩ := id hv
    have hof : ofExpr env frame pc (.ref (.member base span name (some b) false u)) =
        .one (Ref.member base span name (some b) false u).span.line .load v.size v.base v.addr := by
      simp [ofExpr, ofRef, Env.withEntity, hent, hfld]
    rw [hof] at hc ⊢
    exact hm.leads_var hcp h (Int.add_one_le_iff.1 hroom) hb hv hent hc.one
  | @int span spelling u =>
    have hf : (Text.natOfDigits spelling.toList : Int) ≤ maxWord := by
      simpa [Typing.fitsWord] using htyp.2.2
    rw [ofExpr, ofInt, if_pos hf] at hc ⊢
    refine hm.leads_literal hcp (Int.add_one_le_iff.1 hroom) ⟨?_, hf⟩ hc.one
    simp only [minWord]
    omega
  | @bool span value u =>
    have hof : ofExpr env frame pc (.bool span value u) = literal span.line (boolWord value) := by
      cases value <;> rw [ofExpr] <;> rfl
    rw [hof] at hc ⊢
    exact hm.leads_literal hcp (Int.add_one_le_iff.1 hroom) (isWord_boolWord _) hc.one
  | @unary e span op u he ih =>
    obtain ⟨-, ht, he'⟩ := htyp
    have hpos := depth_pos he
    have hnon := hm.st_nonneg
    have hht := hm.ht_le
    rw [ofExpr] at hc ⊢
    simp only [depth] at hroom
    rw [size_append, size_prim, ← Nat.add_assoc]
    refine leads_bind (ih he' h hm hcp hc.left hroom) fun x m₁ hx h₁ => ?_
    have hst := h₁.st_eq
    have hstk : 1 ≤ m₁.st ∧ m₁.st ≤ m₁.hb := by
      rw [h₁.hb]
      omega
    refine (h₁.ready hm (by omega)).leads_prim h₁.cp_eq h₁.toAbove (by omega) (by omega) hc.right.prim
      (computes_unary hstk h₁.peek_top fun hnot => ?_) fun w => isWord_of_unaryValue
    subst hnot
    rw [ht] at he'
    exact boolean_of_evaluate he he' (fun b => Stores.boolean) hx
  | @binary lhs rhs op u hl hr ihl ihr =>
    obtain ⟨-, v, hlhs, hrhs, hop⟩ := htyp
    obtain ⟨q, hq⟩ := exists_binaryPrim hop
    have hlpos := depth_pos hl
    have hrpos := depth_pos hr
    have hnon := hm.st_nonneg
    have hht := hm.ht_le
    simp only [depth] at hroom
    generalize hline : (lhs.span.merge rhs.span).line = line
    generalize hleft : ofExpr env frame pc lhs = left
    have hright : ∀ {pc x m₁}, evaluate σ lhs = .ok x → decides op x = false → Leaves m pc x m₁ →
        a.CodeAt pc (ofExpr env frame pc rhs) →
        a.CodeAt (pc + (ofExpr env frame pc rhs).size) (prim line q) →
        m₁.Leads (m.Arrived (pc + (ofExpr env frame pc rhs).size + 1)
          ((evaluate σ rhs).bind (binaryValue op x))) := by
      intro pc x m₁ hx hdec h₁ hc hp
      have hst := h₁.st_eq
      have hht₁ := h₁.ht
      have hlead := ihr hrhs (h.trans h₁.toAbove) (h₁.ready hm (by omega)) h₁.cp_eq hc (by omega)
      refine h₁.leads_binary hm (by omega) hlead hq hp.prim fun hbool => ?_
      obtain rfl : v = .boolean := by
        obtain rfl | rfl := hbool <;> exact hop.1
      exact ⟨boolean_of_evaluate hl hlhs (fun b => Stores.boolean) hx,
        fun y => boolean_of_evaluate hr hrhs fun b => Stores.boolean, by simp [hdec]⟩
    rw [evaluate]
    cases hw : decidingWord? op with
    | none =>
      have hof : ofExpr env frame pc (.binary op lhs rhs u) =
          left ++ ofExpr env frame (pc + left.size) rhs ++ prim line q := by
        simp only [ofExpr, hw, hq, hline, hleft]
      rw [hof] at hc ⊢
      have hlead := ihl hlhs h hm hcp (hleft ▸ hc.left.left) (by omega)
      rw [hleft] at hlead
      refine leads_bind hlead fun x m₁ hx h₁ => ?_
      have hdec : decides op x = false := by simp [decides_eq, hw]
      have hp := hc.right
      simp only [hdec, size_append, size_prim, ← Nat.add_assoc] at hp ⊢
      exact hright hx hdec h₁ hc.left.right hp
    | some word =>
      generalize hs : (ofExpr env frame (pc + left.size + 2) rhs).size = size
      have hof : ofExpr env frame pc (.binary op lhs rhs u) = left ++ one line .load 1 .st (-1) ++
          one line .jumpif word .cb ↑(pc + left.size + 2 + size + 1) ++
            ofExpr env frame (pc + left.size + 2) rhs ++ prim line q := by
        simp only [ofExpr, hw, hq, hline, hleft, hs, size_prim]
      rw [hof] at hc ⊢
      have hend := hc.lt
      have hp := hc.right
      have hr := hc.left.right
      have hj := hc.left.left.right
      simp only [size_append, size_one, size_prim, hs, ← Nat.add_assoc] at hend hp hr hj ⊢
      have hlead := ihl hlhs h hm hcp (hleft ▸ hc.left.left.left.left) (by omega)
      rw [hleft] at hlead
      refine leads_bind hlead fun x m₁ hx h₁ => ?_
      have hst := h₁.st_eq
      have hht₁ := h₁.ht
      refine ((h₁.ready hm (by omega)).leads_test h₁ hnon (by omega) hc.left.left.left.right.one hj.one
        (by omega)).trans fun m₂ h₂ => ?_
      rw [show pc + left.size + 1 + 1 = pc + left.size + 2 from rfl] at *
      by_cases hxwor : x = word
      · have hdec : decides op x = true := by rw [decides_eq, hw, hxwor, beq_self_eq_true]
        rw [if_pos hxwor] at h₂
        rw [if_pos hdec]
        exact .refl h₂
      · have hdec : decides op x = false := by
          rw [decides_eq, hw]
          simpa using fun h => hxwor h.symm
        rw [if_neg hxwor] at h₂
        simp only [hdec, Bool.false_eq_true, ↓reduceIte, ← hs]
        exact hright hx hdec h₂ hr (hs ▸ hp)

/-- The code of a well-typed expression of literals, variables on the stack and operators computes its
value.  Take any machine that is ready at the first of its instructions, with a truth value in each of
its boolean variables and room for the words of the expression.  If the expression has a value, the
machine comes to the instruction behind the code with the value on top of the stack, and with the
words below, the frame, the object, the heap top and the output unchanged.  Else it fails for the reason
why there is none. -/
theorem evaluates_plain (hm : m.Ready a) (he : Plain env (m.Stores env frame σ) e)
    (htyped : e.Typed Γ vs t) (hcode : a.CodeAt pc (ofExpr env frame pc e)) (hcp : m.cp = pc)
    (hroom : m.st + depth e ≤ m.ht) :
    (t = .boolean → ∀ w, evaluate σ e = .ok w → w = 0 ∨ w = 1) ∧
      match evaluate σ e with
      | .ok w => m.Leads fun m' => m'.state = .running ∧
          m'.cp = pc + (ofExpr env frame pc e).size ∧ m'.st = m.st + 1 ∧ m'.peek m.st = w ∧
          SameBelow m.st m m' ∧ m'.output = m.output
      | .error why => m.Leads fun m' => m'.state = .failed why := by
  constructor
  · rintro rfl w hw
    exact boolean_of_evaluate he htyped (fun b => Stores.boolean) hw
  · have hleads := leads_plain he htyped (.refl m) hm hcp hcode hroom
    generalize evaluate σ e = value at hleads ⊢
    cases value with
    | error why => exact hleads
    | ok w =>
      refine hleads.trans fun m' h => .refl ⟨h.state.trans hm.running, ?_, h.st_eq, h.top,
        h.toSameBelow, h.output⟩
      rw [h.cp_eq, Int.natCast_add]

def localX : LocalDecl := ⟨⟨"", 0, 0, 0⟩, "x", .int⟩

/-- The expression `x == 0 || 7 / x < 2`. -/
def guarded : Expr :=
  let x : Expr := .ref (.id localX.span "x" (some (.var localX)) .int)
  let int (n : String) : Expr := .int localX.span n .int
  .binary .or (.binary .eq x (int "0") .boolean)
    (.binary .lt (.binary .div (int "7") x .int) (int "2") .boolean) .boolean

def noClasses : Env := ⟨⟨"", [], none, none⟩, false, []⟩

def oneLocal : Frame := ⟨1, [(localX, 0)]⟩

/-- Puts four into the place of `x`, evaluates `guarded` and halts. -/
def guardedProgram : Assembly :=
  ⟨noClasses.package, [], literal 0 4 ++ ofExpr noClasses oneLocal 1 guarded ++ one 0 .halt 0 .zr 0⟩

def loadGuarded (capacity : Int) : Except LoadError Machine :=
  load "p" ⟨guardedProgram.program, none⟩
    { Options.default with dataStore := some 8, capacity := some capacity } .empty .empty

theorem plain_guarded (hlb : m.lb = 0) (hst : m.st = 1) (hpeek : m.peek 0 = 4) :
    Plain noClasses (m.Stores noClasses oneLocal fun _ => 4) guarded := by
  have haddr : m.reg .lb + 0 = 0 := by rw [Int.add_zero, reg, hlb]
  have hx : m.Stores noClasses oneLocal (fun _ => 4) (.var localX) .int :=
    ⟨_, rfl, haddr.ge, haddr.trans_lt (by omega), haddr ▸ hpeek, fun h => by cases h⟩
  exact .binary (.binary (.id trivial hx) .int) (.binary (.binary .int (.id trivial hx)) .int)

/-- Seven divided by four is less than two. -/
theorem evaluates_plain_guarded : ∃ m, loadGuarded 64 = .ok m ∧
    (m.after 1).Leads fun m' => m'.state = .running ∧ m'.st = 2 ∧ m'.peek 1 = 1 := by
  obtain ⟨m, hload, hrun, hcp, hst, hlb, hht, hhb, hct, hcapacity, hpeek, hprogram⟩ : ∃ m,
      loadGuarded 64 = .ok m ∧ (m.after 1).state = .running ∧ (m.after 1).cp = (1 : Nat) ∧
      (m.after 1).st = 1 ∧ (m.after 1).lb = 0 ∧ (m.after 1).ht = 8 ∧ (m.after 1).hb = 8 ∧
      (m.after 1).ct = 13 ∧ (m.after 1).capacity = 64 ∧ (m.after 1).peek 0 = 4 ∧
      (m.after 1).program = guardedProgram.program := ⟨_, rfl, by decide +kernel⟩
  refine ⟨m, hload, ?_⟩
  generalize m.after 1 = n at *
  have hready : n.Ready guardedProgram := ⟨⟨by omega, by omega, by omega⟩, hrun, hprogram,
    by rw [hhb]; decide, by rw [Addresses, hct, hcapacity]; decide⟩
  have hcode : guardedProgram.CodeAt 1 (ofExpr noClasses oneLocal 1 guarded) :=
    ⟨fun k item hk => by
      rw [Nat.add_comm]
      exact (List.getElem?_append_left (List.getElem?_eq_some_iff.1 hk).1).trans hk, by decide +kernel⟩
  have htyped : guarded.Typed ⟨noClasses.package.signature, 0, true, []⟩ [localX] .boolean := by
    have hx : (Ref.id localX.span "x" (some (.var localX)) .int).Typed
        ⟨noClasses.package.signature, 0, true, []⟩ [localX] .int :=
      ⟨rfl, .var localX, rfl, List.mem_singleton_self _, rfl⟩
    have hint : ∀ n ∈ ["0", "2", "7"], Typing.fitsWord n = true := by decide +kernel
    exact ⟨rfl, .boolean, ⟨rfl, .int, hx, ⟨rfl, rfl, hint _ (by simp)⟩, rfl⟩, ⟨rfl, .int,
      ⟨rfl, .int, ⟨rfl, rfl, hint _ (by simp)⟩, hx, rfl, rfl⟩, ⟨rfl, rfl, hint _ (by simp)⟩, rfl, rfl⟩,
      rfl, rfl⟩
  have hleads := (evaluates_plain hready (plain_guarded hlb hst hpeek) htyped hcode hcp
    (by rw [hst, hht]; decide)).2
  rw [show evaluate (fun _ => 4) guarded = .ok 1 by decide +kernel] at hleads
  refine hleads.trans fun m' h => .refl ?_
  obtain ⟨hrun', -, hst', htop, -⟩ := h
  rw [hst] at hst' htop
  exact ⟨hrun', hst', htop⟩

/-- With this capacity there are no addresses for the primitive routines: the comparison of `x` with
zero is not carried out, and the machine never comes to the end of the code. -/
theorem guarded_not_evaluated : ∃ m, loadGuarded maxInt64 = .ok m ∧ (m.after 1).cp = 1 ∧
    (m.after 1).Bounded ∧ Plain noClasses ((m.after 1).Stores noClasses oneLocal fun _ => 4) guarded ∧
    evaluate (fun _ => 4) guarded = .ok 1 ∧
    ∃ addr top, (m.after 4).state = .failed (.codeAddress addr top) := by
  obtain ⟨m, hload, hcp, hst, hlb, hht, hhb, hpeek, hfailed⟩ : ∃ m, loadGuarded maxInt64 = .ok m ∧
      (m.after 1).cp = 1 ∧ (m.after 1).st = 1 ∧ (m.after 1).lb = 0 ∧ (m.after 1).ht = 8 ∧
      (m.after 1).hb = 8 ∧ (m.after 1).peek 0 = 4 ∧
      (m.after 4).state = .failed (.codeAddress (-9223372036854775793) 13) :=
    ⟨_, rfl, by decide +kernel⟩
  exact ⟨m, hload, hcp, ⟨by omega, by omega, by omega⟩, plain_guarded hlb hst hpeek,
    by decide +kernel, _, _, hfailed⟩

end Machine

end MiniJam
