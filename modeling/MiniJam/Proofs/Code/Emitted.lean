import MiniJam.Code.Package
import MiniJam.Tree

/-!
# What code is made of

Code has a few forms of instructions only (`Code.Form`): it takes words from the stack and leaves
words there, it reads and writes words at a distance from a register of the data store, it jumps,
and it calls methods of the package and primitive routines.  Its jumps stay in it:
`Code.Sealed jumps p P pc c` says that nothing is missing in a piece of code at the address `pc`, that
each instruction has one of these forms, and that the jumps, which are those of the kinds `jumps`, lead
to an address of the piece or to the one behind it.
-/

namespace MiniJam

open List Machine

/-! ### The calls in the source -/

mutual

def Ref.calls (r : Ref) : List Call :=
  match r with
  | .this .. | .id .. => []
  | .member base .. => base.calls
  | .elem base index _ => base.calls ++ index.calls

def Expr.calls (e : Expr) : List Call :=
  match e with
  | .ref r => r.calls
  | .int .. | .bool .. | .newObject .. => []
  | .unary _ _ operand _ => operand.calls
  | .binary _ lhs rhs _ => lhs.calls ++ rhs.calls
  | .newArray _ _ size _ => size.calls
  | .call c => c.calls

def Call.calls (c : Call) : List Call :=
  match c with
  | .mk method args close bound type =>
    .mk method args close bound type :: (method.calls ++ Expr.callsOf args)

def Expr.callsOf (es : List Expr) : List Call :=
  match es with
  | [] => []
  | e :: es => e.calls ++ Expr.callsOf es

end

mutual

def Stmt.calls (s : Stmt) : List Call :=
  match s with
  | .block _ body => Stmt.callsOf body
  | .decl _ init => init.calls
  | .assign lhs rhs => lhs.calls ++ rhs.calls
  | .call c => c.calls
  | .ifThen _ cond body | .loop _ cond body => cond.calls ++ body.calls
  | .ifElse _ cond body other => cond.calls ++ body.calls ++ other.calls

def Stmt.callsOf (ss : List Stmt) : List Call :=
  match ss with
  | [] => []
  | s :: ss => s.calls ++ Stmt.callsOf ss

end

def MethodDecl.calls (m : MethodDecl) : List Call :=
  Stmt.callsOf m.body ++ (m.result.map Expr.calls).getD []

namespace Code

@[simp] theorem items_append (a b : Code) : (a ++ b).items = a.items ++ b.items := rfl

@[simp] theorem faults_append (a b : Code) : (a ++ b).faults = a.faults ++ b.faults := rfl

@[simp] theorem size_append (a b : Code) : (a ++ b).size = a.size + b.size := by
  simp [size]

section

variable {line n d : Int} {op : Opcode} {r : Reg}

@[simp] theorem size_one : (one line op n r d).size = 1 := rfl

@[simp] theorem size_literal : (literal line d).size = 1 := rfl

@[simp] theorem size_prim : (prim line q).size = 1 := rfl

@[simp] theorem size_callOf {id : MemberId} : (callOf line op id).size = 1 := rfl

@[simp] theorem size_empty : empty.size = 0 := rfl

end

/-! ### Forms -/

def bases : List Reg := [.cb, .sb, .st, .lb, .ob]

def jumps : List Opcode := [.jump, .jumpif]

/-- The instructions that jump if a condition holds. -/
def branches : List Opcode := [.jumpif]

/-- The forms of an instruction that may jump to the addresses from `lo` to `hi`; `js` are the kinds
of jumps, and `P` says which methods of the package may be called, by the line of the call. -/
inductive Form (js : List Opcode) (p : Package) (P : MemberId → Int → Prop) (lo hi : Nat) : Item → Prop
  | stack {line n d : Int} {op : Opcode}
    (hop : op ∈ [.loadl, .loadi, .calld, .ret, .push, .pop, .halt]) :
    Form js p P lo hi ⟨.make op n .zr d, line, none⟩
  /-- The use of a word at a distance from a register. -/
  | access {line n d : Int} {op : Opcode} {r : Reg} (hop : op ∈ [.load, .loada, .store])
    (hr : r ∈ bases) : Form js p P lo hi ⟨.make op n r d, line, none⟩
  | jump {line n : Int} {op : Opcode} {y : Nat} (hop : op ∈ js)
    (hy : lo ≤ y ∧ y ≤ hi) : Form js p P lo hi ⟨.make op n .cb y, line, none⟩
  | prim {line : Int} (q : Prim) : Form js p P lo hi ⟨.ofPrim q, line, none⟩
  | call {line : Int} {op : Opcode} {id : MemberId} {m : MethodDecl} (hop : op ∈ [.call, .calli])
    (hid : P id line) (hm : p.method? id = some m) (hstatic : op = .calli → m.isStatic = false) :
    Form js p P lo hi ⟨.make op 0 .cb 0, line, some id⟩

/-- Nothing is missing in the code, and it has instructions of the known forms, which may jump to the
addresses from `lo` to `hi`. -/
structure Emits (js : List Opcode) (p : Package) (P : MemberId → Int → Prop) (lo hi : Nat) (c : Code) :
    Prop where
  faults : c.faults = []
  forms : ∀ item ∈ c.items, Form js p P lo hi item

/-- Nothing is missing in the code at the address `pc`, it has instructions of the known forms, and its
jumps stay in it. -/
def Sealed (js : List Opcode) (p : Package) (P : MemberId → Int → Prop) (pc : Nat) (c : Code) : Prop :=
  Emits js p P pc (pc + c.size) c

def Allows (P : MemberId → Int → Prop) (cs : List Call) : Prop :=
  ∀ c ∈ cs, ∀ id, c.bound = some id → P id c.span.line

theorem allows_all (cs : List Call) : Allows (fun _ _ => True) cs := fun _ _ _ _ => trivial

variable {js : List Opcode} {p : Package} {P : MemberId → Int → Prop} {lo hi lo' hi' pc : Nat}
  {a b : Code} {item : Item} {line : Int}

theorem Form.callee (h : Form js p P lo hi item) {id : MemberId} (hid : item.callee = some id) :
    P id item.line ∧ ∃ m op, p.method? id = some m ∧ item.instr = .make op 0 .cb 0 ∧
      (op = .calli → m.isStatic = false) := by
  cases h with
  | stack | access | jump | prim => cases hid
  | call _ hline hm hstat =>
    cases hid
    exact ⟨hline, _, _, hm, rfl, hstat⟩

theorem Form.mono (h : Form js p P lo hi item) (hlo : lo' ≤ lo) (hhi : hi ≤ hi') :
    Form js p P lo' hi' item := by
  cases h with
  | stack hop => exact .stack hop
  | access hop hr => exact .access hop hr
  | jump hop hy => exact .jump hop ⟨Nat.le_trans hlo hy.1, Nat.le_trans hy.2 hhi⟩
  | prim q => exact .prim q
  | call hop hid hm hstat => exact .call hop hid hm hstat

theorem Emits.mono (h : Emits js p P lo hi a) (hlo : lo' ≤ lo) (hhi : hi ≤ hi') :
    Emits js p P lo' hi' a :=
  ⟨h.faults, fun item hitem => (h.forms item hitem).mono hlo hhi⟩

/-- Code that jumps only if a condition holds. -/
theorem Sealed.weaken (h : Sealed branches p P pc a) : Sealed jumps p P pc a := by
  refine ⟨h.faults, fun item hitem => ?_⟩
  cases h.forms item hitem with
  | stack hop => exact .stack hop
  | access hop hr => exact .access hop hr
  | jump hop hy => exact .jump (mem_cons_of_mem _ hop) hy
  | prim q => exact .prim q
  | call hop hid hm hstat => exact .call hop hid hm hstat

theorem emits_empty : Emits js p P lo hi empty := ⟨rfl, forall_mem_nil _⟩

theorem Emits.append (ha : Emits js p P lo hi a) (hb : Emits js p P lo hi b) :
    Emits js p P lo hi (a ++ b) where
  faults := by rw [faults_append, ha.faults, hb.faults, append_nil]
  forms := forall_mem_append.2 ⟨ha.forms, hb.forms⟩

theorem emits_join (h : ∀ c ∈ cs, Emits js p P lo hi c) : Emits js p P lo hi (join cs) := by
  induction cs with
  | nil => exact emits_empty
  | cons c cs ih => exact (h c mem_cons_self).append (ih fun c hc => h c (mem_cons_of_mem _ hc))

theorem emits_item (h : Form js p P lo hi item) : Emits js p P lo hi ⟨[item], []⟩ :=
  ⟨rfl, forall_mem_singleton.2 h⟩

theorem emits_literal (word : Int) : Emits js p P lo hi (literal line word) :=
  emits_item (.stack (by decide))

theorem emits_prim (q : Prim) : Emits js p P lo hi (prim line q) := emits_item (.prim q)

theorem emits_popWords (k : Nat) : Emits js p P lo hi (popWords line k) := by
  unfold popWords
  split
  · exact emits_empty
  · exact emits_item (.stack (by decide))

theorem Sealed.append (ha : Sealed js p P pc a) (hb : Sealed js p P (pc + a.size) b) :
    Sealed js p P pc (a ++ b) := by
  have hsize : pc + (a ++ b).size = pc + a.size + b.size := by rw [size_append, Nat.add_assoc]
  unfold Sealed
  rw [hsize]
  exact (ha.mono (Nat.le_refl _) (Nat.le_add_right _ _)).append
    (hb.mono (Nat.le_add_right _ _) (Nat.le_refl _))

/-! ### Jumps in code -/

theorem sealed_decides {left right operation : Code} {word : Int} (hleft : Sealed branches p P pc left)
    (hrt : Sealed branches p P (pc + left.size + 2) right) (hop : ∀ pc, Sealed branches p P pc operation) :
    Sealed branches p P pc (left ++ one line .load 1 .st (-1) ++
      one line .jumpif word .cb (pc + left.size + 2 + right.size + operation.size : Nat) ++ right ++
      operation) := by
  unfold Sealed
  simp only [size_append, size_one]
  refine ((((hleft.mono ?_ ?_).append (emits_item (.access (by decide) (by decide)))).append
    (emits_item (.jump (by decide) ?_))).append (hrt.mono ?_ ?_)).append
      ((hop (pc + left.size + 2 + right.size)).mono ?_ ?_)
  all_goals omega

variable {test code other : Code}

theorem sealed_ifThen (htest : Sealed jumps p P pc test) (hcode : Sealed jumps p P (pc + test.size + 1) code) :
    Sealed jumps p P pc (test ++ one line .jumpif falseWord .cb (pc + test.size + 1 + code.size : Nat) ++
      code) := by
  unfold Sealed
  simp only [size_append, size_one]
  refine ((htest.mono ?_ ?_).append (emits_item (.jump (by decide) ?_))).append (hcode.mono ?_ ?_)
  all_goals omega

theorem sealed_ifElse {start : Nat} (hsta : start = pc + test.size + 1 + code.size + 1)
    (htest : Sealed jumps p P pc test) (hcode : Sealed jumps p P (pc + test.size + 1) code)
    (hoth : Sealed jumps p P start other) :
    Sealed jumps p P pc (test ++ one line .jumpif falseWord .cb start ++ code ++
      one line .jump 0 .cb (start + other.size : Nat) ++ other) := by
  unfold Sealed
  simp only [size_append, size_one]
  refine ((((htest.mono ?_ ?_).append (emits_item (.jump (by decide) ?_))).append
    (hcode.mono ?_ ?_)).append (emits_item (.jump (by decide) ?_))).append (hoth.mono ?_ ?_)
  all_goals omega

theorem sealed_loop (htest : Sealed jumps p P pc test) (hcode : Sealed jumps p P (pc + test.size + 1) code) :
    Sealed jumps p P pc (test ++ one line .jumpif falseWord .cb
      (pc + test.size + 1 + code.size + 1 : Nat) ++ code ++ one line .jump 0 .cb pc) := by
  unfold Sealed
  simp only [size_append, size_one]
  refine (((htest.mono ?_ ?_).append (emits_item (.jump (by decide) ?_))).append
    (hcode.mono ?_ ?_)).append (emits_item (.jump (by decide) ?_))
  all_goals omega

theorem sealed_part (part : Part) (h : Sealed jumps p P (part.start + 1) part.methodCode) :
    Sealed jumps p P part.start part.code := by
  have hsize : part.start + part.code.size =
      part.start + 1 + part.methodCode.size + part.descriptorCode.size := by
    simp only [Part.code, size_append, size_one]
    omega
  have hsta : part.descriptorStart = part.start + 1 + part.methodCode.size := rfl
  have hdesc : ∀ {lo hi : Nat}, Emits jumps p P lo hi part.descriptorCode := by
    refine Emits.append (((emits_literal _).append (emits_literal _)).append (emits_literal _))
      (emits_join fun c hc => ?_)
    obtain ⟨b, -, rfl⟩ := mem_map.1 hc
    exact emits_literal _
  refine Emits.append (Emits.append (emits_item (.jump (by decide) ?_)) (h.mono ?_ ?_)) hdesc
  all_goals omega

end Code

end MiniJam
