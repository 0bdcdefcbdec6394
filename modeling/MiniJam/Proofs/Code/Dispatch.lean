import MiniJam.Proofs.Code.Sealed

/-!
# The two ways to call a method of an instance

The code of a package calls the methods of instances by their addresses, or through the descriptors
of the classes.  The two codes have the same instructions at the same addresses but for these calls:
`Item.dispatched` gives the call through a descriptor for one by an address
(`Assembly.code_dynamic`).
-/

namespace MiniJam

open List

/-- The item that stands in the place of another one when the methods of instances are called
through the descriptors of the classes. -/
def Item.dispatched (p : Package) (item : Item) : Item :=
  match item.callee.bind fun id => (p.class? id.cls).map fun c => Layout.methodSlot c id.index with
  | some slot =>
    if item.instr.op = Opcode.calli.code then ⟨.make .calld 0 .zr slot, item.line, none⟩ else item
  | none => item

theorem Item.dispatched_eq {item : Item}
    (h : item.callee = none ∨ item.instr.op ≠ Opcode.calli.code) : item.dispatched p = item := by
  unfold Item.dispatched
  obtain h | h := h
  · simp [h]
  · split
    · rw [if_neg h]
    · rfl

theorem Item.dispatched_calli {p : Package} {id : MemberId} {c : ClassDecl}
    (hc : p.class? id.cls = some c) (line : Int) (n : Int) (r : Reg) (d : Int) :
    Item.dispatched p ⟨.make .calli n r d, line, some id⟩ =
      ⟨.make .calld 0 .zr (Layout.methodSlot c id.index), line, none⟩ := by
  simp [Item.dispatched, hc, Instr.make]

namespace Code

variable {p : Package}

/-- Code whose calls of methods of instances go through the descriptors. -/
def dispatched (p : Package) (c : Code) : Code := ⟨c.items.map (Item.dispatched p), c.faults⟩

@[simp] theorem size_dispatched (c : Code) : (c.dispatched p).size = c.size := by
  simp [dispatched, size]

@[simp] theorem dispatched_append (a b : Code) :
    (a ++ b).dispatched p = a.dispatched p ++ b.dispatched p := by
  show (⟨(a.items ++ b.items).map _, a.faults ++ b.faults⟩ : Code) = _
  rw [map_append]
  rfl

@[simp] theorem dispatched_empty : empty.dispatched p = empty := rfl

@[simp] theorem dispatched_one (line : Int) (op : Opcode) (n : Int) (r : Reg) (d : Int) :
    (one line op n r d).dispatched p = one line op n r d := rfl

@[simp] theorem dispatched_literal (line word : Int) :
    (literal line word).dispatched p = literal line word := rfl

@[simp] theorem dispatched_prim (line : Int) (q : Prim) :
    (prim line q).dispatched p = prim line q := rfl

@[simp] theorem dispatched_fault (span : Option Span) (message : String) :
    (fault span message).dispatched p = fault span message := rfl

@[simp] theorem dispatched_call (line : Int) (id : MemberId) :
    (callOf line .call id).dispatched p = callOf line .call id := by
  have hitem : Item.dispatched p ⟨.make .call 0 .cb 0, line, some id⟩ =
      ⟨.make .call 0 .cb 0, line, some id⟩ :=
    Item.dispatched_eq (.inr (show Opcode.call.code ≠ Opcode.calli.code by decide))
  simp [dispatched, callOf, hitem]

@[simp] theorem dispatched_popWords (line : Int) (n : Nat) :
    (popWords line n).dispatched p = popWords line n := by
  unfold popWords
  split <;> rfl

@[simp] theorem dispatched_join (cs : List Code) :
    (join cs).dispatched p = join (cs.map (dispatched p)) := by
  induction cs with
  | nil => rfl
  | cons c cs ih =>
    show (c ++ join cs).dispatched p = c.dispatched p ++ join (cs.map (dispatched p))
    rw [dispatched_append, ih]

/-! ### Expressions -/

section

variable {params : List ParamDecl} {frame : Frame}

theorem isStatic_dynamic (b : Option Binding) :
    Env.isStatic ⟨p, true, params⟩ b = Env.isStatic ⟨p, false, params⟩ b := rfl

theorem withEntity_dynamic {span : Span} {b : Option Binding} {use use' : Entity → Code}
    (h : ∀ e, use' e = (use e).dispatched p) :
    Env.withEntity ⟨p, true, params⟩ frame span b use' =
      (Env.withEntity ⟨p, false, params⟩ frame span b use).dispatched p := by
  cases b with
  | none => rfl
  | some b =>
    have hb : Env.entity? ⟨p, true, params⟩ frame b = Env.entity? ⟨p, false, params⟩ frame b := by
      cases b <;> rfl
    rw [Env.withEntity, Env.withEntity, hb]
    cases Env.entity? ⟨p, false, params⟩ frame b with
    | none => cases b <;> rfl
    | some e => exact h e

@[simp] theorem dispatched_ofInt (span : Span) (spelling : String) :
    (ofInt span spelling).dispatched p = ofInt span spelling := by
  unfold ofInt
  dsimp only
  split <;> rfl

theorem ofInvocation_dynamic {span : Span} {id : MemberId} {receiver : Code}
    (hm : p.method? id = some m) :
    ofInvocation ⟨p, true, params⟩ span id m (receiver.dispatched p) =
      (ofInvocation ⟨p, false, params⟩ span id m receiver).dispatched p := by
  obtain ⟨c, hc, -⟩ := Option.bind_eq_some_iff.1 hm
  unfold ofInvocation
  split
  · rw [dispatched_call]
  · simp only [↓reduceIte, Bool.false_eq_true, hc, dispatched_append]
    congr 1
    simp [dispatched, callOf, one, Item.dispatched_calli hc]

mutual

theorem ofRef_dynamic (pc : Nat) (r : Ref) : ofRef ⟨p, true, params⟩ frame pc r =
    (ofRef ⟨p, false, params⟩ frame pc r).dispatched p := by
  match r with
  | .this .. =>
    rw [ofRef, ofRef, dispatched_one]
  | .id .. =>
    rw [ofRef, ofRef]
    exact withEntity_dynamic fun e => rfl
  | .member base .. =>
    rw [ofRef, ofRef, ofRef_dynamic pc base]
    split
    · simp [dispatched_append, dispatched_literal, dispatched_prim, dispatched_one]
    · refine withEntity_dynamic fun e => ?_
      rw [isStatic_dynamic]
      split
      · rfl
      · simp [dispatched_append, dispatched_literal, dispatched_prim]
  | .elem base index _ =>
    rw [ofRef, ofRef, ofRef_dynamic pc base]
    simp [size_dispatched, ofExpr_dynamic _ index, dispatched_append, dispatched_prim]

theorem ofExpr_dynamic (pc : Nat) (e : Expr) : ofExpr ⟨p, true, params⟩ frame pc e =
    (ofExpr ⟨p, false, params⟩ frame pc e).dispatched p := by
  match e with
  | .ref r =>
    rw [ofExpr, ofExpr, ofRef_dynamic pc r]
  | .int .. =>
    rw [ofExpr, ofExpr, dispatched_ofInt]
  | .bool .. =>
    rw [ofExpr, ofExpr, dispatched_literal]
  | .unary _ _ operand _ =>
    rw [ofExpr, ofExpr, ofExpr_dynamic pc operand, dispatched_append, dispatched_prim]
  | .binary op lhs rhs _ =>
    rw [ofExpr, ofExpr, ofExpr_dynamic pc lhs]
    cases binaryPrim? op <;> cases decidingWord? op <;>
      simp only [size_dispatched, ofExpr_dynamic _ rhs, dispatched_append, dispatched_one,
        dispatched_prim, dispatched_fault]
  | .newObject _ _ bound _ =>
    rw [ofExpr, ofExpr]
    cases bound.bind (Layout.classEntity? p) with
    | none => rfl
    | some e => simp only [dispatched_append, dispatched_one, dispatched_literal, dispatched_prim]
  | .newArray _ _ size _ =>
    rw [ofExpr, ofExpr, ofExpr_dynamic pc size, dispatched_append, dispatched_prim]
  | .call c =>
    rw [ofExpr, ofExpr, ofCall_dynamic pc c]

theorem ofCall_dynamic (pc : Nat) (c : Call) : ofCall ⟨p, true, params⟩ frame pc c =
    (ofCall ⟨p, false, params⟩ frame pc c).dispatched p := by
  match c with
  | .mk method args _ bound _ =>
    cases bound with
    | none =>
      rw [ofCall, ofCall]
      rfl
    | some id =>
      rw [ofCall, ofCall]
      cases hm : p.method? id with
      | none => rfl
      | some m =>
        dsimp only
        split
        · rw [ofArgs_dynamic pc args, dispatched_append, dispatched_prim]
        · rw [ofArgsBackward_dynamic pc args, dispatched_append, size_dispatched,
            ofReceiver_dynamic _ _ method, ofInvocation_dynamic hm]

theorem ofReceiver_dynamic (pc : Nat) (line : Int) (method : Ref) :
    ofReceiver ⟨p, true, params⟩ frame pc line method =
      (ofReceiver ⟨p, false, params⟩ frame pc line method).dispatched p := by
  match method with
  | .member base .. =>
    rw [ofReceiver, ofReceiver, ofRef_dynamic pc base]
    split <;> rfl
  | .id .. | .this .. | .elem .. =>
    rw [ofReceiver, ofReceiver]
    · rfl
    · intros
      contradiction
    · intros
      contradiction

theorem ofArgs_dynamic (pc : Nat) (es : List Expr) : ofArgs ⟨p, true, params⟩ frame pc es =
    (ofArgs ⟨p, false, params⟩ frame pc es).dispatched p := by
  match es with
  | [] =>
    rw [ofArgs, ofArgs, dispatched_empty]
  | e :: es =>
    rw [ofArgs, ofArgs, ofExpr_dynamic pc e]
    simp [size_dispatched, ofArgs_dynamic _ es, dispatched_append]

theorem ofArgsBackward_dynamic (pc : Nat) (es : List Expr) :
    ofArgsBackward ⟨p, true, params⟩ frame pc es =
      (ofArgsBackward ⟨p, false, params⟩ frame pc es).dispatched p := by
  match es with
  | [] =>
    rw [ofArgsBackward, ofArgsBackward, dispatched_empty]
  | e :: es =>
    rw [ofArgsBackward, ofArgsBackward, ofArgsBackward_dynamic pc es]
    simp [size_dispatched, ofExpr_dynamic _ e, dispatched_append]

end

/-! ### Statements -/

theorem ofAssign_dynamic (pc : Nat) (lhs : Ref) (rhs : Expr) :
    ofAssign ⟨p, true, params⟩ frame pc lhs rhs =
      (ofAssign ⟨p, false, params⟩ frame pc lhs rhs).dispatched p := by
  have hsto : ∀ b, Env.withEntity ⟨p, true, params⟩ frame lhs.span b (fun e =>
        ofExpr ⟨p, true, params⟩ frame pc rhs ++
          one (lhs.span.merge rhs.span).line .store e.size e.base e.addr) =
      (Env.withEntity ⟨p, false, params⟩ frame lhs.span b fun e =>
        ofExpr ⟨p, false, params⟩ frame pc rhs ++
          one (lhs.span.merge rhs.span).line .store e.size e.base e.addr).dispatched p := by
    intro b
    refine withEntity_dynamic fun e => ?_
    rw [ofExpr_dynamic, dispatched_append, dispatched_one]
  unfold ofAssign
  cases lhs with
  | this => rfl
  | id => exact hsto _
  | member base _ _ b _ _ =>
    dsimp only
    rw [isStatic_dynamic]
    split
    · exact hsto _
    · refine withEntity_dynamic fun e => ?_
      simp only [ofRef_dynamic pc base, size_append, size_dispatched, ofExpr_dynamic _ rhs,
        dispatched_append, dispatched_literal, dispatched_prim]
  | elem base index _ =>
    simp only [ofRef_dynamic pc base, size_append, size_dispatched, ofExpr_dynamic _ index,
      ofExpr_dynamic _ rhs, dispatched_append, dispatched_prim]

end

section

variable {params : List ParamDecl}

mutual

theorem ofStmt_dynamic (frame : Frame) (pc : Nat) (s : Stmt) : ofStmt ⟨p, true, params⟩ frame pc s =
      ((ofStmt ⟨p, false, params⟩ frame pc s).1.dispatched p,
        (ofStmt ⟨p, false, params⟩ frame pc s).2) := by
  match s with
  | .block _ body =>
    rw [ofStmt, ofStmt, ofStmts_dynamic frame pc body]
    simp [dispatched_append, dispatched_popWords]
  | .decl .. =>
    rw [ofStmt, ofStmt, ofExpr_dynamic]
  | .assign .. =>
    rw [ofStmt, ofStmt, ofAssign_dynamic]
  | .call c =>
    rw [ofStmt, ofStmt, ofCall_dynamic, dispatched_append, dispatched_popWords]
  | .ifThen _ cond body | .loop _ cond body =>
    rw [ofStmt, ofStmt, ofExpr_dynamic pc cond]
    simp [size_dispatched, ofStmt_dynamic frame _ body, dispatched_append, dispatched_one]
  | .ifElse _ cond body other =>
    rw [ofStmt, ofStmt, ofExpr_dynamic pc cond]
    simp only [size_dispatched, ofStmt_dynamic frame _ body, ofStmt_dynamic _ _ other,
      dispatched_append, dispatched_one]

theorem ofStmts_dynamic (frame : Frame) (pc : Nat) (ss : List Stmt) :
    ofStmts ⟨p, true, params⟩ frame pc ss =
      ((ofStmts ⟨p, false, params⟩ frame pc ss).1.dispatched p,
        (ofStmts ⟨p, false, params⟩ frame pc ss).2) := by
  match ss with
  | [] =>
    rw [ofStmts, ofStmts, dispatched_empty]
  | s :: ss =>
    rw [ofStmts, ofStmts, ofStmt_dynamic frame pc s]
    simp [size_dispatched, ofStmts_dynamic _ _ ss, dispatched_append]

end

end

theorem ofMethod_dynamic (pc : Nat) (m : MethodDecl) : ofMethod ⟨p, true, m.params⟩ .start pc m =
      ((ofMethod ⟨p, false, m.params⟩ .start pc m).1.dispatched p,
        (ofMethod ⟨p, false, m.params⟩ .start pc m).2) := by
  unfold ofMethod
  rw [ofStmts_dynamic]
  cases m.result with
  | none => simp only [dispatched_append, dispatched_empty, dispatched_one]
  | some e => simp only [size_dispatched, ofExpr_dynamic, dispatched_append, dispatched_one]

/-! ### Packages -/

/-- A body whose calls of methods of instances go through the descriptors. -/
def Body.dispatched (p : Package) (b : Body) : Body := { b with code := b.code.dispatched p }

/-- A part whose calls of methods of instances go through the descriptors. -/
def Part.dispatched (p : Package) (c : Part) : Part :=
  { c with bodies := c.bodies.map (Body.dispatched p) }

theorem bodies_dynamic (pc : Nat) (ms : List MethodDecl) :
    bodies p true pc ms = (bodies p false pc ms).map (Body.dispatched p) := by
  induction ms generalizing pc with
  | nil => rfl
  | cons m ms ih => simp only [bodies, ofMethod_dynamic, size_dispatched, ih, map_cons,
      Body.dispatched]

theorem code_dispatched (c : Part) : (c.dispatched p).code = c.code.dispatched p := by
  have hmeths : (c.dispatched p).methodCode = c.methodCode.dispatched p := by
    simp only [Part.methodCode, Part.dispatched, dispatched_join, map_map]
    rfl
  have hdesc : (c.dispatched p).descriptorCode = c.descriptorCode.dispatched p := by
    simp only [Part.descriptorCode, Part.dispatched, filter_map, length_map,
      map_map, dispatched_append, dispatched_literal, dispatched_join]
    rfl
  have hsta : (c.dispatched p).descriptorStart = c.descriptorStart := by
    rw [Part.descriptorStart, hmeths, size_dispatched]
    rfl
  simp only [Part.code, hmeths, hdesc, hsta, dispatched_append, dispatched_one]
  rfl

theorem parts_dynamic (cls pc : Nat) (cs : List ClassDecl) :
    parts p true cls pc cs = (parts p false cls pc cs).map (Part.dispatched p) := by
  induction cs generalizing cls pc with
  | nil => rfl
  | cons c cs ih =>
    have hpart : (⟨cls, c, pc, bodies p true (pc + 1) c.methods⟩ : Part) =
        Part.dispatched p ⟨cls, c, pc, bodies p false (pc + 1) c.methods⟩ := by
      rw [Part.dispatched, bodies_dynamic]
    simp only [parts, hpart, code_dispatched, size_dispatched, ih, map_cons]

end Code

namespace Assembly

variable (p : Package) (entry : MemberId)

theorem parts_dynamic : (ofPackage p true entry).parts =
    (ofPackage p false entry).parts.map (Code.Part.dispatched p) :=
  Code.parts_dynamic 0 1 p.classes

theorem code_dynamic : (ofPackage p true entry).code =
    (ofPackage p false entry).code.dispatched p := by
  have hpts := parts_dynamic p entry
  simp only [ofPackage] at hpts ⊢
  simp only [hpts, map_map, Code.dispatched_append, Code.dispatched_one,
    Code.dispatched_join, Code.dispatched_literal, Code.dispatched_call]
  congr 3
  exact map_congr_left fun part _ => Code.code_dispatched part

theorem body?_dynamic (id : MemberId) : (ofPackage p true entry).body? id =
    ((ofPackage p false entry).body? id).map (Code.Body.dispatched p) := by
  simp only [body?, parts_dynamic, getElem?_map]
  cases (ofPackage p false entry).parts[id.cls]? with
  | none => rfl
  | some part => simp [Code.Part.dispatched]

theorem link_dynamic (item : Item) :
    (ofPackage p true entry).link item = (ofPackage p false entry).link item := by
  unfold link
  cases item.callee with
  | none => rfl
  | some id =>
    simp only [Option.bind_some, body?_dynamic]
    cases (ofPackage p false entry).body? id <;> rfl

theorem size_dynamic (dynamic : Bool) :
    (ofPackage p dynamic entry).program.size = (ofPackage p false entry).program.size := by
  cases dynamic with
  | false => rfl
  | true => simp [program, code_dynamic, Code.dispatched]

end Assembly

end MiniJam
