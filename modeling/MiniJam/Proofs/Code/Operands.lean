import MiniJam.Proofs.Code.Heights

/-!
# Operands

An operand is an expression whose value is needed: by an operator, as an argument, an index, the size
of an array, the first value of a variable, a condition, or a value that is assigned or returned.
`Code.operandsOfMethod` lists the operands of a method, each with the place of its code.

Every operand of a checked package has a value, for which one word is left on the stack, except for
those of `==` and `!=`: both of them may be calls without a result.
`Package.operands_have_values` says so, and that a method leaves exactly one word for each of its
operands if it has no such comparison.
-/

namespace MiniJam

open List

/-- What the value of an expression is needed for. -/
inductive Role where
  | operator
  | compared (other : Expr)
  | argument
  | index
  | size
  /-- The first value of a variable. -/
  | initialiser
  | condition
  | assigned
  | returned

def Role.beside (op : Operator) (other : Expr) : Role :=
  if op = .eq ∨ op = .ne then .compared other else .operator

/-- An expression whose value is needed. -/
structure Operand where
  role : Role
  expr : Expr
  /-- The frame and the address for which its code is made.  There is none for what stands in front
  of a static member, which is not evaluated. -/
  place : Option (Code.Frame × Nat)

namespace Operand

def unplaced (x : Operand) : Operand := { x with place := none }

def IsValue (x : Operand) : Prop := x.expr.type.IsValue ∧ x.expr.type.size = 1

/-- The operand has a value, unless it is compared: then it is like the other operand, and both may
have none. -/
structure Checked (x : Operand) : Prop where
  value : x.IsValue ∨ ∃ other, x.role = .compared other ∧ x.expr.type = .void
  like : ∀ other, x.role = .compared other → x.expr.type = other.type

end Operand

namespace Code

/-! ### The operands of a method -/

section

variable (env : Env) (frame : Frame)

mutual

/-- The operands in a reference whose code stands at the address `pc`. -/
def operandsOfRef (pc : Nat) (r : Ref) : List Operand :=
  match r with
  | .this .. | .id .. => []
  | .member base _ _ b isLength _ =>
    if isLength = false ∧ env.isStatic b = true then (operandsOfRef pc base).map Operand.unplaced
    else operandsOfRef pc base
  | .elem base index _ =>
    let start := pc + (ofRef env frame pc base).size
    operandsOfRef pc base ++ ⟨.index, index, some (frame, start)⟩ :: operandsOfExpr start index

/-- The operands in an expression whose code stands at the address `pc`. -/
def operandsOfExpr (pc : Nat) (e : Expr) : List Operand :=
  match e with
  | .ref r => operandsOfRef pc r
  | .int .. | .bool .. | .newObject .. => []
  | .unary _ _ operand _ => ⟨.operator, operand, some (frame, pc)⟩ :: operandsOfExpr pc operand
  | .binary op lhs rhs _ =>
    let start := pc + (ofExpr env frame pc lhs).size + (if (decidingWord? op).isSome then 2 else 0)
    ⟨.beside op rhs, lhs, some (frame, pc)⟩ :: operandsOfExpr pc lhs ++
      ⟨.beside op lhs, rhs, some (frame, start)⟩ :: operandsOfExpr start rhs
  | .newArray _ _ size _ => ⟨.size, size, some (frame, pc)⟩ :: operandsOfExpr pc size
  | .call c => operandsOfCall pc c

/-- The operands in a call whose code stands at the address `pc`. -/
def operandsOfCall (pc : Nat) (c : Call) : List Operand :=
  match c with
  | .mk method args _ bound _ =>
    if env.package.println = bound then
      operandsOfArgs pc args ++ (operandsOfReceiver pc method).map Operand.unplaced
    else
      let receiver := operandsOfReceiver (pc + (ofArgsBackward env frame pc args).size) method
      operandsOfArgsBackward pc args ++
        if (bound.bind env.package.method?).any (·.isStatic) then receiver.map Operand.unplaced
        else receiver

/-- The operands in the instance that a method is called on, with its code at the address `pc`.  An
element of an array is no method, and there is no code for it. -/
def operandsOfReceiver (pc : Nat) (method : Ref) : List Operand :=
  match method with
  | .this .. | .id .. => []
  | .member base .. => operandsOfRef pc base
  | .elem base index _ =>
    (operandsOfRef pc base ++ ⟨.index, index, none⟩ :: operandsOfExpr pc index).map Operand.unplaced

/-- Arguments and the operands in them, with their code from the address `pc` on. -/
def operandsOfArgs (pc : Nat) (es : List Expr) : List Operand :=
  match es with
  | [] => []
  | e :: es =>
    ⟨.argument, e, some (frame, pc)⟩ :: operandsOfExpr pc e ++
      operandsOfArgs (pc + (ofExpr env frame pc e).size) es

/-- Arguments and the operands in them, with the code of the last one first. -/
def operandsOfArgsBackward (pc : Nat) (es : List Expr) : List Operand :=
  match es with
  | [] => []
  | e :: es =>
    let start := pc + (ofArgsBackward env frame pc es).size
    operandsOfArgsBackward pc es ++ ⟨.argument, e, some (frame, start)⟩ :: operandsOfExpr start e

end

/-- An expression whose value is needed and the operands in it, with its code at the address `pc`. -/
def operandsOfUse (role : Role) (pc : Nat) (e : Expr) : List Operand :=
  ⟨role, e, some (frame, pc)⟩ :: operandsOfExpr env frame pc e

/-- The address of the code of the value in an assignment at the address `pc`. -/
def assignedAt (pc : Nat) (lhs : Ref) : Nat :=
  match lhs with
  | .this .. | .id .. => pc
  | .member base _ _ b _ _ =>
    if env.isStatic b || isDirect lhs then pc else pc + (ofRef env frame pc base).size + 1
  | .elem base index _ =>
    let start := pc + (ofRef env frame pc base).size
    start + (ofExpr env frame start index).size

end

variable (env : Env)

mutual

/-- The operands in a statement whose code stands at the address `pc`. -/
def operandsOfStmt (frame : Frame) (pc : Nat) (s : Stmt) : List Operand :=
  match s with
  | .block _ body => operandsOfStmts frame pc body
  | .decl d init => operandsOfUse env (frame.declare d) .initialiser pc init
  | .assign lhs rhs =>
    operandsOfRef env frame pc lhs ++
      operandsOfUse env frame .assigned (assignedAt env frame pc lhs) rhs
  | .call c => operandsOfCall env frame pc c
  | .ifThen _ cond body | .loop _ cond body =>
    operandsOfUse env frame .condition pc cond ++
      operandsOfStmt frame (pc + (ofExpr env frame pc cond).size + 1) body
  | .ifElse _ cond body other =>
    let start := pc + (ofExpr env frame pc cond).size + 1
    let (code, middle) := ofStmt env frame start body
    operandsOfUse env frame .condition pc cond ++ operandsOfStmt frame start body ++
      operandsOfStmt middle (start + code.size + 1) other

/-- The operands in statements whose code stands at the address `pc`. -/
def operandsOfStmts (frame : Frame) (pc : Nat) (ss : List Stmt) : List Operand :=
  match ss with
  | [] => []
  | s :: ss =>
    let (code, after) := ofStmt env frame pc s
    operandsOfStmt frame pc s ++ operandsOfStmts after (pc + code.size) ss

end

/-- The operands in a method whose code stands at the address `pc`. -/
def operandsOfMethod (pc : Nat) (m : MethodDecl) : List Operand :=
  let (body, after) := ofStmts env .start pc m.body
  operandsOfStmts env .start pc m.body ++
    (m.result.map (operandsOfUse env after .returned (pc + body.size))).getD []

/-! ### Pieces of code -/

/-- The code `piece` is a part of `code`, which starts at the address `pc`; it starts at `addr`. -/
def Within (pc : Nat) (code : Code) (addr : Nat) (piece : Code) : Prop :=
  ∃ front back, code.items = front ++ piece.items ++ back ∧ addr = pc + front.length

section

variable {pc addr : Nat} {a b piece : Code}

theorem Within.left (h : Within pc a addr piece) (b : Code) : Within pc (a ++ b) addr piece := by
  obtain ⟨front, back, hits, haddr⟩ := h
  exact ⟨front, back ++ b.items, by simp [items_append, hits], haddr⟩

theorem Within.right (h : Within (pc + a.size) b addr piece) : Within pc (a ++ b) addr piece := by
  obtain ⟨front, back, hits, haddr⟩ := h
  refine ⟨a.items ++ front, back, by simp [items_append, hits], ?_⟩
  rw [haddr, length_append, size, Nat.add_assoc]

theorem Within.le (h : Within pc a addr piece) : pc ≤ addr ∧ addr + piece.size ≤ pc + a.size := by
  obtain ⟨front, back, hits, rfl⟩ := h
  simp only [size, hits, length_append]
  omega

end

/-! ### Well-typed operands -/

/-- The operand is well typed and its code is a part of `code`, which starts at the address `pc`. -/
structure Stands (env : Env) (Γ : Site) (pc : Nat) (code : Code) (x : Operand) : Prop where
  checked : x.Checked
  placed : ∀ frame addr, x.place = some (frame, addr) → ∃ vs t, env.Flows Γ frame vs ∧
    x.expr.Typed Γ vs t ∧ Within pc code addr (ofExpr env frame addr x.expr)

/-- The operands stand in `code`; `v` says whether all of them have a value, and then no call without a
result is compared in them. -/
structure AllStand (env : Env) (Γ : Site) (pc : Nat) (code : Code) (v : Bool) (xs : List Operand) :
    Prop where
  each : ∀ x ∈ xs, Stands env Γ pc code x
  values : v = true ↔ ∀ x ∈ xs, x.IsValue
  deep : v = true → ∀ x ∈ xs, x.expr.comparesValues = true

section

variable {env} {Γ : Site} {frame : Frame} {vs : List LocalDecl} {pc start : Nat} {a b : Code}
  {x : Operand} {xs ys : List Operand} {e other : Expr} {op : Operator} {place : Option (Frame × Nat)} {u t : Ty}

theorem Stands.left (h : Stands env Γ pc a x) (b : Code) : Stands env Γ pc (a ++ b) x where
  checked := h.checked
  placed frame addr hpl := by
    obtain ⟨vs, t, hflow, htyp, hwin⟩ := h.placed frame addr hpl
    exact ⟨vs, t, hflow, htyp, hwin.left b⟩

theorem Stands.right (h : Stands env Γ start b x) (hsta : start = pc + a.size) :
    Stands env Γ pc (a ++ b) x where
  checked := h.checked
  placed frame addr hpl := by
    obtain ⟨vs, t, hflow, htyp, hwin⟩ := h.placed frame addr hpl
    exact ⟨vs, t, hflow, htyp, (hsta ▸ hwin).right⟩

theorem stands_nil : AllStand env Γ pc a true [] :=
  ⟨forall_mem_nil _, iff_of_true rfl (forall_mem_nil _), fun _ => forall_mem_nil _⟩

theorem AllStand.left (h : AllStand env Γ pc a v xs) (b : Code) : AllStand env Γ pc (a ++ b) v xs :=
  { h with each := fun x hx => (h.each x hx).left b }

theorem AllStand.right (h : AllStand env Γ start b v xs) (hsta : start = pc + a.size) :
    AllStand env Γ pc (a ++ b) v xs := { h with each := fun x hx => (h.each x hx).right hsta }

theorem AllStand.append (h : AllStand env Γ pc a v xs) (h' : AllStand env Γ pc a w ys) :
    AllStand env Γ pc a (v && w) (xs ++ ys) where
  each := forall_mem_append.2 ⟨h.each, h'.each⟩
  values := by rw [Bool.and_eq_true, forall_mem_append, h.values, h'.values]
  deep hvw := by
    rw [Bool.and_eq_true] at hvw
    exact forall_mem_append.2 ⟨h.deep hvw.1, h'.deep hvw.2⟩

theorem AllStand.unplaced (h : AllStand env Γ pc a v xs) :
    AllStand env Γ start b v (xs.map Operand.unplaced) where
  each := forall_mem_map.2 fun x hx =>
    { checked := ⟨(h.each x hx).checked.value, (h.each x hx).checked.like⟩
      placed _ _ hpl := by cases hpl }
  values := by
    rw [h.values, forall_mem_map]
    rfl
  deep hv := forall_mem_map.2 (h.deep hv)

variable {role : Role}

theorem isValue_iff (he : e.Typed Γ vs t) :
    Operand.IsValue ⟨role, e, place⟩ ↔ t.IsValue := by
  rw [Operand.IsValue, he.type_eq, and_iff_left_of_imp (·.size)]

theorem checked_use (hrole : ∀ other, role ≠ .compared other)
    (he : e.Typed Γ vs t) (ht : t.IsValue) : Operand.Checked ⟨role, e, place⟩ where
  value := .inl ((isValue_iff he).2 ht)
  like other h := absurd h (hrole other)

theorem checked_beside (hop : op.Typed u t) (hu : u.IsMember) (he : e.Typed Γ vs u)
    (hoth : other.Typed Γ vs u) : Operand.Checked ⟨.beside op other, e, place⟩ ∧
      ((op ≠ .eq ∧ op ≠ .ne) ∨ u ≠ .void ↔ u.IsValue) := by
  have hval : u ≠ .void ↔ u.IsValue := ⟨hu.resolve_left, (·.ne_void)⟩
  by_cases hcom : op = .eq ∨ op = .ne
  · have hr : Role.beside op other = .compared other := if_pos hcom
    rw [hr]
    refine ⟨⟨?_, fun other' h => ?_⟩, (or_iff_right (by tauto)).trans hval⟩
    · obtain rfl | hval := hu
      · exact .inr ⟨other, rfl, he.type_eq⟩
      · exact .inl ((isValue_iff he).2 hval)
    · cases h
      exact he.type_eq.trans hoth.type_eq.symm
  · have hr : Role.beside op other = .operator := if_neg hcom
    have hval : u.IsValue := by
      -- Every other operator has a type for its operands.
      cases op <;> simp_all [Operator.Typed, Ty.IsValue]
    rw [hr]
    exact ⟨checked_use (by simp) he hval, iff_of_true (.inl (by tauto)) hval⟩

theorem stands_at (h : env.Flows Γ frame vs) (he : e.Typed Γ vs t)
    (hchk : Operand.Checked ⟨role, e, some (frame, pc)⟩) (hw : w = true ↔ t.IsValue)
    (hxs : AllStand env Γ pc (ofExpr env frame pc e) e.comparesValues xs) :
    AllStand env Γ pc (ofExpr env frame pc e) (w && e.comparesValues)
      (⟨role, e, some (frame, pc)⟩ :: xs) where
  each := by
    refine forall_mem_cons.2 ⟨⟨hchk, fun frame' addr hpl => ?_⟩, hxs.each⟩
    cases hpl
    exact ⟨vs, t, h, he, [], [], by simp, rfl⟩
  values := by rw [Bool.and_eq_true, forall_mem_cons, isValue_iff he, hw, hxs.values]
  deep hv := by
    rw [Bool.and_eq_true] at hv
    exact forall_mem_cons.2 ⟨hv.2, hxs.deep hv.2⟩

theorem stands_cons (h : env.Flows Γ frame vs) (hrole : ∀ other, role ≠ .compared other)
    (he : e.Typed Γ vs t) (ht : t.IsValue)
    (hxs : AllStand env Γ pc (ofExpr env frame pc e) e.comparesValues xs) :
    AllStand env Γ pc (ofExpr env frame pc e) e.comparesValues
      (⟨role, e, some (frame, pc)⟩ :: xs) :=
  stands_at (w := true) h he (checked_use hrole he ht) (iff_of_true rfl ht) hxs

theorem Env.Flows.isMember_expr (h : env.Flows Γ frame vs) (he : e.Typed Γ vs t) : t.IsMember := by
  cases e with
  | ref r => exact .inr (h.proper.isValue h.typed (by simpa only [Expr.Typed] using he))
  | call c => exact h.isMember (by simpa only [Expr.Typed] using he)
  | int | newObject =>
    obtain ⟨-, rfl, -⟩ := he
    exact .inr trivial
  | bool =>
    obtain ⟨-, rfl⟩ := he
    exact .inr trivial
  | unary _ op =>
    obtain ⟨-, rfl, -⟩ := he
    cases op <;> exact .inr trivial
  | binary op =>
    obtain ⟨-, u, -, -, hop⟩ := he
    exact hop.isMember
  | newArray => exact .inr he.2.2.1

section

variable (h : env.Flows Γ frame vs)

include h

mutual

theorem stands_ofRef (r : Ref) {t : Ty} (hr : r.Typed Γ vs t) (pc : Nat) :
    AllStand env Γ pc (ofRef env frame pc r) r.comparesValues (operandsOfRef env frame pc r) := by
  match r with
  | .this .. | .id .. => exact stands_nil
  | .member base s name b isLength u =>
    obtain ⟨-, hr⟩ := hr
    rw [operandsOfRef, ofRef, Ref.comparesValues]
    cases isLength with
    | true =>
      obtain ⟨-, elem, hb⟩ := hr
      simp only [Bool.true_eq_false, false_and, ↓reduceIte]
      exact (((stands_ofRef base hb pc).left _).left _).left _
    | false =>
      obtain ⟨id, f, rfl, hf, -, hb⟩ := hr
      obtain ⟨e, he⟩ : ∃ e, env.entity? frame (.field id) = some e := exists_fieldEntity h.at_site hf
      simp only [isStatic_field h.at_site hf, Env.withEntity, he, true_and, Bool.false_eq_true,
        ↓reduceIte]
      obtain ⟨hstat, span, name, i, u, rfl⟩ | ⟨n, -, hb⟩ := hb
      · simp only [hstat, operandsOfRef, ↓reduceIte]
        exact stands_nil
      have hopd := stands_ofRef base hb pc
      by_cases hstat : f.isStatic = true
      · rw [if_pos hstat]
        exact hopd.unplaced
      · rw [if_neg hstat]
        cases base with
        | this => exact stands_nil
        | id | member | elem =>
          simp only [hstat, isDirect, Bool.or_self, Bool.false_eq_true, ↓reduceIte]
          exact (hopd.left _).left _
  | .elem base index _ =>
    obtain ⟨-, hb, hidx⟩ := hr
    rw [operandsOfRef, ofRef, Ref.comparesValues]
    exact (((stands_ofRef base hb pc).left _).append
      ((stands_cons h (by simp) hidx trivial (stands_ofExpr index hidx _)).right rfl)).left _

theorem stands_ofExpr (e : Expr) {t : Ty} (he : e.Typed Γ vs t) (pc : Nat) :
    AllStand env Γ pc (ofExpr env frame pc e) e.comparesValues (operandsOfExpr env frame pc e) := by
  match e with
  | .ref r =>
    rw [operandsOfExpr, ofExpr, Expr.comparesValues]
    exact stands_ofRef r he pc
  | .int .. | .bool .. | .newObject .. => exact stands_nil
  | .unary _ op operand _ =>
    obtain ⟨-, rfl, he⟩ := he
    have hval : (Typing.unaryType op).IsValue := by cases op <;> trivial
    rw [operandsOfExpr, ofExpr, Expr.comparesValues]
    exact (stands_cons h (by simp) he hval (stands_ofExpr operand he pc)).left _
  | .binary op lhs rhs _ =>
    obtain ⟨-, u, hlhs, hrhs, hop⟩ := he
    have hu := h.isMember_expr hlhs
    rw [operandsOfExpr, ofExpr, Expr.comparesValues, hlhs.type_eq, hrhs.type_eq]
    generalize hw : decide ((op ≠ .eq ∧ op ≠ .ne) ∨ (u ≠ .void ∧ u ≠ .void)) = w
    obtain ⟨hchk, hval⟩ := checked_beside hop hu hlhs hrhs
    have hw : w = true ↔ u.IsValue := by rw [← hw, decide_eq_true_eq, and_self, hval]
    have hl := stands_at h hlhs hchk hw (stands_ofExpr lhs hlhs pc)
    have hrt := fun start =>
      stands_at h hrhs (checked_beside hop hu hrhs hlhs).1 hw (stands_ofExpr rhs hrhs start)
    rw [show (w && lhs.comparesValues && rhs.comparesValues) =
      (w && lhs.comparesValues && (w && rhs.comparesValues)) by cases w <;> simp]
    cases hword : decidingWord? op with
    | none => exact ((hl.left _).append ((hrt _).right rfl)).left _
    | some word =>
      refine ((((hl.left _).left _).left _).append ((hrt _).right ?_)).left _
      simp only [size_append, size_one]
      omega
  | .newArray _ _ size _ =>
    obtain ⟨-, -, -, hs⟩ := he
    rw [operandsOfExpr, ofExpr, Expr.comparesValues]
    exact (stands_cons h (by simp) hs trivial (stands_ofExpr size hs pc)).left _
  | .call c =>
    rw [operandsOfExpr, ofExpr, Expr.comparesValues]
    exact stands_ofCall c he pc

theorem stands_ofCall (c : Call) {t : Ty} (hc : c.Typed Γ vs t) (pc : Nat) :
    AllStand env Γ pc (ofCall env frame pc c) c.comparesValues (operandsOfCall env frame pc c) := by
  match c with
  | .mk method args _ bound _ =>
    obtain ⟨-, id, π, rfl, hπ, -, ha, hmeth⟩ := hc
    obtain ⟨m, hm, rfl⟩ := h.at_site.method hπ
    have hvals := h.typed.proper.param id _ (h.at_site.sig ▸ hπ)
    rw [operandsOfCall, ofCall, Call.comparesValues, Bool.and_comm]
    simp only [hm]
    by_cases hprn : env.package.println = some id
    · rw [if_pos hprn, if_pos hprn]
      exact ((stands_ofArgs args ha hvals pc).left _).append
        (stands_ofReceiver method hmeth pc 0).unplaced
    · rw [if_neg hprn, if_neg hprn]
      refine ((stands_ofArgsBackward args ha hvals pc).left _).append ?_
      have hrcv := fun line => stands_ofReceiver method hmeth
        (pc + (ofArgsBackward env frame pc args).size) line
      simp only [Option.bind_some, hm, Option.any_some]
      by_cases hstat : m.isStatic = true
      · rw [if_pos hstat]
        exact (hrcv 0).unplaced
      · rw [if_neg hstat, ofInvocation, if_neg hstat, h.static, if_neg Bool.false_ne_true]
        exact ((hrcv _).left _).right rfl

theorem stands_ofReceiver (method : Ref) {id : MemberId} {π : Profile}
    (hmeth : method.Calls Γ vs id π) (pc : Nat) (line : Int) :
    AllStand env Γ pc (ofReceiver env frame pc line method) method.comparesValues
      (operandsOfReceiver env frame pc method) := by
  match method with
  | .id .. => exact stands_nil
  | .member base span name b isLength u =>
    simp only [Ref.Calls] at hmeth
    rw [operandsOfReceiver, ofReceiver, Ref.comparesValues]
    obtain ⟨-, span, name, i, u, rfl⟩ | ⟨n, -, hbase⟩ := hmeth
    · exact stands_nil
    · have hopd := stands_ofRef base hbase pc
      cases base with
      | this => exact stands_nil
      | id | member | elem => exact hopd
  | .this .. | .elem .. =>
    simp only [Ref.Calls] at hmeth

theorem stands_ofArgs (es : List Expr) {ts : List Ty} (hes : Expr.TypedList Γ vs es ts)
    (hts : ∀ t ∈ ts, t.IsValue) (pc : Nat) :
    AllStand env Γ pc (ofArgs env frame pc es) (Expr.compareValues es)
      (operandsOfArgs env frame pc es) := by
  match es with
  | [] => exact stands_nil
  | e :: es =>
    obtain ⟨u, us, rfl, he, hes⟩ := hes
    rw [forall_mem_cons] at hts
    rw [operandsOfArgs, ofArgs, Expr.compareValues]
    exact ((stands_cons h (by simp) he hts.1 (stands_ofExpr e he pc)).left _).append
      ((stands_ofArgs es hes hts.2 _).right rfl)

theorem stands_ofArgsBackward (es : List Expr) {ts : List Ty} (hes : Expr.TypedList Γ vs es ts)
    (hts : ∀ t ∈ ts, t.IsValue) (pc : Nat) :
    AllStand env Γ pc (ofArgsBackward env frame pc es) (Expr.compareValues es)
      (operandsOfArgsBackward env frame pc es) := by
  match es with
  | [] => exact stands_nil
  | e :: es =>
    obtain ⟨u, us, rfl, he, hes⟩ := hes
    rw [forall_mem_cons] at hts
    rw [operandsOfArgsBackward, ofArgsBackward, Expr.compareValues, Bool.and_comm]
    exact ((stands_ofArgsBackward es hes hts.2 pc).left _).append
      ((stands_cons h (by simp) he hts.1 (stands_ofExpr e he _)).right rfl)

end

end

theorem stands_ofUse (h : env.Flows Γ frame vs)
    (hrole : ∀ other, role ≠ .compared other) (he : e.Typed Γ vs t) (ht : t.IsValue) :
    AllStand env Γ pc (ofExpr env frame pc e) e.comparesValues (operandsOfUse env frame role pc e) :=
  stands_cons h hrole he ht (stands_ofExpr h e he pc)

theorem stands_ofAssign (h : env.Flows Γ frame vs) {lhs : Ref} {rhs : Expr} {t : Ty}
    (hasg : lhs.Assignable) (hlhs : lhs.Typed Γ vs t) (hrhs : rhs.Typed Γ vs t) (pc : Nat) :
    AllStand env Γ pc (ofAssign env frame pc lhs rhs) (lhs.comparesValues && rhs.comparesValues)
      (operandsOfRef env frame pc lhs ++
        operandsOfUse env frame .assigned (assignedAt env frame pc lhs) rhs) := by
  have hval : t.IsValue := h.proper.isValue h.typed hlhs
  have hrhs : ∀ pc, AllStand env Γ pc (ofExpr env frame pc rhs) rhs.comparesValues
      (operandsOfUse env frame .assigned pc rhs) := fun pc => stands_ofUse h (by simp) hrhs hval
  match lhs with
  | .this .. => exact hasg.elim
  | .id .. =>
    obtain ⟨-, b, rfl, hb⟩ := hlhs
    obtain ⟨e, he⟩ := exists_varEntity h.at_site h.places hb
    simp only [ofAssign, Env.withEntity, he, operandsOfRef, assignedAt]
    exact (hrhs pc).left _
  | .member _ _ _ _ true _ => exact hasg.elim
  | .member base s name b false u =>
    obtain ⟨-, id, f, rfl, hf, -, hbase⟩ := hlhs
    obtain ⟨e, he⟩ : ∃ e, env.entity? frame (.field id) = some e := exists_fieldEntity h.at_site hf
    simp only [ofAssign, Env.withEntity, he, operandsOfRef, assignedAt, isStatic_field h.at_site hf,
      true_and]
    obtain ⟨hstat, span, name, i, u, rfl⟩ | ⟨n, -, hbase⟩ := hbase
    · simp only [hstat, operandsOfRef, Bool.true_or, ↓reduceIte, map_nil]
      exact (hrhs pc).left _
    have hopd := stands_ofRef h base hbase pc
    by_cases hstat : f.isStatic = true
    · simp only [hstat, Bool.true_or, ↓reduceIte]
      exact hopd.unplaced.append ((hrhs pc).left _)
    · cases base with
      | this =>
        simp only [isDirect, operandsOfRef, Bool.or_true, ↓reduceIte, map_nil, ite_self]
        exact (hrhs pc).left _
      | id | member | elem =>
        simp only [hstat, isDirect, Bool.or_self, Bool.false_eq_true, ↓reduceIte, size_append,
          size_literal, ← Nat.add_assoc]
        refine (((hopd.left _).left _).append ((hrhs _).right ?_)).left _
        simp only [size_append, size_literal, Nat.add_assoc]
  | .elem base index _ =>
    obtain ⟨-, hbase, hidx⟩ := hlhs
    rw [operandsOfRef]
    simp only [ofAssign, assignedAt, size_append, ← Nat.add_assoc]
    have hrole : ∀ other, Role.index ≠ .compared other := by simp
    refine (((((stands_ofRef h base hbase pc).left _).append
      ((stands_ofUse h hrole hidx trivial).right rfl)).left _).append ((hrhs _).right ?_)).left _
    rw [size_append, Nat.add_assoc]

end

section

variable {env} {Γ : Site}

mutual

theorem stands_ofStmt {frame : Frame} (h : env.Flows Γ frame vs) (hfr : frame.Fits vs)
    (s : Stmt) (hs : s.Typed Γ vs) (pc : Nat) :
    AllStand env Γ pc (ofStmt env frame pc s).1 s.comparesValues (operandsOfStmt env frame pc s) := by
  match s with
  | .block _ body =>
    rw [operandsOfStmt, ofStmt, Stmt.comparesValues]
    exact (stands_ofStmts h hfr body hs pc).left _
  | .decl d init =>
    obtain ⟨hd, hnew, hinit⟩ := hs
    have hpls := (hfr.declare hd hnew).places.left
    rw [operandsOfStmt, ofStmt, Stmt.comparesValues]
    exact stands_ofUse { h with places := hpls } (by simp) hinit hd
  | .assign lhs rhs =>
    obtain ⟨hasg, t, hlhs, hrhs⟩ := hs
    rw [operandsOfStmt, ofStmt, Stmt.comparesValues]
    exact stands_ofAssign h hasg hlhs hrhs pc
  | .call c =>
    obtain ⟨t, hc⟩ := hs
    rw [operandsOfStmt, ofStmt, Stmt.comparesValues]
    exact (stands_ofCall h c hc pc).left _
  | .ifThen _ cond body =>
    obtain ⟨hcond, -, hb⟩ := hs
    rw [operandsOfStmt, ofStmt, Stmt.comparesValues]
    refine (((stands_ofUse h (by simp) hcond trivial).left _).left _).append
      ((stands_ofStmt h hfr body hb _).right ?_)
    rw [size_append, size_one, Nat.add_assoc]
  | .ifElse _ cond body other =>
    obtain ⟨hcond, ⟨hdecl, hb⟩, -, hoth⟩ := hs
    have hmid := fits_ofStmt env hfr body hb (pc + (ofExpr env frame pc cond).size + 1)
    rw [hdecl, append_nil] at hmid
    rw [operandsOfStmt, ofStmt, Stmt.comparesValues]
    refine ((((((stands_ofUse h (by simp) hcond trivial).left _).left _).append
      ((stands_ofStmt h hfr body hb _).right ?_)).left _).left _).append
      ((stands_ofStmt { h with places := hmid.places } hmid other hoth _).right ?_)
    · rw [size_append, size_one, Nat.add_assoc]
    · simp only [size_append, size_one]
      omega
  | .loop _ cond body =>
    obtain ⟨hcond, -, hb⟩ := hs
    rw [operandsOfStmt, ofStmt, Stmt.comparesValues]
    refine ((((stands_ofUse h (by simp) hcond trivial).left _).left _).append
      ((stands_ofStmt h hfr body hb _).right ?_)).left _
    rw [size_append, size_one, Nat.add_assoc]

theorem stands_ofStmts {frame : Frame} (h : env.Flows Γ frame vs) (hfr : frame.Fits vs)
    (ss : List Stmt) (hss : Stmt.TypedList Γ vs ss) (pc : Nat) :
    AllStand env Γ pc (ofStmts env frame pc ss).1 (Stmt.compareValues ss)
      (operandsOfStmts env frame pc ss) := by
  match ss with
  | [] => exact stands_nil
  | s :: ss =>
    have haft := fits_ofStmt env hfr s hss.1 pc
    rw [operandsOfStmts, ofStmts, Stmt.compareValues]
    exact ((stands_ofStmt h hfr s hss.1 pc).left _).append ((stands_ofStmts { h with
      places := haft.places, proper := h.proper.declared hss.1 } haft ss hss.2 _).right rfl)

end

end

theorem stands_operandsOfMethod {p : Package} (hp : p.Typed) {id : MemberId}
    (hm : p.method? id = some m) (pc : Nat) :
    AllStand ⟨p, false, m.params⟩ (m.site p.signature id.cls) pc
      (ofMethod ⟨p, false, m.params⟩ .start pc m).1 m.comparesValues
      (operandsOfMethod ⟨p, false, m.params⟩ pc m) := by
  obtain ⟨htyp, hres⟩ := hp.methods id m hm
  have hb := stands_ofStmts (flows_start hp hm) Frame.fits_start m.body htyp pc
  unfold operandsOfMethod ofMethod MethodDecl.comparesValues
  refine ((hb.left _).left _).append ?_
  cases hr : m.result with
  | none => exact stands_nil
  | some e =>
    rw [hr] at hres
    exact ((stands_ofUse (flows_result hp hm pc) (by simp) hres.2 hres.1).right rfl).left _

theorem Form.ne_jump (h : Form branches p P lo hi item) : item.instr.op ≠ Opcode.jump.code := by
  have hne : ∀ op : Opcode, op ≠ .jump → op.code ≠ Opcode.jump.code := by
    intro op
    cases op <;> simp [Opcode.code]
  cases h with
  | prim q => exact hne .call (by decide)
  | @stack _ _ _ op hop | @access _ _ _ op _ hop | @jump _ _ op _ hop | @call _ op _ _ hop =>
    refine hne op ?_
    rintro rfl
    exact absurd hop (by decide)

end Code

namespace Assembly

variable {p : Package} {dynamic : Bool} {entry : MemberId}

variable {pc : Nat} {code : Code} {Γ : Site}

theorem CodeAt.within {a : Assembly} {piece : Code} (h : a.CodeAt pc code)
    (hpiec : Code.Within pc code addr piece) : a.CodeAt addr piece := by
  obtain ⟨front, back, hits, rfl⟩ := hpiec
  refine ⟨fun k item hk => ?_, ?_⟩
  · have hlt := (List.getElem?_eq_some_iff.1 hk).1
    rw [Nat.add_assoc]
    refine h.items _ item ?_
    rw [hits, append_assoc, getElem?_append_right (Nat.le_add_right _ _),
      Nat.add_sub_cancel_left, getElem?_append_left hlt, hk]
  · have hlt := h.lt
    rw [Code.size, hits, length_append, length_append] at hlt
    rw [Code.size]
    omega

theorem CodeAt.dispatched (h : (ofPackage p false entry).CodeAt pc code) :
    (ofPackage p true entry).CodeAt pc (code.dispatched p) where
  items k item hk := by
    rw [Code.dispatched, getElem?_map] at hk
    obtain ⟨item', hitem', rfl⟩ := Option.map_eq_some_iff.1 hk
    rw [code_dynamic, Code.dispatched, getElem?_map, h.items k item' hitem']
    rfl
  lt := by
    have hlt := h.lt
    rwa [Code.size_dispatched, size_program, code_dynamic, Code.size_dispatched, ← size_program]

theorem effect_moves (h : Code.Moves p Γ lands σ τ item)
    (hjump : item.instr.op ≠ Opcode.jump.code) :
    ∃ e rest, (instrOf p dynamic entry item).effect? (item.callee.bind p.method?) = some e ∧
      σ.length = rest + e.takes ∧ τ.length = rest + e.leaves ∧
      ∀ x : Nat, some ((x + 1 : Nat) : Int) ∈ (instrOf p dynamic entry item).successors x := by
  cases h with
  | turn h =>
    have hpass : (instrOf p dynamic entry item).Passes _ _ _ := passes_turns h
    obtain ⟨e, rest, he, hσ, hτ, -, hsucc⟩ := hpass
    exact ⟨e, rest, he, hσ, hτ, fun x => by simp [hsucc x]⟩
  | jump => exact absurd rfl hjump
  | branch hσ =>
    rw [instrOf_none, hσ]
    exact ⟨⟨1, 0⟩, τ.length, rfl, rfl, rfl, fun x => mem_cons_of_mem _ mem_cons_self⟩

theorem Heights.flow {b : Code.Body} {h : Nat → Nat} (hh : Heights p dynamic entry m b h)
    (hc : (ofPackage p false entry).CodeAt pc code)
    (hseal : Code.Sealed Code.branches p P pc code) (hflow : Code.Flow p Γ exits pc code [] σ τ)
    (hspan : ∀ k < code.size, b.Spans (pc + k)) :
    h (pc + code.size) + σ.length = h pc + τ.length := by
  obtain ⟨S, rfl, rfl, hmov, -⟩ := hflow
  -- The same holds behind every instruction of the code.
  have hall : ∀ k ≤ code.size, h (pc + k) + (S pc).length = h pc + (S (pc + k)).length := by
    intro k
    induction k with
    | zero => exact fun _ => rfl
    | succ k ih =>
      intro hk
      obtain ⟨item, hitem⟩ : ∃ item, code.items[k]? = some item := ⟨_, getElem?_eq_getElem hk⟩
      obtain ⟨i, e, hi, he, -, hsucc⟩ := hh.step (pc + k) (hspan k hk)
      rw [getElem?_dynamic, hc.items k item hitem] at hi
      rw [calleeAt, hc.items k item hitem] at he
      cases hi
      have hjump := (hseal.forms item (mem_of_getElem? hitem)).ne_jump
      obtain ⟨e', rest, he', hσ, hτ, hmem⟩ := effect_moves (hmov k item hitem) hjump
      cases he.symm.trans he'
      obtain ⟨z, hz, -, hht⟩ := hsucc _ (hmem (pc + k))
      cases hz
      have ih := ih (by omega)
      rw [← Nat.add_assoc]
      omega
  exact hall code.size (Nat.le_refl _)

theorem Heights.operand {m : MethodDecl} {b : Code.Body} {h : Nat → Nat}
    (hh : Heights p dynamic entry m b h) (hcode : (ofPackage p false entry).CodeAt b.addr code)
    (hsize : code.size = b.code.size) (hx : Code.Stands ⟨p, false, m.params⟩ Γ b.addr code x)
    (hval : x.IsValue) (hcmp : x.expr.comparesValues = true) {frame : Code.Frame} {first : Nat}
    (hpl : x.place = some (frame, first)) :
    (ofPackage p dynamic entry).CodeAt first
        (Code.ofExpr ⟨p, dynamic, m.params⟩ frame first x.expr) ∧
      h (first + (Code.ofExpr ⟨p, dynamic, m.params⟩ frame first x.expr).size) = h first + 1 := by
  obtain ⟨vs, t, hflows, htyp, hwin⟩ := hx.placed frame first hpl
  have hpiec := hcode.within hwin
  have ht : t ≠ .void := by
    rw [Operand.IsValue, htyp.type_eq] at hval
    exact hval.1.ne_void
  have hflow := Code.flow_ofExpr hflows x.expr htyp ht hcmp (fun _ _ => False) first
    (Code.covers_ofVars vs)
  have hseal := Code.sealed_ofExpr hflows.at_site hflows.places x.expr htyp first
    (Code.allows_all _)
  have hht := hh.flow hpiec hseal hflow fun k hk => by
    have hle := hwin.le
    exact ⟨by omega, by omega⟩
  rw [length_cons] at hht
  cases dynamic with
  | false => exact ⟨hpiec, by omega⟩
  | true =>
    rw [Code.ofExpr_dynamic, Code.size_dispatched]
    exact ⟨hpiec.dispatched, by omega⟩

end Assembly

/-- Every operand of a checked package has a value of one word, unless it is compared with one that
has none either.  If there is no such comparison in a method, then there are heights of the stack for
its code, and the code of each of its operands leaves exactly one word. -/
theorem Package.operands_have_values {file : String} {source : List UInt8} {p : Package}
    (hparse : Package.parse file source = .ok p) (hcheck : p.check.diagnostics = []) {id : MemberId}
    {m : MethodDecl} (hm : p.check.package.method? id = some m) (dynamic : Bool) :
    ∃ entry b operands, p.check.package.entry = some entry ∧
      (Assembly.ofPackage p.check.package dynamic entry).body? id = some b ∧
      Code.operandsOfMethod ⟨p.check.package, false, m.params⟩ b.addr m = operands ∧
      (∀ x ∈ operands, x.Checked) ∧
      (m.comparesValues = true ↔ ∀ x ∈ operands, x.IsValue) ∧
      (m.comparesValues = true → ∃ h, Assembly.Heights p.check.package dynamic entry m b h ∧
        ∀ x ∈ operands, ∀ frame first, x.place = some (frame, first) →
          ∃ code, Code.ofExpr ⟨p.check.package, dynamic, m.params⟩ frame first x.expr = code ∧
            (Assembly.ofPackage p.check.package dynamic entry).CodeAt first code ∧
            h (first + code.size) = h first + 1) := by
  have hp := Package.typed_of_check (Package.fresh_of_parse hparse) hcheck
  obtain ⟨entry, hentry, -⟩ := hp.entry
  obtain ⟨b₀, hb₀, -, hbody⟩ := Assembly.exists_body false entry hm
  obtain ⟨b, hb, haddr, hsize, -⟩ := Assembly.body?_of_static hb₀ dynamic
  have hstands := Code.stands_operandsOfMethod hp hm b.addr
  refine ⟨entry, b, _, hentry, hb, rfl, fun x hx => (hstands.each x hx).checked,
    hstands.values, fun hcmp => ?_⟩
  obtain ⟨b', h, hb', hh⟩ := Assembly.exists_heights hp dynamic entry hm hcmp
  cases hb.symm.trans hb'
  refine ⟨h, hh, fun x hx frame first hplace => ⟨_, rfl, ?_⟩⟩
  have hcode := Assembly.codeAt_body hb₀
  rw [show b₀.code = _ from congrArg Prod.fst hbody, ← haddr] at hcode
  refine hh.operand hcode ?_ (hstands.each x hx) (hstands.values.1 hcmp x hx)
    (hstands.deep hcmp x hx) hplace
  rw [hsize, show b₀.code = _ from congrArg Prod.fst hbody, haddr]

/-- A program with a method that gives back a value, and one that compares two calls without a
result. -/
def comparesCalls : List UInt8 :=
  "class M{static void f(){}int g(int x){return x+1;}public static void main(String[]a){boolean b=f()==f();}}"
    |>.toUTF8.toList

theorem comparesCalls_evaluated : ∃ p g e m, Package.parse "M" comparesCalls = .ok p ∧
    p.check.diagnostics = [] ∧ p.check.package.method? ⟨3, 1⟩ = some g ∧ g.result = some e ∧
    g.comparesValues = true ∧ p.check.package.method? ⟨3, 2⟩ = some m ∧
    ∃ x ∈ Code.operandsOfMethod ⟨p.check.package, false, m.params⟩ 0 m, x.expr.type = .void := by
  have h : (Package.checked? "M" comparesCalls).elim False fun p =>
      (p.method? ⟨3, 1⟩).elim False fun g => g.comparesValues = true ∧
        g.result.elim False fun _ => (p.method? ⟨3, 2⟩).elim False fun m =>
          ((Code.operandsOfMethod ⟨p, false, m.params⟩ 0 m).any fun x => x.expr.type = .void) =
            true := by
    cbv
  obtain ⟨q, hq, h⟩ := exists_some_of_elim h
  obtain ⟨p, hpar, hchk, rfl⟩ := Package.exists_parsed hq
  obtain ⟨g, hg, hcmp, h⟩ := exists_some_of_elim h
  obtain ⟨e, he, h⟩ := exists_some_of_elim h
  obtain ⟨m, hm, h⟩ := exists_some_of_elim h
  refine ⟨p, g, e, m, hpar, hchk, hg, he, hcmp, hm, ?_⟩
  simpa using h

/-- The value that a method gives back is on the stack behind its code. -/
theorem Package.operands_have_values_comparesCalls : ∃ p g entry b h x frame first,
    Package.parse "M" comparesCalls = .ok p ∧ p.check.diagnostics = [] ∧
    p.check.package.method? ⟨3, 1⟩ = some g ∧
    (Assembly.ofPackage p.check.package true entry).body? ⟨3, 1⟩ = some b ∧
    Assembly.Heights p.check.package true entry g b h ∧
    x ∈ Code.operandsOfMethod ⟨p.check.package, false, g.params⟩ b.addr g ∧ x.IsValue ∧
    x.place = some (frame, first) ∧
    h (first + (Code.ofExpr ⟨p.check.package, true, g.params⟩ frame first x.expr).size) =
      h first + 1 := by
  obtain ⟨p, g, e, -, hparse, hcheck, hg, he, hcmp, -⟩ := comparesCalls_evaluated
  obtain ⟨entry, b, _, -, hb, rfl, -, hvalues, hcode⟩ :=
    Package.operands_have_values hparse hcheck hg true
  obtain ⟨h, hh, hcode⟩ := hcode hcmp
  let body := Code.ofStmts ⟨p.check.package, false, g.params⟩ .start b.addr g.body
  let x : Operand := ⟨.returned, e, some (body.2, b.addr + body.1.size)⟩
  have hx : x ∈ Code.operandsOfMethod ⟨p.check.package, false, g.params⟩ b.addr g := by
    refine List.mem_append_right _ ?_
    rw [he]
    exact List.mem_cons_self
  obtain ⟨_, rfl, -, hheight⟩ := hcode x hx _ _ rfl
  exact ⟨p, g, entry, b, h, x, _, _, hparse, hcheck, hg, hb, hh, hx, hvalues.1 hcmp x hx, rfl,
    hheight⟩

/-- Two calls without a result may be compared: an operand of a checked package need not have a
value. -/
theorem Package.operand_without_value : ∃ p m, Package.parse "M" comparesCalls = .ok p ∧
    p.check.diagnostics = [] ∧ p.check.package.method? ⟨3, 2⟩ = some m ∧
    ∃ x ∈ Code.operandsOfMethod ⟨p.check.package, false, m.params⟩ 0 m,
      x.expr.type = .void ∧ x.expr.type.size = 0 := by
  obtain ⟨p, -, -, m, hparse, hcheck, -, -, -, hm, x, hx, hvoid⟩ := comparesCalls_evaluated
  exact ⟨p, m, hparse, hcheck, hm, x, hx, hvoid, by rw [hvoid]; rfl⟩

end MiniJam
