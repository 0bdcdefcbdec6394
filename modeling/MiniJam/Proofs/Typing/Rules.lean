import MiniJam.Typing.Package

/-!
# Typing rules

What it means for a package, with its names bound and its types filled in, to be well typed.  The
rules are stated for the tree alone: `Package.Typed` says that every method is well typed where it
stands, that is, at a `Site`, and `Expr.Typed`, `Ref.Typed`, `Call.Typed` and `Stmt.Typed` say the
same of the parts of a method.  The local variables in scope are listed in the order of their
declarations; no two of them have the same name.
-/

namespace MiniJam

/-- The types of values: one word holds a value of any of them. -/
def Ty.IsValue : Ty → Prop
  | .int | .boolean | .cls _ | .array .int | .array (.cls _) => True
  | .void | .error | .array _ => False

theorem Ty.IsValue.size {t : Ty} (h : t.IsValue) : t.size = 1 := by
  cases t <;> first | rfl | exact h.elim

theorem Ty.IsValue.ne_void {t : Ty} (h : t.IsValue) : t ≠ .void := by
  rintro rfl
  exact h

theorem Ty.IsValue.elem (h : (Ty.array t).IsValue) : t.IsValue := by
  cases t <;> trivial

theorem Ty.IsValue.ne_error {t : Ty} (h : t.IsValue) : t ≠ .error := by
  rintro rfl
  exact h

/-- The type of a member is `void` or a type of values. -/
def Ty.IsMember (t : Ty) : Prop := t = .void ∨ t.IsValue

theorem Ty.IsMember.ne_error {t : Ty} (h : t.IsMember) : t ≠ .error := by
  rintro rfl
  exact h.elim nofun id

/-- What a call has to know about a method. -/
structure Profile where
  /-- Whether the method is called without an instance. -/
  isStatic : Bool
  params : List Ty
  result : Ty
  deriving DecidableEq

def MethodDecl.profile (m : MethodDecl) : Profile := ⟨m.isStatic, m.params.map (·.type), m.type⟩

/-- What the methods of a package have to know about each other. -/
structure Signature where
  className : Nat → Option String
  field : MemberId → Option FieldDecl
  method : MemberId → Option Profile

def Package.signature (p : Package) : Signature where
  className i := (p.class? i).map (·.name)
  field := p.field?
  method id := (p.method? id).map (·.profile)

/-- The types of all members are types of values; only a method can have none. -/
structure Signature.Proper (sig : Signature) : Prop where
  field : ∀ id f, sig.field id = some f → f.type.IsValue
  param : ∀ id π, sig.method id = some π → ∀ t ∈ π.params, t.IsValue
  result : ∀ id π, sig.method id = some π → π.result.IsMember

/-- Where a statement or an expression stands. -/
structure Site where
  sig : Signature
  cls : Nat
  isStatic : Bool
  params : List Ty

/-- The member of the class `cls` that a bare identifier names can be reached: it is static, or it
is one of the current object. -/
def Site.Reaches (Γ : Site) (cls : Nat) (isStatic : Bool) : Prop :=
  isStatic = true ∨ cls = Γ.cls ∧ Γ.isStatic = false

/-- A bare identifier with a binding is a variable of type `t`. -/
def Site.Var (Γ : Site) (vs : List LocalDecl) (t : Ty) : Binding → Prop
  | .param i => Γ.params[i]? = some t
  | .var d => d ∈ vs ∧ d.type = t
  | .field id => ∃ f, Γ.sig.field id = some f ∧ f.type = t ∧ Γ.Reaches id.cls f.isStatic
  | .cls _ | .method _ => False

/-- The type `t` of the result of an operator, for operands of type `u`. -/
def Operator.Typed (u t : Ty) : Operator → Prop
  | .eq | .ne => t = .boolean
  | .and | .or => u = .boolean ∧ t = .boolean
  | .lt | .le | .gt | .ge => u = .int ∧ t = .boolean
  | .plus | .minus | .mul | .div => u = .int ∧ t = .int
  | .not => False

theorem Operator.Typed.isMember {op : Operator} (h : op.Typed u t) : t.IsMember := by
  cases op <;> simp only [Operator.Typed] at h
  case eq | ne => exact h ▸ .inr trivial
  all_goals exact h.2 ▸ .inr trivial

theorem Operator.Typed.ne_void {op : Operator} (h : op.Typed u t)
    (hne : (op ≠ .eq ∧ op ≠ .ne) ∨ u ≠ .void) : u ≠ .void := by
  cases op <;> simp_all [Operator.Typed]

def Ref.Assignable : Ref → Prop
  | .this .. | .member _ _ _ _ true _ => False
  | .id .. | .member _ _ _ _ false _ | .elem .. => True

def Ref.NamesClass (r : Ref) : Prop := ∃ span name i t, r = .id span name (some (.cls i)) t

variable (Γ : Site) (vs : List LocalDecl)

mutual

/-- The reference is a value of type `t`. -/
def Ref.Typed (r : Ref) (t : Ty) : Prop :=
  match r with
  | .this _ u => u = t ∧ Γ.isStatic = false ∧ ∃ n, Γ.sig.className Γ.cls = some n ∧ t = .cls n
  | .id _ _ b u => u = t ∧ ∃ d, b = some d ∧ Γ.Var vs t d
  | .member base _ _ b isLength u => u = t ∧
    if isLength then t = .int ∧ ∃ elem, base.Typed (.array elem)
    else ∃ id f, b = some (.field id) ∧ Γ.sig.field id = some f ∧ f.type = t ∧
      (f.isStatic = true ∧ base.NamesClass ∨
        ∃ n, Γ.sig.className id.cls = some n ∧ base.Typed (.cls n))
  | .elem base index u => u = t ∧ base.Typed (.array t) ∧ index.Typed .int

/-- The expression is a value of type `t`, or a call without a result if that is `void`. -/
def Expr.Typed (e : Expr) (t : Ty) : Prop :=
  match e with
  | .ref r => r.Typed t
  | .int _ spelling u => u = t ∧ t = .int ∧ Typing.fitsWord spelling = true
  | .bool _ _ u => u = t ∧ t = .boolean
  | .unary _ op operand u => u = t ∧ t = Typing.unaryType op ∧ operand.Typed t
  | .binary op lhs rhs u => u = t ∧ ∃ v, lhs.Typed v ∧ rhs.Typed v ∧ op.Typed v t
  | .newObject _ cls bound u => u = t ∧ t = .cls cls ∧
    ∃ i, bound = some i ∧ Γ.sig.className i = some cls
  | .newArray _ elem size u => u = t ∧ t = .array elem ∧ t.IsValue ∧ size.Typed .int
  | .call c => c.Typed t

/-- The expressions are values of the types `ts`. -/
def Expr.TypedList (es : List Expr) (ts : List Ty) : Prop :=
  match es with
  | [] => ts = []
  | e :: es => ∃ u us, ts = u :: us ∧ e.Typed u ∧ Expr.TypedList es us

/-- The call has a result of type `t`. -/
def Call.Typed (c : Call) (t : Ty) : Prop :=
  match c with
  | .mk method args _ bound u => u = t ∧ ∃ id π, bound = some id ∧ Γ.sig.method id = some π ∧
    π.result = t ∧ Expr.TypedList args π.params ∧ method.Calls id π

/-- The reference names the method `id`, and an instance for it if it needs one. -/
def Ref.Calls (method : Ref) (id : MemberId) (π : Profile) : Prop :=
  match method with
  | .id .. => Γ.Reaches id.cls π.isStatic
  | .member base .. =>
    π.isStatic = true ∧ base.NamesClass ∨ ∃ n, Γ.sig.className id.cls = some n ∧ base.Typed (.cls n)
  | .this .. | .elem .. => False

end

variable {Γ vs}

theorem Ref.Typed.type_eq {r : Ref} (h : r.Typed Γ vs t) : r.type = t := by
  cases r <;> (simp only [Ref.Typed] at h; exact h.1)

theorem Ref.Typed.isValue (hsig : Γ.sig.Proper) (hpar : ∀ t ∈ Γ.params, t.IsValue)
    (hv : ∀ d ∈ vs, d.type.IsValue) {r : Ref} (h : r.Typed Γ vs t) : t.IsValue := by
  match r with
  | .this .. =>
    obtain ⟨-, -, n, -, rfl⟩ := h
    exact trivial
  | .id .. =>
    obtain ⟨-, b, -, hb⟩ := h
    match b, hb with
    | .param i, hb => exact hpar t (List.mem_of_getElem? hb)
    | .var d, ⟨hd, ht⟩ => exact ht ▸ hv d hd
    | .field k, ⟨f, hf, ht, _⟩ => exact ht ▸ hsig.field k f hf
  | .member _ _ _ _ true _ => exact h.2.1 ▸ trivial
  | .member _ _ _ _ false _ =>
    obtain ⟨-, k, f, -, hf, rfl, -⟩ := h
    exact hsig.field k f hf
  | .elem base _ _ => exact (Ref.Typed.isValue hsig hpar hv h.2.1).elem

theorem Call.Typed.type_eq {c : Call} (h : c.Typed Γ vs t) : c.type = t := by
  cases c
  exact h.1

theorem Expr.Typed.type_eq {e : Expr} (h : e.Typed Γ vs t) : e.type = t := by
  cases e with
  | ref r => exact Ref.Typed.type_eq (by simpa only [Expr.Typed] using h)
  | call c => exact Call.Typed.type_eq (by simpa only [Expr.Typed] using h)
  | int | bool | unary | binary | newObject | newArray => exact h.1

variable (Γ)

/-- The local variable that a statement declares for the statements after it. -/
def Stmt.declared : Stmt → List LocalDecl
  | .decl d _ => [d]
  | _ => []

mutual

def Stmt.Typed (vs : List LocalDecl) (s : Stmt) : Prop :=
  match s with
  | .block _ body => Stmt.TypedList vs body
  | .decl d init => d.type.IsValue ∧ (∀ v ∈ vs, v.name ≠ d.name) ∧ init.Typed Γ vs d.type
  | .assign lhs rhs => lhs.Assignable ∧ ∃ t, lhs.Typed Γ vs t ∧ rhs.Typed Γ vs t
  | .call c => ∃ t, c.Typed Γ vs t
  | .ifThen _ cond body => cond.Typed Γ vs .boolean ∧ body.declared = [] ∧ body.Typed vs
  | .ifElse _ cond body other => cond.Typed Γ vs .boolean ∧
    (body.declared = [] ∧ body.Typed vs) ∧ other.declared = [] ∧ other.Typed vs
  | .loop _ cond body => cond.Typed Γ vs .boolean ∧ body.declared = [] ∧ body.Typed vs

def Stmt.TypedList (vs : List LocalDecl) (ss : List Stmt) : Prop :=
  match ss with
  | [] => True
  | s :: ss => s.Typed vs ∧ Stmt.TypedList (vs ++ s.declared) ss

end

def MethodDecl.site (m : MethodDecl) (sig : Signature) (cls : Nat) : Site :=
  ⟨sig, cls, m.isStatic, m.params.map (·.type)⟩

/-- The method of the class `cls` is well typed. -/
def MethodDecl.Typed (m : MethodDecl) (sig : Signature) (cls : Nat) : Prop :=
  Stmt.TypedList (m.site sig cls) [] m.body ∧ match m.result with
    | some e => m.type.IsValue ∧ e.Typed (m.site sig cls) (m.body.flatMap (·.declared)) m.type
    | none => m.type = .void

/-- The package is well typed. -/
structure Package.Typed (p : Package) : Prop where
  names : (p.classes.map (·.name)).Nodup
  proper : p.signature.Proper
  methods : ∀ id m, p.method? id = some m → m.Typed p.signature id.cls
  entry : ∃ id, p.entry = some id ∧
    p.signature.method id = some ⟨true, [.array (.cls Predefined.stringClass)], .void⟩
  println : ∃ id, p.println = some id ∧ p.signature.method id = some ⟨false, [.int], .void⟩

end MiniJam
