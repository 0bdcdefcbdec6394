import Mathlib.Tactic.MkIffOfInductiveProp
import MiniJam.Code.Entities

/-!
# A name in the place of another

`Package.Misnamed span name p p'` says that the package `p'` is `p` with another name in the place of one
identifier.  The identifier can stand anywhere in the statements or in the result of a method.  The two
packages have the same outline: they differ in what is inside of one method.
-/

namespace MiniJam

/-- Two lists differ in one item, and the two items there are related. -/
inductive OneOff {α : Type} (R : α → α → Prop) : List α → List α → Prop
  | head {a a' : α} (h : R a a') (as : List α) : OneOff R (a :: as) (a' :: as)
  | tail (a : α) {as as' : List α} (h : OneOff R as as') : OneOff R (a :: as) (a :: as')

namespace OneOff

variable {α β : Type} {R : α → α → Prop} {as as' : List α}

theorem exists_of_mem {a a' : α} (ha : a ∈ as) (h : R a a') : ∃ as', OneOff R as as' := by
  induction as with
  | nil => cases ha
  | cons b as ih =>
    obtain rfl | ha := List.mem_cons.1 ha
    · exact ⟨_, .head h as⟩
    · obtain ⟨as', h⟩ := ih ha
      exact ⟨b :: as', .tail b h⟩

theorem append_left (pre : List α) (h : OneOff R as as') : OneOff R (pre ++ as) (pre ++ as') := by
  induction pre with
  | nil => exact h
  | cons a pre ih => exact .tail a ih

theorem zipIdx (h : OneOff R as as') (n : Nat) :
    OneOff (fun x y => R x.1 y.1 ∧ x.2 = y.2) (as.zipIdx n) (as'.zipIdx n) := by
  induction h generalizing n with
  | head h as => exact .head ⟨h, rfl⟩ _
  | tail a _ ih => exact .tail _ (ih (n + 1))

theorem map_eq (h : OneOff R as as') {f : α → β} (hf : ∀ a a', R a a' → f a' = f a) :
    as'.map f = as.map f := by
  induction h with
  | head h as => rw [List.map_cons, List.map_cons, hf _ _ h]
  | tail a _ ih => rw [List.map_cons, List.map_cons, ih]

end OneOff

section

variable (span : Span) (name : String)

mutual

/-- A name in the place of an identifier of a reference. -/
inductive Ref.Misnamed : Ref → Ref → Prop
  | id {old : String} {b : Option Binding} {t : Ty} :
      Ref.Misnamed (.id span old b t) (.id span name b t)
  | member {base base' : Ref} {s : Span} {n : String} {b : Option Binding} {isLength : Bool} {t : Ty}
      (h : Ref.Misnamed base base') :
      Ref.Misnamed (.member base s n b isLength t) (.member base' s n b isLength t)
  | base {base base' : Ref} {index : Expr} {t : Ty} (h : Ref.Misnamed base base') :
      Ref.Misnamed (.elem base index t) (.elem base' index t)
  | index {base : Ref} {index index' : Expr} {t : Ty} (h : Expr.Misnamed index index') :
      Ref.Misnamed (.elem base index t) (.elem base index' t)

/-- A name in the place of an identifier of an expression. -/
inductive Expr.Misnamed : Expr → Expr → Prop
  | ref {r r' : Ref} (h : Ref.Misnamed r r') : Expr.Misnamed (.ref r) (.ref r')
  | unary {s : Span} {op : Operator} {e e' : Expr} {t : Ty} (h : Expr.Misnamed e e') :
      Expr.Misnamed (.unary s op e t) (.unary s op e' t)
  | lhs {op : Operator} {lhs lhs' rhs : Expr} {t : Ty} (h : Expr.Misnamed lhs lhs') :
      Expr.Misnamed (.binary op lhs rhs t) (.binary op lhs' rhs t)
  | rhs {op : Operator} {lhs rhs rhs' : Expr} {t : Ty} (h : Expr.Misnamed rhs rhs') :
      Expr.Misnamed (.binary op lhs rhs t) (.binary op lhs rhs' t)
  | newArray {s : Span} {elem : Ty} {size size' : Expr} {t : Ty} (h : Expr.Misnamed size size') :
      Expr.Misnamed (.newArray s elem size t) (.newArray s elem size' t)
  | call {c c' : Call} (h : Call.Misnamed c c') : Expr.Misnamed (.call c) (.call c')

/-- A name in the place of an identifier of one of several expressions. -/
inductive Expr.MisnamedList : List Expr → List Expr → Prop
  | head {e e' : Expr} {es : List Expr} (h : Expr.Misnamed e e') :
      Expr.MisnamedList (e :: es) (e' :: es)
  | tail {e : Expr} {es es' : List Expr} (h : Expr.MisnamedList es es') :
      Expr.MisnamedList (e :: es) (e :: es')

/-- A name in the place of an identifier of a call. -/
inductive Call.Misnamed : Call → Call → Prop
  | method {r r' : Ref} {args : List Expr} {close : Span} {b : Option MemberId} {t : Ty}
      (h : Ref.Misnamed r r') : Call.Misnamed (.mk r args close b t) (.mk r' args close b t)
  | args {r : Ref} {args args' : List Expr} {close : Span} {b : Option MemberId} {t : Ty}
      (h : Expr.MisnamedList args args') :
      Call.Misnamed (.mk r args close b t) (.mk r args' close b t)

end

mutual

/-- A name in the place of an identifier of a statement. -/
inductive Stmt.Misnamed : Stmt → Stmt → Prop
  | block {s : Span} {body body' : List Stmt} (h : Stmt.MisnamedList body body') :
      Stmt.Misnamed (.block s body) (.block s body')
  | init {d : LocalDecl} {e e' : Expr} (h : e.Misnamed span name e') :
      Stmt.Misnamed (.decl d e) (.decl d e')
  | target {lhs lhs' : Ref} {rhs : Expr} (h : lhs.Misnamed span name lhs') :
      Stmt.Misnamed (.assign lhs rhs) (.assign lhs' rhs)
  | value {lhs : Ref} {rhs rhs' : Expr} (h : rhs.Misnamed span name rhs') :
      Stmt.Misnamed (.assign lhs rhs) (.assign lhs rhs')
  | call {c c' : Call} (h : c.Misnamed span name c') : Stmt.Misnamed (.call c) (.call c')
  | ifCond {s : Span} {cond cond' : Expr} {body : Stmt} (h : cond.Misnamed span name cond') :
      Stmt.Misnamed (.ifThen s cond body) (.ifThen s cond' body)
  | ifBody {s : Span} {cond : Expr} {body body' : Stmt} (h : Stmt.Misnamed body body') :
      Stmt.Misnamed (.ifThen s cond body) (.ifThen s cond body')
  | elseCond {s : Span} {cond cond' : Expr} {body other : Stmt}
      (h : cond.Misnamed span name cond') :
      Stmt.Misnamed (.ifElse s cond body other) (.ifElse s cond' body other)
  | elseBody {s : Span} {cond : Expr} {body body' other : Stmt} (h : Stmt.Misnamed body body') :
      Stmt.Misnamed (.ifElse s cond body other) (.ifElse s cond body' other)
  | elseOther {s : Span} {cond : Expr} {body other other' : Stmt}
      (h : Stmt.Misnamed other other') :
      Stmt.Misnamed (.ifElse s cond body other) (.ifElse s cond body other')
  | loopCond {s : Span} {cond cond' : Expr} {body : Stmt} (h : cond.Misnamed span name cond') :
      Stmt.Misnamed (.loop s cond body) (.loop s cond' body)
  | loopBody {s : Span} {cond : Expr} {body body' : Stmt} (h : Stmt.Misnamed body body') :
      Stmt.Misnamed (.loop s cond body) (.loop s cond body')

/-- A name in the place of an identifier of one of several statements. -/
inductive Stmt.MisnamedList : List Stmt → List Stmt → Prop
  | head {s s' : Stmt} {ss : List Stmt} (h : Stmt.Misnamed s s') :
      Stmt.MisnamedList (s :: ss) (s' :: ss)
  | tail {s : Stmt} {ss ss' : List Stmt} (h : Stmt.MisnamedList ss ss') :
      Stmt.MisnamedList (s :: ss) (s :: ss')

end

/-- A name in the place of an identifier of a method. -/
inductive MethodDecl.Misnamed : MethodDecl → MethodDecl → Prop
  | body {m : MethodDecl} {body' : List Stmt} (h : Stmt.MisnamedList span name m.body body') :
      Misnamed m { m with body := body' }
  | result {m : MethodDecl} {e e' : Expr} (he : m.result = some e) (h : e.Misnamed span name e') :
      Misnamed m { m with result := some e' }

/-- A name in the place of an identifier of a class. -/
inductive ClassDecl.Misnamed : ClassDecl → ClassDecl → Prop
  | mk {c : ClassDecl} {methods' : List MethodDecl}
      (h : OneOff (MethodDecl.Misnamed span name) c.methods methods') :
      Misnamed c { c with methods := methods' }

/-- A name in the place of an identifier of a package. -/
inductive Package.Misnamed : Package → Package → Prop
  | mk {p : Package} {classes' : List ClassDecl}
      (h : OneOff (ClassDecl.Misnamed span name) p.classes classes') :
      Misnamed p { p with classes := classes' }

end

/-- The name is not one that is declared inside of a class. -/
@[mk_iff]
structure ClassDecl.Undeclared (c : ClassDecl) (name : String) : Prop where
  fields : ∀ f ∈ c.fields, f.name ≠ name
  methods : ∀ m ∈ c.methods, m.name ≠ name
  params : ∀ m ∈ c.methods, ∀ d ∈ m.params, d.name ≠ name
  locals : ∀ m ∈ c.methods, ∀ d ∈ Stmt.localsOf m.body, d.name ≠ name

/-- The name is not one that a package declares. -/
@[mk_iff]
structure Package.Undeclared (p : Package) (name : String) : Prop where
  classes : ∀ c ∈ p.classes, c.name ≠ name
  members : ∀ c ∈ p.classes, c.Undeclared name

instance (c : ClassDecl) (name : String) : Decidable (c.Undeclared name) :=
  decidable_of_iff' _ (ClassDecl.undeclared_iff c name)

instance (p : Package) (name : String) : Decidable (p.Undeclared name) :=
  decidable_of_iff' _ (Package.undeclared_iff p name)

/-! ### Outlines -/

/-- The method without what is inside of it. -/
def MethodDecl.outline (m : MethodDecl) : MethodDecl := { m with body := [], result := none }

/-- The class without what is inside of its methods. -/
def ClassDecl.outline (c : ClassDecl) : ClassDecl :=
  { c with methods := c.methods.map MethodDecl.outline }

/-- The package without what is inside of its methods. -/
def Package.outline (p : Package) : Package := { p with classes := p.classes.map ClassDecl.outline }

variable {span : Span} {name : String}

theorem MethodDecl.Misnamed.outline_eq {m m' : MethodDecl} (h : m.Misnamed span name m') :
    m'.outline = m.outline := by
  cases h <;> rfl

theorem ClassDecl.Misnamed.outline_eq {c c' : ClassDecl} (h : c.Misnamed span name c') :
    c'.outline = c.outline := by
  obtain ⟨h⟩ := h
  simp [ClassDecl.outline, h.map_eq fun _ _ hm => hm.outline_eq]

theorem Package.Misnamed.outline_eq {p p' : Package} (h : p.Misnamed span name p') :
    p'.outline = p.outline := by
  obtain ⟨h⟩ := h
  simp [Package.outline, h.map_eq fun _ _ hc => hc.outline_eq]

theorem Package.class?_outline (p : Package) (i : Nat) :
    p.outline.class? i = (p.class? i).map ClassDecl.outline := by
  simp [class?, outline]

theorem Package.field?_outline (p : Package) (id : MemberId) : p.outline.field? id = p.field? id := by
  rw [field?, field?, class?_outline]
  cases p.class? id.cls <;> rfl

theorem Package.method?_outline (p : Package) (id : MemberId) :
    p.outline.method? id = (p.method? id).map MethodDecl.outline := by
  rw [method?, method?, class?_outline]
  cases p.class? id.cls with
  | none => rfl
  | some c => simp [ClassDecl.outline]

end MiniJam
