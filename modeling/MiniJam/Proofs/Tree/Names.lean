import MiniJam.Proofs.Typing.Rules

/-!
# Lexical scoping

What the names of a package stand for, by their position in the tree.

* `Enclosure.lookup` is what an identifier in the body of a method stands for, given the local
  variables in scope where it occurs: a local variable, or else a parameter, or else a member of the
  class, or else a class.
* `MethodDecl.refs` lists the references that occur in a method, each with the local variables that
  are in scope there: those declared before it in its own block or in one around it.  A branch of a
  condition and the body of a loop are blocks.  `MethodDecl.decls` does the same with the
  declarations of local variables.
* `Ref.Bound` says that a reference is bound to what it stands for.
* `Package.WellScoped` says that every identifier stands for something, and that no two
  declarations with overlapping scopes have the same name.

`Package.bare` is a package without anything that is found out about its names and types.  It has
the same references (`MethodDecl.refs_bare`), so that a package can be compared with the one that
was read.
-/

namespace MiniJam

open Option Package Stmt ClassDecl Function

/-! ### What names stand for -/

abbrev Names := List (String × Binding)

def localNames (vs : List LocalDecl) : Names := vs.map fun d => (d.name, .var d)

def paramNames (ds : List ParamDecl) : Names := ds.zipIdx.map fun (d, i) => (d.name, .param i)

/-- The names of the members of a class at the position `cls`. -/
def ClassDecl.memberNames (c : ClassDecl) (cls : Nat) : Names :=
  c.fields.zipIdx.map (fun (f, i) => (f.name, .field ⟨cls, i⟩)) ++
    c.methods.zipIdx.map fun (m, i) => (m.name, .method ⟨cls, i⟩)

def Package.classNames (p : Package) : Names := p.classes.zipIdx.map fun (c, i) => (c.name, .cls i)

def Package.member? (p : Package) (cls : Nat) (name : String) : Option Binding :=
  (p.class? cls).bind fun c => (c.memberNames cls).lookup name

/-- What the body of a method stands in. -/
structure Enclosure where
  package : Package
  cls : Nat
  params : List ParamDecl

/-- What an identifier stands for where the local variables `vs` are in scope. -/
def Enclosure.lookup (E : Enclosure) (vs : List LocalDecl) (name : String) : Option Binding :=
  ((localNames vs).lookup name).or <| ((paramNames E.params).lookup name).or <|
    (E.package.member? E.cls name).or <| E.package.classNames.lookup name

/-! ### Where names occur -/

mutual

/-- The references that occur in a reference; it is the first of them itself. -/
def Ref.refs (r : Ref) : List Ref :=
  match r with
  | .this s t => [.this s t]
  | .id s name b t => [.id s name b t]
  | .member base s name b isLength t => .member base s name b isLength t :: base.refs
  | .elem base index t => .elem base index t :: (base.refs ++ index.refs)

def Expr.refs (e : Expr) : List Ref :=
  match e with
  | .ref r => r.refs
  | .int .. | .bool .. | .newObject .. => []
  | .unary _ _ operand _ => operand.refs
  | .binary _ lhs rhs _ => lhs.refs ++ rhs.refs
  | .newArray _ _ size _ => size.refs
  | .call c => c.refs

def Expr.refsList (es : List Expr) : List Ref :=
  match es with
  | [] => []
  | e :: es => e.refs ++ Expr.refsList es

def Call.refs (c : Call) : List Ref :=
  match c with
  | .mk method args _ _ _ => method.refs ++ Expr.refsList args

end

mutual

/-- The references that occur in a statement, with the local variables in scope where they occur;
`vs` are in scope where the statement stands. -/
def Stmt.refs (vs : List LocalDecl) (s : Stmt) : List (List LocalDecl × Ref) :=
  match s with
  | .block _ body => Stmt.refsList vs body
  | .decl _ init => init.refs.map (vs, ·)
  | .assign lhs rhs => (lhs.refs ++ rhs.refs).map (vs, ·)
  | .call c => c.refs.map (vs, ·)
  | .ifThen _ cond body => cond.refs.map (vs, ·) ++ body.refs vs
  | .ifElse _ cond body other => cond.refs.map (vs, ·) ++ body.refs vs ++ other.refs vs
  | .loop _ cond body => cond.refs.map (vs, ·) ++ body.refs vs

def Stmt.refsList (vs : List LocalDecl) (ss : List Stmt) : List (List LocalDecl × Ref) :=
  match ss with
  | [] => []
  | s :: ss => s.refs vs ++ Stmt.refsList (vs ++ s.declared) ss

end

mutual

/-- The local variables that are declared anywhere in a statement, with those in scope before
them. -/
def Stmt.decls (vs : List LocalDecl) (s : Stmt) : List (List LocalDecl × LocalDecl) :=
  match s with
  | .block _ body => Stmt.declsList vs body
  | .decl d _ => [(vs, d)]
  | .assign .. | .call .. => []
  | .ifThen _ _ body | .loop _ _ body => body.decls vs
  | .ifElse _ _ body other => body.decls vs ++ other.decls vs

/-- The local variables that are declared anywhere in the statements of a block. -/
def Stmt.declsList (vs : List LocalDecl) (ss : List Stmt) : List (List LocalDecl × LocalDecl) :=
  match ss with
  | [] => []
  | s :: ss => s.decls vs ++ Stmt.declsList (vs ++ s.declared) ss

end

namespace MethodDecl

/-- The references that occur in the body and in the result of a method.  The result is in the scope
of the outermost block. -/
def refs (m : MethodDecl) : List (List LocalDecl × Ref) :=
  Stmt.refsList [] m.body ++ match m.result with
    | some e => e.refs.map (m.body.flatMap (·.declared), ·)
    | none => []

/-- The local variables of a method, with those in scope before them. -/
def decls (m : MethodDecl) : List (List LocalDecl × LocalDecl) := Stmt.declsList [] m.body

/-- What the body of a method of the class at the position `cls` stands in. -/
def enclosure (m : MethodDecl) (p : Package) (cls : Nat) : Enclosure := ⟨p, cls, m.params⟩

/-- No two declarations of the method with overlapping scopes have the same name.  The scope of a
parameter is the method; that of a local variable is what comes after it in its block. -/
structure Distinct (m : MethodDecl) : Prop where
  params : (m.params.map (·.name)).Nodup
  locals : ∀ x ∈ m.decls, x.2.name ∉ m.params.map (·.name) ∧ x.2.name ∉ x.1.map (·.name)

end MethodDecl

/-! ### Bound names -/

/-- The reference is bound to what it stands for where the local variables `vs` are in scope: an
identifier to what is called so there, and a member that is not the length of an array to the member
of that name of the class that is the type of its base. -/
def Ref.Bound (E : Enclosure) (vs : List LocalDecl) : Ref → Prop
  | .this .. | .elem .. => True
  | .id _ name b _ => b.isSome = true ∧ b = E.lookup vs name
  | .member base _ name b false _ => ∃ i n, E.package.signature.className i = some n ∧
    base.type = .cls n ∧ b.isSome = true ∧ b = E.package.member? i name
  | .member base _ name _ true _ => name = "length" ∧ ∃ t, base.type = .array t

/-- Every identifier stands for something, and no two declarations with overlapping scopes have the
same name. -/
structure Package.WellScoped (p : Package) : Prop where
  classes : (p.classes.map (·.name)).Nodup
  members : ∀ c ∈ p.classes, (c.fields.map (·.name) ++ c.methods.map (·.name)).Nodup
  methods : ∀ c ∈ p.classes, ∀ m ∈ c.methods, m.Distinct
  names : ∀ id m, p.method? id = some m → ∀ vs span name b t,
    (vs, Ref.id span name b t) ∈ m.refs → ((m.enclosure p id.cls).lookup vs name).isSome = true

/-! ### Trees without bindings and types -/

mutual

def Ref.bare (r : Ref) : Ref :=
  match r with
  | .this s _ => .this s .error
  | .id s name _ _ => .id s name none .error
  | .member base s name _ _ _ => .member base.bare s name none false .error
  | .elem base index _ => .elem base.bare index.bare .error

def Expr.bare (e : Expr) : Expr :=
  match e with
  | .ref r => .ref r.bare
  | .int s spelling _ => .int s spelling .error
  | .bool s value _ => .bool s value .error
  | .unary s op operand _ => .unary s op operand.bare .error
  | .binary op lhs rhs _ => .binary op lhs.bare rhs.bare .error
  | .newObject s cls _ _ => .newObject s cls none .error
  | .newArray s elem size _ => .newArray s elem size.bare .error
  | .call c => .call c.bare

def Expr.bareList (es : List Expr) : List Expr :=
  match es with
  | [] => []
  | e :: es => e.bare :: Expr.bareList es

def Call.bare (c : Call) : Call :=
  match c with
  | .mk method args close _ _ => .mk method.bare (Expr.bareList args) close none .error

end

mutual

def Stmt.bare (s : Stmt) : Stmt :=
  match s with
  | .block span body => .block span (Stmt.bareList body)
  | .decl d init => .decl d init.bare
  | .assign lhs rhs => .assign lhs.bare rhs.bare
  | .call c => .call c.bare
  | .ifThen span cond body => .ifThen span cond.bare body.bare
  | .ifElse span cond body other => .ifElse span cond.bare body.bare other.bare
  | .loop span cond body => .loop span cond.bare body.bare

def Stmt.bareList (ss : List Stmt) : List Stmt :=
  match ss with
  | [] => []
  | s :: ss => s.bare :: Stmt.bareList ss

end

def MethodDecl.bare (m : MethodDecl) : MethodDecl :=
  { m with body := Stmt.bareList m.body, result := m.result.map Expr.bare }

def ClassDecl.bare (c : ClassDecl) : ClassDecl :=
  { c with methods := c.methods.map MethodDecl.bare }

def Package.bare (p : Package) : Package :=
  { p with classes := p.classes.map ClassDecl.bare, entry := none, println := none }

/-! ### References of bare trees -/

mutual

theorem Ref.refs_bare (r : Ref) : r.bare.refs = r.refs.map Ref.bare := by
  match r with
  | .this .. | .id .. => rfl
  | .member base .. => simp [Ref.bare, Ref.refs, base.refs_bare]
  | .elem base index _ => simp [Ref.bare, Ref.refs, base.refs_bare, index.refs_bare]

theorem Expr.refs_bare (e : Expr) : e.bare.refs = e.refs.map Ref.bare := by
  match e with
  | .int .. | .bool .. | .newObject .. => rfl
  | .ref r => simp [Expr.bare, Expr.refs, r.refs_bare]
  | .unary _ _ operand _ => simp [Expr.bare, Expr.refs, operand.refs_bare]
  | .binary _ lhs rhs _ => simp [Expr.bare, Expr.refs, lhs.refs_bare, rhs.refs_bare]
  | .newArray _ _ size _ => simp [Expr.bare, Expr.refs, size.refs_bare]
  | .call c => simp [Expr.bare, Expr.refs, c.refs_bare]

theorem Expr.refsList_bare (es : List Expr) :
    Expr.refsList (Expr.bareList es) = (Expr.refsList es).map Ref.bare := by
  match es with
  | [] => rfl
  | e :: es => simp [Expr.bareList, Expr.refsList, e.refs_bare, Expr.refsList_bare es]

theorem Call.refs_bare (c : Call) : c.bare.refs = c.refs.map Ref.bare := by
  match c with
  | .mk method args _ _ _ =>
    simp [Call.bare, Call.refs, method.refs_bare, Expr.refsList_bare args]

end

@[simp] theorem Stmt.declared_bare (s : Stmt) : s.bare.declared = s.declared := by
  cases s <;> simp only [bare, declared]

theorem Stmt.declared_bareList (ss : List Stmt) :
    (bareList ss).flatMap (·.declared) = ss.flatMap (·.declared) := by
  induction ss with
  | nil => rfl
  | cons s ss ih => simp [bareList, ih]

mutual

theorem Stmt.refs_bare (vs : List LocalDecl) (s : Stmt) :
    s.bare.refs vs = (s.refs vs).map (Prod.map id Ref.bare) := by
  match s with
  | .block _ body => simp [bare, refs, refsList_bare vs body]
  | .decl _ init => simp [bare, refs, init.refs_bare]
  | .assign lhs rhs => simp [bare, refs, lhs.refs_bare, rhs.refs_bare, comp_def]
  | .call c => simp [bare, refs, c.refs_bare]
  | .ifThen _ cond body | .loop _ cond body =>
    simp [bare, refs, cond.refs_bare, body.refs_bare vs]
  | .ifElse _ cond body other =>
    simp [bare, refs, cond.refs_bare, body.refs_bare vs, other.refs_bare vs]

theorem Stmt.refsList_bare (vs : List LocalDecl) (ss : List Stmt) :
    refsList vs (bareList ss) = (refsList vs ss).map (Prod.map id Ref.bare) := by
  match ss with
  | [] => rfl
  | s :: ss =>
    simp [bareList, refsList, s.refs_bare vs, refsList_bare (vs ++ s.declared) ss]

end

theorem MethodDecl.refs_bare (m : MethodDecl) :
    m.bare.refs = m.refs.map (Prod.map id Ref.bare) := by
  simp only [refs, bare, List.map_append, refsList_bare,
    declared_bareList]
  cases m.result with
  | none => rfl
  | some e => simp [Expr.refs_bare]

theorem MethodDecl.params_of_bare {m m' : MethodDecl} (h : m'.bare = m.bare) :
    m'.params = m.params := by
  have hpar : m'.bare.params = m.bare.params := by rw [h]
  exact hpar

/-! ### Names of bare packages -/

theorem Package.method?_bare (p : Package) (id : MemberId) :
    p.bare.method? id = (p.method? id).map MethodDecl.bare := by
  simp [method?, class?, bare, ClassDecl.bare, bind_map,
    map_bind, comp_def]

theorem ClassDecl.memberNames_bare (c : ClassDecl) (cls : Nat) :
    c.bare.memberNames cls = c.memberNames cls := by
  simp [memberNames, bare, MethodDecl.bare, List.zipIdx_map]

theorem Package.classNames_bare (p : Package) : p.bare.classNames = p.classNames := by
  simp [classNames, bare, ClassDecl.bare, List.zipIdx_map]

theorem Package.member?_bare (p : Package) (cls : Nat) (name : String) :
    p.bare.member? cls name = p.member? cls name := by
  simp [member?, class?, bare, bind_map, comp_def,
    memberNames_bare]

/-- Packages that differ in nothing but what is found out about them give names the same
meaning. -/
theorem Package.signature_congr {p q : Package} (h : q.bare = p.bare) : q.signature = p.signature := by
  have hb : ∀ p : Package, p.bare.signature = p.signature := by
    intro p
    have hfld : p.bare.field? = p.field? := by
      funext id
      simp [field?, class?, bare, ClassDecl.bare, bind_map, comp_def]
    have hmeth : ∀ id, (p.bare.method? id).map MethodDecl.profile = (p.method? id).map MethodDecl.profile := by
      intro id
      rw [method?_bare, map_map]
      rfl
    have hcls : ∀ i, (p.bare.class? i).map (·.name) = (p.class? i).map (·.name) := by
      intro i
      simp [class?, bare, ClassDecl.bare, comp_def]
    simp only [signature, hfld, hmeth, hcls]
  rw [← hb q, h, hb]

theorem Enclosure.lookup_congr {p q : Package} (h : q.bare = p.bare) (cls : Nat)
    (ds : List ParamDecl) : Enclosure.lookup ⟨q, cls, ds⟩ = Enclosure.lookup ⟨p, cls, ds⟩ := by
  funext vs name
  simp only [Enclosure.lookup]
  rw [← member?_bare q, ← classNames_bare q, h, member?_bare, classNames_bare]

theorem Ref.bound_congr {p q : Package} (h : q.bare = p.bare) {cls : Nat} {r : Ref}
    (hr : r.Bound ⟨p, cls, ds⟩ vs) : r.Bound ⟨q, cls, ds⟩ vs := by
  match r with
  | .this .. | .elem .. => trivial
  | .id .. => exact ⟨hr.1, Enclosure.lookup_congr h cls ds ▸ hr.2⟩
  | .member _ _ _ _ true _ => exact hr
  | .member _ _ name _ false _ =>
    obtain ⟨i, n, hn, htype, hsome, hb⟩ := hr
    refine ⟨i, n, ?_, htype, hsome, hb.trans ?_⟩
    · have hnms := congrArg (fun p : Package => (p.class? i).map (·.name)) h
      simp only [Package.class?, Package.bare, List.getElem?_map, map_map] at hnms
      exact hnms.trans hn
    · show p.member? i name = q.member? i name
      rw [← member?_bare q, h, member?_bare]

end MiniJam
