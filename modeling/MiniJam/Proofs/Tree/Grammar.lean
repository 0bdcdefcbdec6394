import MiniJam.Token
import MiniJam.Tree

/-!
# The grammar

Which tokens make up which tree.  There is one relation for every symbol of the grammar and one rule
for every production; a rule also says what the tree of the production is, with its places.  The
grammar knows nothing of reading from left to right: operators with two operands are left-recursive,
and an `else` can belong to any `if` before it that has none.

`Stmt.ElseNearest` singles out the trees in which every `else` belongs to the nearest `if`.  Every
list of tokens that makes up a statement makes up one of these (`Stmt.Derives.exists_nearest`).
-/

namespace MiniJam

open List

/-! ### Operators and types -/

def Operator.kind : Operator → Kind
  | or => .or | and => .and | eq => .eq | ne => .ne | lt => .lt | le => .le | gt => .gt | ge => .ge
  | plus => .plus | minus => .minus | mul => .mul | div => .div | not => .not

/-- The level of an operator between two operands; those of a lower level bind tighter.  Level zero
is that of the operators in front of one operand. -/
def Operator.level : Operator → Nat
  | not => 0
  | mul | div => 1
  | plus | minus => 2
  | lt | le | gt | ge => 3
  | eq | ne => 4
  | and => 5
  | or => 6

theorem Operator.kind_injective {a b : Operator} (h : a.kind = b.kind) : a = b := by
  revert h
  cases a <;> cases b <;> decide

def Operator.loosest : Nat := Operator.or.level

/-- The types. -/
inductive Ty.Derives : Ty → List Token → Prop
  | boolean {t : Token} (ht : t.kind = .kwBoolean) : Derives .boolean [t]
  | int {t : Token} (ht : t.kind = .kwInt) : Derives .int [t]
  | cls {t : Token} (ht : t.kind = .id) : Derives (.cls t.spelling) [t]
  | intArray {t l r : Token} (ht : t.kind = .kwInt) (hl : l.kind = .lsquare)
      (hr : r.kind = .rsquare) : Derives (.array .int) [t, l, r]
  | clsArray {t l r : Token} (ht : t.kind = .id) (hl : l.kind = .lsquare)
      (hr : r.kind = .rsquare) : Derives (.array (.cls t.spelling)) [t, l, r]

/-! ### Expressions -/

mutual

/-- References that do not end with an index. -/
inductive Ref.Stem : Ref → List Token → Prop
  | this {t : Token} (ht : t.kind = .kwThis) : Ref.Stem (.this t.span .error) [t]
  | id {t : Token} (ht : t.kind = .id) : Ref.Stem (.id t.span t.spelling none .error) [t]
  | member {r : Ref} {rs : List Token} {d n : Token} (hr : Ref.Derives r rs) (hd : d.kind = .dot)
      (hn : n.kind = .id) :
      Ref.Stem (.member r n.span n.spelling none false .error) (rs ++ [d, n])

/-- References: a name or `this`, and after it any number of members, each of which, like the
first part, can have an index. -/
inductive Ref.Derives : Ref → List Token → Prop
  | stem {r : Ref} {rs : List Token} (hr : Ref.Stem r rs) : Ref.Derives r rs
  | elem {r : Ref} {rs : List Token} {e : Expr} {es : List Token} {o c : Token}
      (hr : Ref.Stem r rs) (ho : o.kind = .lsquare) (he : Expr.Derives Operator.loosest e es)
      (hc : c.kind = .rsquare) : Ref.Derives (.elem r e .error) (rs ++ o :: es ++ [c])

/-- Expressions whose operators outside parentheses have at most a certain level. -/
inductive Expr.Derives : Nat → Expr → List Token → Prop
  | lift {n : Nat} {e : Expr} {es : List Token} (he : Expr.Derives n e es) :
      Expr.Derives (n + 1) e es
  | binary {op : Operator} {n : Nat} {t : Token} {lhs rhs : Expr} {ls rs : List Token}
      (hl : Expr.Derives (n + 1) lhs ls) (hn : op.level = n + 1) (ht : t.kind = op.kind)
      (hr : Expr.Derives n rhs rs) :
      Expr.Derives (n + 1) (.binary op lhs rhs .error) (ls ++ t :: rs)
  | unary {op : Operator} {t : Token} {e : Expr} {es : List Token} (hop : op = .not ∨ op = .minus)
      (ht : t.kind = op.kind) (he : Expr.Derives 0 e es) :
      Expr.Derives 0 (.unary t.span op e .error) (t :: es)
  | num {t : Token} (ht : t.kind = .num) : Expr.Derives 0 (.int t.span t.spelling .error) [t]
  | tru {t : Token} (ht : t.kind = .kwTrue) : Expr.Derives 0 (.bool t.span true .error) [t]
  | fals {t : Token} (ht : t.kind = .kwFalse) : Expr.Derives 0 (.bool t.span false .error) [t]
  | paren {o c : Token} {e : Expr} {es : List Token} (ho : o.kind = .lparen)
      (he : Expr.Derives Operator.loosest e es) (hc : c.kind = .rparen) :
      Expr.Derives 0 e (o :: es ++ [c])
  | ref {r : Ref} {rs : List Token} (hr : Ref.Derives r rs) : Expr.Derives 0 (.ref r) rs
  | call {c : Call} {cs : List Token} (hc : Call.Derives c cs) : Expr.Derives 0 (.call c) cs
  | newObject {n t o c : Token} (hn : n.kind = .kwNew) (ht : t.kind = .id) (ho : o.kind = .lparen)
      (hc : c.kind = .rparen) :
      Expr.Derives 0 (.newObject (n.span.merge c.span) t.spelling none .error) [n, t, o, c]
  | newInts {n t o c : Token} {e : Expr} {es : List Token} (hn : n.kind = .kwNew)
      (ht : t.kind = .kwInt) (ho : o.kind = .lsquare) (he : Expr.Derives Operator.loosest e es)
      (hc : c.kind = .rsquare) :
      Expr.Derives 0 (.newArray n.span .int e .error) (n :: t :: o :: es ++ [c])
  | newObjects {n t o c : Token} {e : Expr} {es : List Token} (hn : n.kind = .kwNew)
      (ht : t.kind = .id) (ho : o.kind = .lsquare) (he : Expr.Derives Operator.loosest e es)
      (hc : c.kind = .rsquare) :
      Expr.Derives 0 (.newArray n.span (.cls t.spelling) e .error) (n :: t :: o :: es ++ [c])

/-- Arguments: one expression or more with commas between them. -/
inductive Expr.DerivesList : List Expr → List Token → Prop
  | one {e : Expr} {es : List Token} (he : Expr.Derives Operator.loosest e es) :
      Expr.DerivesList [e] es
  | more {e : Expr} {es : List Token} {t : Token} {args : List Expr} {as : List Token}
      (he : Expr.Derives Operator.loosest e es) (ht : t.kind = .comma)
      (hargs : Expr.DerivesList args as) : Expr.DerivesList (e :: args) (es ++ t :: as)

/-- Calls. -/
inductive Call.Derives : Call → List Token → Prop
  | plain {r : Ref} {rs : List Token} {o c : Token} (hr : Ref.Derives r rs) (ho : o.kind = .lparen)
      (hc : c.kind = .rparen) : Call.Derives (.mk r [] c.span none .error) (rs ++ [o, c])
  | args {r : Ref} {rs : List Token} {o c : Token} {args : List Expr} {as : List Token}
      (hr : Ref.Derives r rs) (ho : o.kind = .lparen) (hargs : Expr.DerivesList args as)
      (hc : c.kind = .rparen) : Call.Derives (.mk r args c.span none .error) (rs ++ o :: as ++ [c])

end

/-! ### Statements -/

mutual

/-- Statements. -/
inductive Stmt.Derives : Stmt → List Token → Prop
  | block {o c : Token} {body : List Stmt} {bs : List Token} (ho : o.kind = .lcurly)
      (hbody : Stmt.DerivesList body bs) (hc : c.kind = .rcurly) :
      Stmt.Derives (.block o.span body) (o :: bs ++ [c])
  | decl {ty : Ty} {ts : List Token} {n a s : Token} {e : Expr} {es : List Token}
      (hty : Ty.Derives ty ts) (hn : n.kind = .id) (ha : a.kind = .assign)
      (he : Expr.Derives Operator.loosest e es) (hs : s.kind = .semicolon) :
      Stmt.Derives (.decl ⟨n.span, n.spelling, ty⟩ e) (ts ++ n :: a :: es ++ [s])
  | assign {r : Ref} {rs : List Token} {a s : Token} {e : Expr} {es : List Token}
      (hr : Ref.Derives r rs) (ha : a.kind = .assign) (he : Expr.Derives Operator.loosest e es)
      (hs : s.kind = .semicolon) : Stmt.Derives (.assign r e) (rs ++ a :: es ++ [s])
  | call {c : Call} {cs : List Token} {s : Token} (hc : Call.Derives c cs)
      (hs : s.kind = .semicolon) : Stmt.Derives (.call c) (cs ++ [s])
  | ifThen {i o c : Token} {cond : Expr} {es : List Token} {body : Stmt} {bs : List Token}
      (hi : i.kind = .kwIf) (ho : o.kind = .lparen) (hcond : Expr.Derives Operator.loosest cond es)
      (hc : c.kind = .rparen) (hbody : Stmt.Derives body bs) :
      Stmt.Derives (.ifThen i.span cond body) (i :: o :: es ++ c :: bs)
  | ifElse {i o c t : Token} {cond : Expr} {es : List Token} {body other : Stmt}
      {bs ss : List Token} (hi : i.kind = .kwIf) (ho : o.kind = .lparen)
      (hcond : Expr.Derives Operator.loosest cond es) (hc : c.kind = .rparen)
      (hbody : Stmt.Derives body bs) (ht : t.kind = .kwElse) (hother : Stmt.Derives other ss) :
      Stmt.Derives (.ifElse i.span cond body other) (i :: o :: es ++ c :: bs ++ t :: ss)
  | loop {w o c : Token} {cond : Expr} {es : List Token} {body : Stmt} {bs : List Token}
      (hw : w.kind = .kwWhile) (ho : o.kind = .lparen)
      (hcond : Expr.Derives Operator.loosest cond es) (hc : c.kind = .rparen)
      (hbody : Stmt.Derives body bs) :
      Stmt.Derives (.loop w.span cond body) (w :: o :: es ++ c :: bs)

/-- Statements one after another. -/
inductive Stmt.DerivesList : List Stmt → List Token → Prop
  | nil : Stmt.DerivesList [] []
  | cons {s : Stmt} {ss : List Stmt} {ts us : List Token} (hs : Stmt.Derives s ts)
      (hss : Stmt.DerivesList ss us) : Stmt.DerivesList (s :: ss) (ts ++ us)

end

/-- The statement ends with an `if` that has no `else`, so that an `else` after it would belong to
it. -/
def Stmt.EndsOpen : Stmt → Prop
  | .ifThen .. => True
  | .ifElse _ _ _ other => other.EndsOpen
  | .loop _ _ body => body.EndsOpen
  | .block .. | .decl .. | .assign .. | .call .. => False

mutual

/-- Every `else` of the statement belongs to the nearest `if`. -/
def Stmt.ElseNearest : Stmt → Prop
  | .block _ body => Stmt.ElseNearestList body
  | .ifThen _ _ body => body.ElseNearest
  | .ifElse _ _ body other => body.ElseNearest ∧ ¬ body.EndsOpen ∧ other.ElseNearest
  | .loop _ _ body => body.ElseNearest
  | .decl .. | .assign .. | .call .. => True

/-- Every `else` of the statements belongs to the nearest `if`. -/
def Stmt.ElseNearestList : List Stmt → Prop
  | [] => True
  | s :: ss => s.ElseNearest ∧ Stmt.ElseNearestList ss

end

/-- An `else` after a statement that ends with an `if` without one can be given to the nearest
such `if`. -/
theorem Stmt.Derives.exists_else {body : Stmt} (h : body.Derives bs) (hn : body.ElseNearest)
    (hopen : body.EndsOpen) {t : Token} (ht : t.kind = .kwElse) {other : Stmt}
    (hoth : other.Derives ss) (hn' : other.ElseNearest) :
    ∃ s, Stmt.Derives s (bs ++ t :: ss) ∧ s.ElseNearest := by
  match h with
  | .block .. | .decl .. | .assign .. | .call .. => exact hopen.elim
  | .ifThen hi ho hcond hc hb =>
    rename_i inner _
    by_cases hinn : inner.EndsOpen
    · obtain ⟨s, hs, hn⟩ := hb.exists_else hn hinn ht hoth hn'
      exact ⟨.ifThen _ _ s, by simpa using Stmt.Derives.ifThen hi ho hcond hc hs, hn⟩
    · exact ⟨_, .ifElse hi ho hcond hc hb ht hoth, hn, hinn, hn'⟩
  | .ifElse hi ho hcond hc hb ht' hl =>
    rename_i inner _ _ _
    obtain ⟨s, hs, hl⟩ := hl.exists_else hn.2.2 hopen ht hoth hn'
    exact ⟨.ifElse _ _ inner s, by simpa using Stmt.Derives.ifElse hi ho hcond hc hb ht' hs,
      hn.1, hn.2.1, hl⟩
  | .loop hw ho hcond hc hb =>
    obtain ⟨s, hs, hn⟩ := hb.exists_else hn hopen ht hoth hn'
    exact ⟨.loop _ _ s, by simpa using Stmt.Derives.loop hw ho hcond hc hs, hn⟩

mutual

/-- Tokens that make up a statement make up one in which every `else` belongs to the nearest
`if`. -/
theorem Stmt.Derives.exists_nearest {s : Stmt} (h : s.Derives ts) :
    ∃ s', Stmt.Derives s' ts ∧ s'.ElseNearest := by
  match h with
  | .block ho hb hc =>
    obtain ⟨body, hb, hnear⟩ := hb.exists_nearest
    exact ⟨_, .block ho hb hc, hnear⟩
  | .decl hty hn ha he hs => exact ⟨_, .decl hty hn ha he hs, trivial⟩
  | .assign hr ha he hs => exact ⟨_, .assign hr ha he hs, trivial⟩
  | .call hc hs => exact ⟨_, .call hc hs, trivial⟩
  | .ifThen hi ho hcond hc hb =>
    obtain ⟨body, hb, hnear⟩ := hb.exists_nearest
    exact ⟨_, .ifThen hi ho hcond hc hb, hnear⟩
  | .ifElse hi ho hcond hc hb ht hoth =>
    obtain ⟨body, hb, hnear⟩ := hb.exists_nearest
    obtain ⟨other, hoth, hnear'⟩ := hoth.exists_nearest
    by_cases hopen : body.EndsOpen
    · obtain ⟨s, hs, hnear⟩ := hb.exists_else hnear hopen ht hoth hnear'
      exact ⟨.ifThen _ _ s, by simpa using Stmt.Derives.ifThen hi ho hcond hc hs, hnear⟩
    · exact ⟨_, .ifElse hi ho hcond hc hb ht hoth, hnear, hopen, hnear'⟩
  | .loop hw ho hcond hc hb =>
    obtain ⟨body, hb, hnear⟩ := hb.exists_nearest
    exact ⟨_, .loop hw ho hcond hc hb, hnear⟩

theorem Stmt.DerivesList.exists_nearest (h : Stmt.DerivesList ss ts) :
    ∃ ss', Stmt.DerivesList ss' ts ∧ Stmt.ElseNearestList ss' := by
  match h with
  | .nil => exact ⟨[], .nil, trivial⟩
  | .cons hs hss =>
    obtain ⟨s, hs, hn⟩ := hs.exists_nearest
    obtain ⟨ss, hss, hn'⟩ := hss.exists_nearest
    exact ⟨s :: ss, .cons hs hss, hn, hn'⟩

end

/-! ### Declarations -/

/-- Parameters: one or more with commas between them. -/
inductive ParamDecl.DerivesList : List ParamDecl → List Token → Prop
  | one {ty : Ty} {ts : List Token} {n : Token} (hty : Ty.Derives ty ts) (hn : n.kind = .id) :
      DerivesList [⟨n.span, n.spelling, ty⟩] (ts ++ [n])
  | more {ty : Ty} {ts : List Token} {n t : Token} {ps : List ParamDecl} {us : List Token}
      (hty : Ty.Derives ty ts) (hn : n.kind = .id) (ht : t.kind = .comma)
      (hps : ParamDecl.DerivesList ps us) :
      DerivesList (⟨n.span, n.spelling, ty⟩ :: ps) (ts ++ n :: t :: us)

/-- The parameters of a method in their parentheses. -/
inductive ParamDecl.DerivesAll : List ParamDecl → List Token → Prop
  | none {o c : Token} (ho : o.kind = .lparen) (hc : c.kind = .rparen) : DerivesAll [] [o, c]
  | some {o c : Token} {ps : List ParamDecl} {us : List Token} (ho : o.kind = .lparen)
      (hps : ParamDecl.DerivesList ps us) (hc : c.kind = .rparen) : DerivesAll ps (o :: us ++ [c])

/-- The end of a method: nothing, or a `return`, which can have a value. -/
inductive MethodDecl.ResultDerives : Option Expr → List Token → Prop
  | none : ResultDerives .none []
  | plain {t s : Token} (ht : t.kind = .kwReturn) (hs : s.kind = .semicolon) :
      ResultDerives .none [t, s]
  | value {t s : Token} {e : Expr} {es : List Token} (ht : t.kind = .kwReturn)
      (he : Expr.Derives Operator.loosest e es) (hs : s.kind = .semicolon) :
      ResultDerives (.some e) (t :: es ++ [s])

/-- The visibility of a member, and whether it is private. -/
inductive VisibilityDerives : Bool → List Token → Prop
  | absent : VisibilityDerives false []
  | isPublic {t : Token} (ht : t.kind = .kwPublic) : VisibilityDerives false [t]
  | isPrivate {t : Token} (ht : t.kind = .kwPrivate) : VisibilityDerives true [t]

/-- Whether a member is static. -/
inductive StaticDerives : Bool → List Token → Prop
  | absent : StaticDerives false []
  | isStatic {t : Token} (ht : t.kind = .kwStatic) : StaticDerives true [t]

/-- The type of a member. -/
inductive Ty.MemberDerives : Ty → List Token → Prop
  | void {t : Token} (ht : t.kind = .kwVoid) : MemberDerives .void [t]
  | type {ty : Ty} {ts : List Token} (hty : Ty.Derives ty ts) : MemberDerives ty ts

/-- Fields. -/
inductive FieldDecl.Derives : FieldDecl → List Token → Prop
  | mk {isPrivate isStatic : Bool} {vs ss : List Token} {ty : Ty} {ts : List Token} {n s : Token}
      (hv : VisibilityDerives isPrivate vs) (hs : StaticDerives isStatic ss)
      (hty : Ty.MemberDerives ty ts) (hn : n.kind = .id) (hs : s.kind = .semicolon) :
      Derives ⟨n.span, n.spelling, ty, isPrivate, isStatic⟩ (vs ++ ss ++ ts ++ [n, s])

/-- Methods. -/
inductive MethodDecl.Derives : MethodDecl → List Token → Prop
  | mk {isPrivate isStatic : Bool} {vs ss : List Token} {ty : Ty} {ts : List Token} {n o c : Token}
      {params : List ParamDecl} {ps : List Token} {body : List Stmt} {bs : List Token}
      {result : Option Expr} {rs : List Token} (hv : VisibilityDerives isPrivate vs)
      (hs : StaticDerives isStatic ss) (hty : Ty.MemberDerives ty ts) (hn : n.kind = .id)
      (hparams : ParamDecl.DerivesAll params ps) (ho : o.kind = .lcurly)
      (hbody : Stmt.DerivesList body bs) (hresult : MethodDecl.ResultDerives result rs)
      (hc : c.kind = .rcurly) :
      Derives ⟨n.span, n.spelling, ty, isPrivate, isStatic, params, body, result⟩
        (vs ++ ss ++ ts ++ n :: ps ++ o :: bs ++ rs ++ [c])

/-- The members of a class: its fields and its methods, which can stand in any order. -/
inductive ClassDecl.MembersDerive : List FieldDecl → List MethodDecl → List Token → Prop
  | nil : MembersDerive [] [] []
  | field {f : FieldDecl} {ts : List Token} {fs : List FieldDecl} {ms : List MethodDecl}
      {us : List Token} (hf : f.Derives ts) (h : MembersDerive fs ms us) :
      MembersDerive (f :: fs) ms (ts ++ us)
  | method {m : MethodDecl} {ts : List Token} {fs : List FieldDecl} {ms : List MethodDecl}
      {us : List Token} (hm : m.Derives ts) (h : MembersDerive fs ms us) :
      MembersDerive fs (m :: ms) (ts ++ us)

/-- Classes. -/
inductive ClassDecl.Derives : ClassDecl → List Token → Prop
  | mk {k n o c : Token} {fs : List FieldDecl} {ms : List MethodDecl} {ts : List Token}
      (hk : k.kind = .kwClass) (hn : n.kind = .id) (ho : o.kind = .lcurly)
      (h : ClassDecl.MembersDerive fs ms ts) (hc : c.kind = .rcurly) :
      Derives ⟨n.span, n.spelling, fs, ms, false⟩ (k :: n :: o :: ts ++ [c])

/-- Classes one after another. -/
inductive ClassDecl.DerivesList : List ClassDecl → List Token → Prop
  | nil : DerivesList [] []
  | cons {c : ClassDecl} {cs : List ClassDecl} {ts us : List Token} (hc : c.Derives ts)
      (hcs : DerivesList cs us) : DerivesList (c :: cs) (ts ++ us)

/-- Packages: classes up to the end of the source. -/
inductive Package.Derives (file : String) : Package → List Token → Prop
  | mk {cs : List ClassDecl} {ts : List Token} {e : Token} (hcs : ClassDecl.DerivesList cs ts)
      (he : e.kind = .eof) : Derives file ⟨file, cs, none, none⟩ (ts ++ [e])

/-- Every `else` of the class belongs to the nearest `if`. -/
def ClassDecl.ElseNearest (c : ClassDecl) : Prop :=
  ∀ m ∈ c.methods, Stmt.ElseNearestList m.body

/-- Every `else` of the package belongs to the nearest `if`. -/
def Package.ElseNearest (p : Package) : Prop :=
  ∀ c ∈ p.classes, c.ElseNearest

variable {ts : List Token}

theorem MethodDecl.Derives.exists_nearest {m : MethodDecl} (h : m.Derives ts) :
    ∃ m', MethodDecl.Derives m' ts ∧ Stmt.ElseNearestList m'.body := by
  obtain ⟨hv, hs, hty, hn, hpar, ho, hb, hres, hc⟩ := h
  obtain ⟨body, hb, hnear⟩ := hb.exists_nearest
  exact ⟨_, .mk hv hs hty hn hpar ho hb hres hc, hnear⟩

theorem ClassDecl.MembersDerive.exists_nearest (h : MembersDerive fs ms ts) :
    ∃ ms', MembersDerive fs ms' ts ∧ ∀ m ∈ ms', Stmt.ElseNearestList m.body := by
  induction h with
  | nil => exact ⟨[], .nil, nofun⟩
  | field hf _ ih =>
    obtain ⟨ms, hms, hn⟩ := ih
    exact ⟨ms, .field hf hms, hn⟩
  | method hm _ ih =>
    obtain ⟨m, hm, hn⟩ := hm.exists_nearest
    obtain ⟨ms, hms, hn'⟩ := ih
    exact ⟨m :: ms, .method hm hms, forall_mem_cons.2 ⟨hn, hn'⟩⟩

theorem ClassDecl.DerivesList.exists_nearest (h : DerivesList cs ts) :
    ∃ cs', DerivesList cs' ts ∧ ∀ c ∈ cs', c.ElseNearest := by
  induction h with
  | nil => exact ⟨[], .nil, nofun⟩
  | cons hc _ ih =>
    obtain ⟨hk, hn, ho, hms, hc⟩ := hc
    obtain ⟨ms, hms, hnear⟩ := hms.exists_nearest
    obtain ⟨cs, hcs, hnear'⟩ := ih
    exact ⟨_ :: cs, .cons (.mk hk hn ho hms hc) hcs, forall_mem_cons.2 ⟨hnear, hnear'⟩⟩

/-- Tokens that make up a package make up one in which every `else` belongs to the nearest `if`. -/
theorem Package.Derives.exists_nearest {file : String} (h : Package.Derives file p ts) :
    ∃ p', Package.Derives file p' ts ∧ p'.ElseNearest := by
  obtain ⟨hcs, he⟩ := h
  obtain ⟨cs, hcs, hnear⟩ := hcs.exists_nearest
  exact ⟨_, .mk hcs he, hnear⟩

/-! ### Invalid tokens and the end -/

def Token.AllValid (ts : List Token) : Prop := ∀ t ∈ ts, t.kind ≠ .invalid

/-- There is no invalid token among the tokens, and none of them is the end. -/
def Token.AllWritten (ts : List Token) : Prop := ∀ t ∈ ts, t.kind ≠ .invalid ∧ t.kind ≠ .eof

namespace Token

@[simp] theorem allWritten_nil : AllWritten [] := nofun

@[simp] theorem allWritten_cons :
    AllWritten (t :: ts) ↔ (t.kind ≠ .invalid ∧ t.kind ≠ .eof) ∧ AllWritten ts :=
  forall_mem_cons

@[simp] theorem allWritten_append :
    AllWritten (ts ++ us) ↔ AllWritten ts ∧ AllWritten us := forall_mem_append

end Token

theorem Operator.isWritten_kind (op : Operator) : op.kind ≠ .invalid ∧ op.kind ≠ .eof := by
  cases op <;> decide

theorem Ty.Derives.allWritten {ty : Ty} (h : ty.Derives ts) : Token.AllWritten ts := by
  cases h <;> simp [*]

theorem Expr.Derives.allWritten {n : Nat} {e : Expr} (h : Expr.Derives n e ts) :
    Token.AllWritten ts := by
  -- The same holds of the references, arguments and calls in the expression.
  refine @Expr.Derives.rec (fun _ us _ => Token.AllWritten us) (fun _ us _ => Token.AllWritten us)
    (fun _ _ us _ => Token.AllWritten us) (fun _ us _ => Token.AllWritten us)
    (fun _ us _ => Token.AllWritten us) ?_ ?_ ?_ ?_ ?_ ?_ ?_ ?_ ?_ ?_ ?_ ?_ ?_ ?_ ?_ ?_ ?_ ?_ ?_ ?_ ?_
    n e ts h
  all_goals
    intros
    simp_all [Operator.isWritten_kind]

theorem Ref.Derives.allWritten {r : Ref} (h : r.Derives ts) : Token.AllWritten ts :=
  (Expr.Derives.ref h).allWritten

theorem Call.Derives.allWritten {c : Call} (h : c.Derives ts) : Token.AllWritten ts :=
  (Expr.Derives.call h).allWritten

theorem Stmt.DerivesList.allWritten (h : Stmt.DerivesList ss ts) : Token.AllWritten ts := by
  refine @Stmt.DerivesList.rec (fun _ us _ => Token.AllWritten us)
    (fun _ us _ => Token.AllWritten us) ?_ ?_ ?_ ?_ ?_ ?_ ?_ ?_ ?_ ss ts h
  · exact fun ho _ hc ih => by simp [ho, hc, ih]
  · exact fun hty hn ha he hs => by simp [hty.allWritten, hn, ha, he.allWritten, hs]
  · exact fun hr ha he hs => by simp [hr.allWritten, ha, he.allWritten, hs]
  · exact fun hc hs => by simp [hc.allWritten, hs]
  · exact fun hi ho he hc _ ih => by simp [hi, ho, he.allWritten, hc, ih]
  · exact fun hi ho he hc _ ht _ ih ih' => by simp [hi, ho, he.allWritten, hc, ht, ih, ih']
  · exact fun hw ho he hc _ ih => by simp [hw, ho, he.allWritten, hc, ih]
  · exact Token.allWritten_nil
  · exact fun _ _ ih ih' => by simp [ih, ih']

theorem ParamDecl.DerivesList.allWritten (h : DerivesList ps ts) : Token.AllWritten ts := by
  induction h with
  | one hty hn => simp [hty.allWritten, hn]
  | more hty hn ht _ ih => simp [hty.allWritten, hn, ht, ih]

theorem ParamDecl.DerivesAll.allWritten (h : DerivesAll ps ts) : Token.AllWritten ts := by
  cases h with
  | none ho hc => simp [ho, hc]
  | some ho hps hc => simp [ho, hps.allWritten, hc]

theorem MethodDecl.ResultDerives.allWritten {e : Option Expr}
    (h : ResultDerives e ts) : Token.AllWritten ts := by
  cases h with
  | none => exact Token.allWritten_nil
  | plain ht hs => simp [ht, hs]
  | value ht he hs => simp [ht, he.allWritten, hs]

theorem VisibilityDerives.allWritten {b : Bool} (h : VisibilityDerives b ts) :
    Token.AllWritten ts := by
  cases h <;> simp [*]

theorem StaticDerives.allWritten {b : Bool} (h : StaticDerives b ts) : Token.AllWritten ts := by
  cases h <;> simp [*]

theorem Ty.MemberDerives.allWritten {ty : Ty} (h : ty.MemberDerives ts) : Token.AllWritten ts := by
  cases h with
  | void ht => simp [ht]
  | type hty => exact hty.allWritten

theorem ClassDecl.MembersDerive.allWritten (h : MembersDerive fs ms ts) : Token.AllWritten ts := by
  induction h with
  | nil => exact Token.allWritten_nil
  | field hf _ ih =>
    obtain ⟨hv, hst, hty, hn, hs⟩ := hf
    simp [hv.allWritten, hst.allWritten, hty.allWritten, hn, hs, ih]
  | method hm _ ih =>
    obtain ⟨hv, hst, hty, hn, hpar, ho, hbody, hres, hc⟩ := hm
    simp [hv.allWritten, hst.allWritten, hty.allWritten, hn, hpar.allWritten, ho, hbody.allWritten,
      hres.allWritten, hc, ih]

theorem ClassDecl.DerivesList.allWritten (h : DerivesList cs ts) : Token.AllWritten ts := by
  induction h with
  | nil => exact Token.allWritten_nil
  | cons hc _ ih =>
    obtain ⟨hk, hn, ho, hms, hc⟩ := hc
    simp [hk, hn, ho, hms.allWritten, hc, ih]

theorem Package.Derives.allValid {file : String} (h : Package.Derives file p ts) :
    Token.AllValid ts := by
  obtain ⟨hcs, he⟩ := h
  intro t ht
  obtain ht | ht := mem_append.1 ht
  · exact (hcs.allWritten t ht).1
  · rw [mem_singleton.1 ht, he]
    decide

end MiniJam
