import MiniJam.Proofs.Tree.Complete
import MiniJam.Proofs.Typing.Rules

/-!
# Trees as they are read

A tree that has just been read is not bound yet: no identifier and no member has a binding, no member
is known to be the length of an array, and no class is predefined.  Its types are types of values, apart from the
types of members, which may be `void`.  All trees of the grammar have this form, and so has every
package that is read (`Package.fresh_of_parse`).
-/

namespace MiniJam

mutual

def Ref.Fresh (r : Ref) : Prop :=
  match r with
  | .this .. => True
  | .id _ _ b _ => b = none
  | .member base _ _ b isLength _ => b = none ∧ isLength = false ∧ base.Fresh
  | .elem base index _ => base.Fresh ∧ index.Fresh

def Expr.Fresh (e : Expr) : Prop :=
  match e with
  | .ref r => r.Fresh
  | .int .. | .bool .. | .newObject .. => True
  | .unary _ _ operand _ => operand.Fresh
  | .binary op lhs rhs _ => op ≠ .not ∧ lhs.Fresh ∧ rhs.Fresh
  | .newArray _ elem size _ => (Ty.array elem).IsValue ∧ size.Fresh
  | .call c => c.Fresh

def Expr.FreshList (es : List Expr) : Prop :=
  match es with
  | [] => True
  | e :: es => e.Fresh ∧ Expr.FreshList es

def Call.Fresh (c : Call) : Prop :=
  match c with
  | .mk method args _ _ _ => method.Fresh ∧ Expr.FreshList args

end

mutual

def Stmt.Fresh (s : Stmt) : Prop :=
  match s with
  | .block _ body => Stmt.FreshList body
  | .decl d init => d.type.IsValue ∧ init.Fresh
  | .assign lhs rhs => lhs.Fresh ∧ rhs.Fresh
  | .call c => c.Fresh
  | .ifThen _ cond body => cond.Fresh ∧ body.Fresh
  | .ifElse _ cond body other => cond.Fresh ∧ body.Fresh ∧ other.Fresh
  | .loop _ cond body => cond.Fresh ∧ body.Fresh

def Stmt.FreshList (ss : List Stmt) : Prop :=
  match ss with
  | [] => True
  | s :: ss => s.Fresh ∧ Stmt.FreshList ss

end

theorem Stmt.FreshList.mem (h : Stmt.FreshList ss) : ∀ s ∈ ss, s.Fresh := by
  induction ss with
  | nil => exact nofun
  | cons s ss ih =>
    intro s' hs'
    obtain rfl | hs' := List.mem_cons.1 hs'
    · exact h.1
    · exact ih h.2 s' hs'

/-- The method is as it is read. -/
structure MethodDecl.Fresh (m : MethodDecl) : Prop where
  type : m.type.IsMember
  params : ∀ d ∈ m.params, d.type.IsValue
  body : Stmt.FreshList m.body
  result : ∀ e ∈ m.result, e.Fresh

/-- The class is as it is read. -/
structure ClassDecl.Fresh (c : ClassDecl) : Prop where
  declared : c.predefined = false
  fields : ∀ f ∈ c.fields, f.type.IsMember
  methods : ∀ m ∈ c.methods, m.Fresh

/-- The package is as it is read. -/
structure Package.Fresh (p : Package) : Prop where
  classes : ∀ c ∈ p.classes, c.Fresh
  entry : p.entry = none
  println : p.println = none

/-! ### Trees of the grammar -/

variable {ts : List Token}

theorem Ty.Derives.isValue {ty : Ty} (h : ty.Derives ts) : ty.IsValue := by
  cases h <;> trivial

theorem Ty.MemberDerives.isMember {ty : Ty} (h : ty.MemberDerives ts) : ty.IsMember := by
  cases h with
  | void => exact .inl rfl
  | type hty => exact .inr hty.isValue

theorem Expr.Derives.fresh {n : Nat} {e : Expr} (h : Expr.Derives n e ts) : e.Fresh := by
  -- The same holds of the references, arguments and calls in the expression.
  refine @Expr.Derives.rec (fun r _ _ => r.Fresh) (fun r _ _ => r.Fresh) (fun _ e _ _ => e.Fresh)
    (fun es _ _ => Expr.FreshList es) (fun c _ _ => c.Fresh)
    ?_ ?_ ?_ ?_ ?_ ?_ ?_ ?_ ?_ ?_ ?_ ?_ ?_ ?_ ?_ ?_ ?_ ?_ ?_ ?_ ?_ n e ts h
  all_goals
    intros
    simp_all [Ref.Fresh, Expr.Fresh, Expr.FreshList, Call.Fresh, Ty.IsValue]
  rintro rfl
  simp_all [Operator.level]

theorem Stmt.DerivesList.fresh (h : Stmt.DerivesList ss ts) : Stmt.FreshList ss := by
  refine @Stmt.DerivesList.rec (fun s _ _ => s.Fresh) (fun ss _ _ => Stmt.FreshList ss)
    ?_ ?_ ?_ ?_ ?_ ?_ ?_ ?_ ?_ ss ts h
  · exact fun _ _ _ ih => ih
  · exact fun hty _ _ he _ => ⟨hty.isValue, he.fresh⟩
  · exact fun hr _ he _ => ⟨(Expr.Derives.ref hr).fresh, he.fresh⟩
  · exact fun hc _ => (Expr.Derives.call hc).fresh
  · exact fun _ _ he _ _ ih => ⟨he.fresh, ih⟩
  · exact fun _ _ he _ _ _ _ ih ih' => ⟨he.fresh, ih, ih'⟩
  · exact fun _ _ he _ _ ih => ⟨he.fresh, ih⟩
  · trivial
  · exact fun _ _ ih ih' => ⟨ih, ih'⟩

theorem ParamDecl.DerivesList.isValue (h : DerivesList ps ts) : ∀ d ∈ ps, d.type.IsValue := by
  induction h with
  | one hty => simpa using hty.isValue
  | more hty _ _ _ ih => simpa using ⟨hty.isValue, ih⟩

theorem MethodDecl.Derives.fresh {m : MethodDecl} (h : m.Derives ts) : m.Fresh := by
  obtain ⟨hv, hs, hty, hn, hpar, ho, hbody, hres, hc⟩ := h
  refine ⟨hty.isMember, ?_, hbody.fresh, ?_⟩
  · cases hpar with
    | none => exact nofun
    | some _ hps => exact hps.isValue
  · cases hres with
    | none | plain => exact nofun
    | value _ he => simpa using he.fresh

theorem ClassDecl.MembersDerive.fresh (h : MembersDerive fs ms ts) :
    (∀ f ∈ fs, f.type.IsMember) ∧ ∀ m ∈ ms, m.Fresh := by
  induction h with
  | nil => exact ⟨nofun, nofun⟩
  | field hf _ ih =>
    obtain ⟨-, -, hty, -, -⟩ := hf
    exact ⟨List.forall_mem_cons.2 ⟨hty.isMember, ih.1⟩, ih.2⟩
  | method hm _ ih => exact ⟨ih.1, List.forall_mem_cons.2 ⟨hm.fresh, ih.2⟩⟩

theorem ClassDecl.DerivesList.fresh (h : DerivesList cs ts) : ∀ c ∈ cs, c.Fresh := by
  induction h with
  | nil => exact nofun
  | cons hc _ ih =>
    obtain ⟨-, -, -, hms, -⟩ := hc
    exact List.forall_mem_cons.2 ⟨⟨rfl, hms.fresh.1, hms.fresh.2⟩, ih⟩

theorem Package.fresh_of_parse {file : String} {source : List UInt8}
    (h : Package.parse file source = .ok p) : p.Fresh := by
  have hp := (Package.parse_eq_ok_iff.1 h).1
  generalize Package.tokens file source = ts at hp
  obtain ⟨hcs, -⟩ := hp
  exact ⟨hcs.fresh, rfl, rfl⟩

end MiniJam
