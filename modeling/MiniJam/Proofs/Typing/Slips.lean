import MiniJam.Proofs.Tree.Fresh
import MiniJam.Proofs.Typing.Agree

/-!
# Checks after an undeclared name

The check of a package and that of the package with an undeclared name in the place of an identifier are
compared part by part.  The trees of a part are the same, or the name is in one of them (`Near`).  At the
identifier the second check reports that the name is not declared.  From there on its types are those of
the first one, or they are not known (`Blurred`); no rule reports anything about a type that is not known,
and what the rule gives is blurred again.
-/

namespace MiniJam.Typing

open List Option

/-! ### Trees with an undeclared name in them -/

def undeclared (span : Span) (name : String) : Diagnostic :=
  ⟨some span, s!"Identifier `{name}' not declared."⟩

/-- Trees in which a name can be put in the place of an identifier. -/
class Misnames (α : Type) where
  Misnamed : Span → String → α → α → Prop

instance : Misnames Ref := ⟨Ref.Misnamed⟩

instance : Misnames Expr := ⟨Expr.Misnamed⟩

instance : Misnames (List Expr) := ⟨Expr.MisnamedList⟩

instance : Misnames Call := ⟨Call.Misnamed⟩

instance : Misnames Stmt := ⟨Stmt.Misnamed⟩

instance : Misnames (List Stmt) := ⟨Stmt.MisnamedList⟩

open Misnames

/-- The two trees are the same, or the second one has the name in it, which happens only if `A` holds.
`ds` is what is to be reported. -/
def Near {α : Type} [Misnames α] (A : Prop) (span : Span) (name : String) (ds : Array Diagnostic)
    (x y : α) : Prop :=
  ds = #[] ∧ y = x ∨ ds = #[undeclared span name] ∧ A ∧ Misnamed span name x y

section

variable {α β γ : Type} [Misnames α] [Misnames β] [Misnames γ] {A : Prop} {span : Span} {name : String}
  {ds : Array Diagnostic} {x : α} {y : β} {z : γ}

theorem Near.refl (x : α) : Near A span name #[] x x := .inl ⟨rfl, rfl⟩

/-- There is one place for the name. -/
theorem Near.one {f : α → γ} (h : Near A span name ds (f x) z)
    (hf : Misnamed span name (f x) z → ∃ x', z = f x' ∧ Misnamed span name x x') :
    ∃ x', z = f x' ∧ Near A span name ds x x' := by
  obtain ⟨rfl, rfl⟩ | ⟨rfl, hA, h⟩ := h
  · exact ⟨x, rfl, .refl x⟩
  · obtain ⟨x', rfl, hx⟩ := hf h
    exact ⟨x', rfl, .inr ⟨rfl, hA, hx⟩⟩

/-- There are two places for the name. -/
theorem Near.two {f : α → β → γ} (h : Near A span name ds (f x y) z)
    (hf : Misnamed span name (f x y) z →
      (∃ x', z = f x' y ∧ Misnamed span name x x') ∨ ∃ y', z = f x y' ∧ Misnamed span name y y') :
    ∃ ds₁ ds₂ x' y', ds = ds₁ ++ ds₂ ∧ z = f x' y' ∧ Near A span name ds₁ x x' ∧
      Near A span name ds₂ y y' := by
  obtain ⟨rfl, rfl⟩ | ⟨rfl, hA, h⟩ := h
  · exact ⟨#[], #[], x, y, rfl, rfl, .refl x, .refl y⟩
  · obtain ⟨x', rfl, hx⟩ | ⟨y', rfl, hy⟩ := hf h
    · exact ⟨_, #[], x', y, Array.append_empty.symm, rfl, .inr ⟨rfl, hA, hx⟩, .refl y⟩
    · exact ⟨#[], _, x, y', Array.empty_append.symm, rfl, .refl x, .inr ⟨rfl, hA, hy⟩⟩

end

/-! ### Types that are not known -/

/-- The second type is not known, which happens only if `A` holds, or the types are the same. -/
def Blurred (A : Prop) (t t' : Ty) : Prop := A ∧ t' = .error ∨ t' = t

section

variable {A : Prop}

theorem Blurred.refl (t : Ty) : Blurred A t t := .inr rfl

theorem Blurred.unless (h : Blurred A t t') {c : Ty → Prop} :
    ¬ (t ≠ .error ∧ c t) → ¬ (t' ≠ .error ∧ c t') := by
  obtain ⟨-, rfl⟩ | rfl := h
  · simp
  · exact id

theorem Blurred.mismatch (hwant : Blurred A want want') (hgot : Blurred A got got') :
    ¬ (want ≠ .error ∧ got ≠ .error ∧ want ≠ got) →
      ¬ (want' ≠ .error ∧ got' ≠ .error ∧ want' ≠ got') := by
  obtain ⟨-, rfl⟩ | rfl := hwant
  · simp
  · obtain ⟨-, rfl⟩ | rfl := hgot
    · simp
    · exact id

end

/-- References that differ only inside, so that they can be used in the same ways. -/
inductive SameHead : Ref → Ref → Prop
  | refl (r : Ref) : SameHead r r
  | member {base base' : Ref} {s : Span} {n : String} {b : Option Binding} {isLength : Bool} {t : Ty} :
      SameHead (.member base s n b isLength t) (.member base' s n b isLength t)
  | elem {base base' : Ref} {index index' : Expr} {t : Ty} :
      SameHead (.elem base index t) (.elem base' index' t)

namespace SameHead

variable {r r' : Ref}

theorem bound_eq (h : SameHead r r') : r'.bound = r.bound := by
  cases h <;> rfl

theorem withType (h : SameHead r r') (t : Ty) : SameHead (r.withType t) (r'.withType t) := by
  cases h with
  | refl => exact .refl _
  | member => exact .member
  | elem => exact .elem

theorem misuse_eq (h : SameHead r r') (use : Use) : misuse use r' = misuse use r := by
  cases h with
  | refl => rfl
  | @member _ _ _ _ b isLength =>
    rcases b with _ | (_ | _ | _ | _ | _) <;> cases use <;> cases isLength <;> rfl
  | elem => cases use <;> rfl

end SameHead

/-- What the two checks give for a reference: the second type is not known, and nor is what the reference
stands for, or they are the same. -/
inductive RefSlip (A : Prop) : Ty × Ref → Ty × Ref → Prop
  | lost {x : Ty × Ref} {r' : Ref} (hA : A) (h : r'.bound = none) : RefSlip A x (.error, r')
  | same {t : Ty} {r r' : Ref} (h : SameHead r r') : RefSlip A (t, r) (t, r')

theorem RefSlip.refl {A : Prop} (x : Ty × Ref) : RefSlip A x x := .same (.refl x.2)

theorem RefSlip.blurred {A : Prop} (h : RefSlip A x y) : Blurred A x.1 y.1 := by
  cases h with
  | lost hA => exact .inl ⟨hA, rfl⟩
  | same => exact .inr rfl

/-! ### Rules -/

/-- The same place in another package. -/
def Context.on (ctx : Context) (p : Package) : Context := { ctx with package := p }

section

variable {α β γ δ : Type} {A : Prop} {K : Scopes Binding → Prop} {ds : Array Diagnostic} {ctx : Context}
  {p : Package}

/-- The second check reports `ds` and leaves the tables as they are, as the first one does. -/
theorem slips_stop {x : Check α} {Q : α → α → Prop} (hx : ∀ U, Agree (· = U) x x Q) {y : Check β}
    {b : β}
    (hy : ∀ s, K s.scopes.unmarked → y s = (b, { s with diagnostics := s.diagnostics ++ ds }))
    {R : α → β → Prop} (hR : ∀ a, R a b) : Slips K ds x y R := by
  intro s s' hs hK
  obtain ⟨-, -, hU, es, hes, -⟩ := hx s.scopes.unmarked s s rfl rfl
  rw [hy s' (hs ▸ hK)]
  exact ⟨hR _, hs.trans hU.symm, hU ▸ hK, es, hes, fun _ => rfl⟩

theorem agree_stop {x : Check α} {Q : α → α → Prop} (hx : ∀ U, Agree (· = U) x x Q) {b : β}
    {R : α → β → Prop} (hR : ∀ a, R a b) : Agree K x (pure b) R :=
  slips_stop hx (fun _ _ => congrArg (Prod.mk b) (by rw [Array.append_empty])) hR

theorem agree_identifier (hp : p.outline = ctx.package.outline) (span : Span) (name : String)
    (b : Option Binding) (t : Ty) :
    Agree K (identifier ctx span name b t) (identifier (ctx.on p) span name b t) Eq := by
  have hinst : isInstanceMember (ctx.on p).package = isInstanceMember ctx.package :=
    eq_of_outline hp isInstanceMember_outline
  refine Slips.ite (agree_refuse rfl) (slips_get fun s s' hs => ?_)
  obtain ⟨h, h'⟩ | ⟨sym, used, h, h'⟩ :=
    hs.cases (·.find? ctx.table name) fun S => S.find?_unmarked _ _
  · rw [h, show s'.scopes.find? (ctx.on p).table name = none from h']
    exact agree_refuse rfl
  · rw [h, show s'.scopes.find? (ctx.on p).table name = some { sym with used } from h']
    refine (agree_use _ _).next fun _ => Slips.cond ?_ (agree_refuse rfl) (agree_pure rfl)
    rw [hinst]
    exact Iff.rfl

theorem agree_member (hp : p.outline = ctx.package.outline) (cls : Nat) (ofClass : Bool)
    (span : Span) (name : String) :
    Agree K (member ctx cls ofClass span name) (member (ctx.on p) cls ofClass span name) Eq := by
  have hflag : memberFlags (ctx.on p).package = memberFlags ctx.package :=
    eq_of_outline hp memberFlags_outline
  have hn : (p.class? cls).map (·.name) = (ctx.package.class? cls).map (·.name) :=
    eq_of_outline hp (f := fun p => (p.class? cls).map (·.name)) fun p => by
      rw [p.class?_outline]
      cases p.class? cls <;> rfl
  unfold member
  extract_lets className className'
  have hcls : className' = className := by
    dsimp only [className, className', Context.on]
    cases h : ctx.package.class? cls with
    | none => rw [map_eq_none_iff.1 (hn.trans (congrArg _ h))]
    | some c =>
      obtain ⟨c', h', hc⟩ := map_eq_some_iff.1 (hn.trans (congrArg _ h))
      rw [h']
      exact hc
  rw [hcls, hflag]
  refine slips_get fun s s' hs => ?_
  obtain ⟨h, h'⟩ | ⟨sym, used, h, h'⟩ :=
    hs.cases (fun S => (S.table? (memberTable cls)).bind (·.findLocal? name))
      fun S => S.findLocal?_unmarked _ _
  · rw [h, h']
    exact agree_refuse rfl
  · rw [h, h']
    exact (agree_use _ _).next fun _ =>
      Slips.ite (agree_refuse rfl) (Slips.ite (agree_refuse rfl) (agree_pure rfl))

theorem slips_useRef (use : Use) (h : RefSlip A x y) :
    Agree K (useRef use x.1 x.2) (useRef use y.1 y.2) (RefSlip A) := by
  have hsame : ∀ {K t r r'}, SameHead r r' → Agree K (useRef use t r) (useRef use t r') (RefSlip A) := by
    intro K t r r' h
    have hwith := h.withType t
    refine Slips.ite (agree_pure (.same hwith)) ?_
    rw [hwith.misuse_eq]
    cases misuse use (r.withType t) with
    | some message => exact agree_refuse (.same hwith)
    | none => exact agree_pure (.same hwith)
  cases h with
  | @lost _ r' hA h =>
    refine agree_stop (fun U => hsame (.refl _)) fun _ => .lost hA ?_
    cases r' <;> exact h
  | same h => exact hsame h

def select (ctx : Context) (s : Span) (name : String) (b : Option Binding) (isLength : Bool) (t bt : Ty)
    (base : Ref) : Check (Ty × Ref) := do
  match bt with
  | .error => return (.error, .member base s name b isLength t)
  | .array _ =>
    if name ≠ "length" then
      report s s!"Arrays have no member `{name}'"
      return (.error, .member base s name b isLength t)
    return (.int, .member base s name b true t)
  | .cls className =>
    match ← findClass className with
    | none =>
      report base.span s!"Undeclared type `{className}'"
      return (.error, .member base s name b isLength t)
    | some index =>
      let ofClass := match base.bound with
        | some (.cls _) => true
        | _ => false
      let (mt, found) ← member ctx index ofClass s name
      return (mt, .member base s name (found.or b) isLength t)
  | bt =>
    report (base.span.merge s) s!"Cannot select member `{name}' of a value of type {bt.text}"
    return (.error, .member base s name b isLength t)

/-- The check of an element of an array, after the array and the index. -/
def element (t bt : Ty) (base : Ref) (it : Ty) (index : Expr) : Check (Ty × Ref) := do
  if it ≠ .error ∧ it ≠ .int then
    report index.span s!"Array index must be int, received {it.text}"
  match bt with
  | .error => return (.error, .elem base index t)
  | .array elem => return (elem, .elem base index t)
  | bt =>
    report base.span s!"Cannot index a value of type {bt.text}"
    return (.error, .elem base index t)

theorem ref_member (base : Ref) (s : Span) (name : String) (b : Option Binding) (isLength : Bool)
    (t : Ty) : ref ctx (.member base s name b isLength t) =
      ref ctx base >>= fun x => useRef .base x.1 x.2 >>= fun x =>
        select ctx s name b isLength t x.1 x.2 := by
  rfl

theorem ref_elem (base : Ref) (index : Expr) (t : Ty) : ref ctx (.elem base index t) =
    ref ctx base >>= fun x => useRef .value x.1 x.2 >>= fun x => expr ctx index >>= fun y =>
      element t x.1 x.2 y.1 y.2 := by
  rfl

theorem slips_select (hp : p.outline = ctx.package.outline) (s : Span) (name : String)
    {b : Option Binding} (hb : A → b = none) (isLength : Bool) (t : Ty) (h : RefSlip A x y) :
    Agree K (select ctx s name b isLength t x.1 x.2) (select (ctx.on p) s name b isLength t y.1 y.2)
      (RefSlip A) := by
  have hsame : ∀ {K p bt r r'}, p.outline = ctx.package.outline → SameHead r r' →
      Agree K (select ctx s name b isLength t bt r) (select (ctx.on p) s name b isLength t bt r')
        (RefSlip A) := by
    intro K p bt r r' hp h
    cases bt with
    | error => exact agree_pure (.same .member)
    | array => exact Slips.ite (agree_refuse (.same .member)) (agree_pure (.same .member))
    | cls n =>
      refine (agree_findClass n).next fun i => ?_
      cases i with
      | none => exact agree_refuse (.same .member)
      | some i =>
        simp only [h.bound_eq]
        exact (agree_member hp i _ s name).next fun _ => agree_pure (.same .member)
    | void | int | boolean => exact agree_refuse (.same .member)
  cases h with
  | lost hA => exact agree_stop (fun U => hsame rfl (.refl _)) fun _ => .lost hA (hb hA)
  | same h => exact hsame hp h

theorem slips_element {base base' : Ref} {index index' : Expr} (t : Ty) (hbase : Blurred A bt bt')
    (hidx : Blurred A it it') :
    Agree K (element t bt base it index) (element t bt' base' it' index') (RefSlip A) := by
  refine Slips.afterReport (hidx.unless (c := (· ≠ .int))) ?_
  obtain ⟨hA, rfl⟩ | rfl := hbase
  · cases bt with
    | error | array => exact agree_pure (.lost hA rfl)
    | void | int | boolean | cls =>
      exact agree_stop (fun U => agree_refuse (R := Eq) rfl) fun _ => .lost hA rfl
  · cases bt' with
    | error | array => exact agree_pure (.same .elem)
    | void | int | boolean | cls => exact agree_refuse (.same .elem)

variable {span span' : Span}

theorem slips_operand (op : Operator) (want : Ty) (h : Blurred A got got') :
    Agree K (operand op span want got) (operand op span' want got') Eq :=
  agree_reportIf h.unless

theorem slips_expectType (hwant : Blurred A want want') (hgot : Blurred A got got') :
    Agree K (expectType want got span) (expectType want' got' span') Eq :=
  agree_reportIf (hwant.mismatch hgot)

theorem slips_operation (op : Operator) {lt lt' rt rt' : Ty} (hl : Blurred A lt lt')
    (hr : Blurred A rt rt') : Agree K (operation op span lt rt) (operation op span' lt' rt') Eq := by
  have both : ∀ want t : Ty, Agree K
      (do operand op span want lt; operand op span want rt; return t)
      (do operand op span' want lt'; operand op span' want rt'; return t) Eq := fun want t =>
    (slips_operand op want hl).next fun _ => (slips_operand op want hr).next fun _ => agree_pure rfl
  cases op with
  | eq | ne => exact (agree_pure rfl).afterReport (hl.mismatch hr)
  | and | or => exact both .boolean .boolean
  | lt | le | gt | ge => exact both .int .boolean
  | plus | minus | mul | div | not => exact both .int .int

/-- What the two checks give for arguments. -/
abbrev ArgsSlip (A : Prop) : List (Ty × Expr) → List (Ty × Expr) → Prop :=
  Forall₂ fun a a' => Blurred A a.1 a'.1

theorem slips_arguments (name : String) (ds : List ParamDecl) (h : ArgsSlip A args args') :
    Agree K (arguments name ds args) (arguments name ds args') Eq := by
  induction ds generalizing args args' with
  | nil => exact agree_pure rfl
  | cons d ds ih =>
    cases h with
    | nil => exact agree_pure rfl
    | cons ha h => exact (ih h).afterReport ((Blurred.refl _).mismatch ha)

theorem method?_cases {p q : Package} (hp : p.outline = q.outline) (id : MemberId) :
    (q.method? id = none ∧ p.method? id = none) ∨ ∃ m m', q.method? id = some m ∧
      p.method? id = some m' ∧ m'.name = m.name ∧ m'.type = m.type ∧ m'.params = m.params := by
  have hmeth := eq_of_outline hp (f := fun p => (p.method? id).map MethodDecl.outline)
    fun p => by rw [p.method?_outline]; cases p.method? id <;> rfl
  cases h : q.method? id with
  | none =>
    rw [h] at hmeth
    exact .inl ⟨rfl, map_eq_none_iff.1 hmeth⟩
  | some m =>
    rw [h] at hmeth
    obtain ⟨m', hm', hout⟩ := map_eq_some_iff.1 hmeth
    obtain ⟨-, hname, htype, -, -, hpar, -⟩ := MethodDecl.mk.inj hout
    exact .inr ⟨m, m', rfl, hm', hname, htype, hpar⟩

theorem slips_finishCall (hp : p.outline = ctx.package.outline) (close : Span) (b : Option MemberId)
    (h : RefSlip A x y) (ha : ArgsSlip A args args') :
    Agree K (finishCall ctx x.1 x.2 args close b) (finishCall (ctx.on p) y.1 y.2 args' close b)
      fun c c' => Blurred A c.1 c'.1 := by
  have hsame : ∀ {K p t r r' args'}, p.outline = ctx.package.outline → SameHead r r' →
      ArgsSlip A args args' → Agree K (finishCall ctx t r args close b)
        (finishCall (ctx.on p) t r' args' close b) fun c c' => Blurred A c.1 c'.1 := by
    intro K p t r r' args' hp h ha
    simp only [finishCall, h.bound_eq]
    split
    · rename_i id _
      obtain ⟨h, h'⟩ | ⟨m, m', h, h', hname, htype, hpar⟩ := method?_cases hp id
      · simp only [Context.on, h, h']
        exact agree_pure (.refl _)
      · simp only [Context.on, h, h', hname, htype, hpar, ← ha.length_eq]
        exact Slips.ite (agree_refuse (.refl _))
          ((slips_arguments _ _ ha).next fun _ => agree_pure (.refl _))
    · exact agree_pure (.refl _)
  cases h with
  | lost hA h =>
    have hself : ArgsSlip A args args := forall₂_same.2 fun _ _ => .refl _
    simp only [finishCall, h]
    exact agree_stop (fun U => hsame rfl (.refl _) hself) fun _ => .inl ⟨hA, rfl⟩
  | same h => exact hsame hp h ha

end

/-! ### Expressions -/

/-- Where an undeclared name is checked: it is not the name that is being declared, it is in none of the
tables around, and it is no name with the property `P`. -/
structure Astray (K : Scopes Binding → Prop) (P : String → Prop) (ctx : Context) (name : String) :
    Prop where
  declaring : ctx.declaring ≠ some name
  find? : ∀ U, K U → U.find? ctx.table name = none
  other : ∀ n, P n → n ≠ name

variable {A : Prop} {K : Scopes Binding → Prop} {P : String → Prop} {ds : Array Diagnostic}
  {ctx : Context} {p : Package} {span : Span} {name : String}

theorem slips_identifier (ha : Astray K P ctx name) (hA : A) (old : String) (t : Ty) :
    Slips K #[undeclared span name] (identifier ctx span old none t)
      (identifier (ctx.on p) span name none t) (RefSlip A) := by
  refine slips_stop (b := (.error, .id span name none t))
    (fun U => agree_identifier rfl span old none t) (fun s hs => ?_) fun _ => .lost hA rfl
  have hfind : s.scopes.find? (ctx.on p).table name = none := by
    have hunm := ha.find? _ hs
    rw [s.scopes.find?_unmarked] at hunm
    exact map_eq_none_iff.1 hunm
  have hget : ∀ f : State → Check (Ty × Ref), (get >>= f) s = f s s := fun _ => rfl
  unfold identifier
  rw [if_neg (show (ctx.on p).declaring ≠ some name from ha.declaring), hget, hfind,
    ← Array.push_eq_append]
  rfl

section

variable (hp : p.outline = ctx.package.outline) (ha : A → Astray K P ctx name)

include hp ha

mutual

theorem slips_ref (r : Ref) (hr : A → r.Fresh) {r' : Ref} {ds : Array Diagnostic}
    (h : Near A span name ds r r') :
    Slips K ds (ref ctx r) (ref (ctx.on p) r') (RefSlip A) := by
  match r with
  | .this s t =>
    obtain ⟨rfl, rfl⟩ := h.resolve_right fun h => by cases h.2.2
    rw [ref, ref]
    exact Slips.ite (agree_refuse (.refl _)) (agree_pure (.refl _))
  | .id s old b t =>
    obtain ⟨rfl, rfl⟩ | ⟨rfl, hA, h⟩ := h
    · rw [ref, ref]
      refine (agree_identifier hp s old b t).mono ?_
      rintro x _ rfl
      exact .refl x
    · obtain rfl := hr hA
      cases h
      rw [ref, ref]
      exact slips_identifier (ha hA) hA old t
  | .member base s n b isLength t =>
    obtain ⟨base', rfl, hbase⟩ := h.one (f := (Ref.member · s n b isLength t))
      fun hM => by cases hM; exact ⟨_, rfl, ‹_›⟩
    rw [ref_member, ref_member]
    exact (slips_ref base (fun hA => (hr hA).2.2) hbase).after fun _ _ h =>
      (slips_useRef _ h).after fun _ _ h => slips_select hp s n (fun hA => (hr hA).1) isLength t h
  | .elem base index t =>
    obtain ⟨ds₁, ds₂, base', index', rfl, rfl, hbase, hindex⟩ := h.two (f := (Ref.elem · · t)) fun hM => by
        cases hM with
        | base hM => exact .inl ⟨_, rfl, hM⟩
        | index hM => exact .inr ⟨_, rfl, hM⟩
    rw [ref_elem, ref_elem]
    exact (slips_ref base (fun hA => (hr hA).1) hbase).bind fun _ _ h =>
      (slips_useRef _ h).before fun _ _ hb => (slips_expr index (fun hA => (hr hA).2) hindex).after
        fun _ _ hi => slips_element t hb.blurred hi

theorem slips_expr (e : Expr) (he : A → e.Fresh) {e' : Expr} {ds : Array Diagnostic}
    (h : Near A span name ds e e') :
    Slips K ds (expr ctx e) (expr (ctx.on p) e') fun x y => Blurred A x.1 y.1 := by
  match e with
  | .ref r =>
    obtain ⟨r', rfl, hr⟩ := h.one (f := Expr.ref) fun hM => by
      cases hM; exact ⟨_, rfl, ‹_›⟩
    rw [expr, expr]
    exact (slips_ref r he hr).after fun _ _ h => (slips_useRef _ h).after fun _ _ h =>
      agree_pure h.blurred
  | .int .. =>
    obtain ⟨rfl, rfl⟩ := h.resolve_right fun h => by cases h.2.2
    rw [expr, expr]
    exact (agree_pure (.refl _)).afterReport id
  | .bool .. =>
    obtain ⟨rfl, rfl⟩ := h.resolve_right fun h => by cases h.2.2
    rw [expr, expr]
    exact agree_pure (.refl _)
  | .unary s op operand t =>
    obtain ⟨operand', rfl, ho⟩ := h.one (f := (Expr.unary s op · t)) fun hM => by
      cases hM; exact ⟨_, rfl, ‹_›⟩
    rw [expr, expr]
    exact (slips_expr operand he ho).after fun _ _ h => (agree_pure (.refl _)).afterReport h.unless
  | .binary op lhs rhs t =>
    obtain ⟨ds₁, ds₂, lhs', rhs', rfl, rfl, hl, hr⟩ := h.two (f := (Expr.binary op · · t)) fun hM => by
        cases hM with
        | lhs hM => exact .inl ⟨_, rfl, hM⟩
        | rhs hM => exact .inr ⟨_, rfl, hM⟩
    rw [expr, expr]
    exact (slips_expr lhs (fun hA => (he hA).2.1) hl).bind fun _ _ hl =>
      (slips_expr rhs (fun hA => (he hA).2.2) hr).after fun _ _ hr =>
        (slips_operation op hl hr).next fun _ => agree_pure (.refl _)
  | .newObject s cls bound t =>
    obtain ⟨rfl, rfl⟩ := h.resolve_right fun h => by cases h.2.2
    rw [expr, expr]
    refine (agree_findClass cls).next fun i => ?_
    cases i with
    | none => exact agree_refuse (.refl _)
    | some i => exact agree_pure (.refl _)
  | .newArray s elem size t =>
    obtain ⟨size', rfl, hsize⟩ := h.one (f := (Expr.newArray s elem · t)) fun hM => by
      cases hM; exact ⟨_, rfl, ‹_›⟩
    rw [expr, expr]
    exact (agree_resolve _ _ elem).next fun _ => (slips_expr size (fun hA => (he hA).2) hsize).after
      fun _ _ h => (agree_pure (.refl _)).afterReport (h.unless (c := (· ≠ .int)))
  | .call c =>
    obtain ⟨c', rfl, hc⟩ := h.one (f := Expr.call) fun hM => by
      cases hM; exact ⟨_, rfl, ‹_›⟩
    rw [expr, expr]
    exact (slips_call c he hc).after fun _ _ h => agree_pure h

theorem slips_exprs (es : List Expr) (hes : A → Expr.FreshList es) {es' : List Expr}
    {ds : Array Diagnostic} (h : Near A span name ds es es') :
    Slips K ds (exprs ctx es) (exprs (ctx.on p) es') (ArgsSlip A) := by
  match es with
  | [] =>
    obtain ⟨rfl, rfl⟩ := h.resolve_right fun h => by cases h.2.2
    rw [exprs, exprs]
    exact agree_pure .nil
  | e :: es =>
    obtain ⟨ds₁, ds₂, e', es', rfl, rfl, hd, ht⟩ := h.two (f := List.cons) fun hM => by
        cases hM with
        | head hM => exact .inl ⟨_, rfl, hM⟩
        | tail hM => exact .inr ⟨_, rfl, hM⟩
    rw [exprs, exprs]
    exact (slips_expr e (fun hA => (hes hA).1) hd).bind fun _ _ h =>
      (slips_exprs es (fun hA => (hes hA).2) ht).after fun _ _ ht => agree_pure (.cons h ht)

theorem slips_call (c : Call) (hc : A → c.Fresh) {c' : Call} {ds : Array Diagnostic}
    (h : Near A span name ds c c') :
    Slips K ds (call ctx c) (call (ctx.on p) c') fun x y => Blurred A x.1 y.1 := by
  match c with
  | .mk method args close b t =>
    obtain ⟨ds₁, ds₂, method', args', rfl, rfl, hm, hargs⟩ := h.two (f := (Call.mk · · close b t)) fun hM => by
        cases hM with
        | method hM => exact .inl ⟨_, rfl, hM⟩
        | args hM => exact .inr ⟨_, rfl, hM⟩
    rw [call, call]
    exact (slips_ref method (fun hA => (hc hA).1) hm).bind fun _ _ h =>
      (slips_useRef _ h).before fun _ _ hm => (slips_exprs args (fun hA => (hc hA).2) hargs).after
        fun _ _ hargs => slips_finishCall hp close b hm hargs

end

end

/-! ### Statements -/

section

variable (hp : p.outline = ctx.package.outline) (ha : A → Astray K P ctx name)

include hp ha

theorem slips_condition (e : Expr) (he : A → e.Fresh) {e' : Expr} (h : Near A span name ds e e') :
    Slips K ds (condition ctx e) (condition (ctx.on p) e') fun _ _ => True :=
  (slips_expr hp ha e he h).after fun _ _ h =>
    (agree_pure trivial).afterReport (h.unless (c := (· ≠ .boolean)))

end

theorem agree_refuseDecl (what : String) {s s' : Stmt} (h : Near A span name ds s s') :
    Agree K (refuseDecl what s) (refuseDecl what s') Eq := by
  obtain ⟨-, rfl⟩ | ⟨-, -, h⟩ := h
  · cases s' with
    | decl => exact agree_report
    | block | assign | call | ifThen | ifElse | loop => exact agree_pure rfl
  · cases h with
    | init => exact agree_report
    | block | target | value | call | ifCond | ifBody | elseCond | elseBody | elseOther | loopCond
      | loopBody => exact agree_pure rfl

theorem agree_openScope (hK : Kept K ctx.table P) : Agree K (openScope ctx) (openScope (ctx.on p)) Eq :=
  agree_modifyTable ScopeTable.unmarked_push hK.push

theorem agree_closeScope (hK : Kept K ctx.table P) :
    Agree K (closeScope ctx) (closeScope (ctx.on p)) Eq :=
  agree_modifyTable ScopeTable.unmarked_pop hK.pop

theorem Slips.scoped {α β γ δ : Type} {x : Check α} {y : Check β} {R : α → β → Prop} {Q : γ → δ → Prop}
    (hK : Kept K ctx.table P) (hx : Slips K ds x y R) {f : α → Check γ} {g : β → Check δ}
    (hf : ∀ a b, Slips K ds' (f a) (g b) Q) :
    Slips K (ds ++ ds') (do openScope ctx; let a ← x; closeScope ctx; f a)
      (do openScope (ctx.on p); let b ← y; closeScope (ctx.on p); g b) Q :=
  (agree_openScope hK).next fun _ => hx.bind fun a b _ => (agree_closeScope hK).next fun _ => hf a b

theorem near_ifElse {s : Span} {cond : Expr} {body other s' : Stmt}
    (h : Near A span name ds (.ifElse s cond body other) s') :
    ∃ ds₁ ds₂ ds₃ cond' body' other', ds = ds₁ ++ (ds₂ ++ (ds₃ ++ #[])) ∧
      s' = .ifElse s cond' body' other' ∧ Near A span name ds₁ cond cond' ∧
      Near A span name ds₂ body body' ∧ Near A span name ds₃ other other' := by
  obtain ⟨rfl, rfl⟩ | ⟨rfl, hA, h⟩ := h
  · exact ⟨#[], #[], #[], cond, body, other, rfl, rfl, .refl _, .refl _, .refl _⟩
  · cases h with
    | elseCond h => exact ⟨_, #[], #[], _, body, other, rfl, rfl, .inr ⟨rfl, hA, h⟩, .refl _, .refl _⟩
    | elseBody h => exact ⟨#[], _, #[], cond, _, other, rfl, rfl, .refl _, .inr ⟨rfl, hA, h⟩, .refl _⟩
    | elseOther h => exact ⟨#[], #[], _, cond, body, _, rfl, rfl, .refl _, .refl _, .inr ⟨rfl, hA, h⟩⟩

section

variable (hp : p.outline = ctx.package.outline) (ha : A → Astray K P ctx name)
  (hK : Kept K ctx.table P)

include hp ha hK

mutual

theorem slips_stmt (s : Stmt) (hs : A → s.Fresh) (hloc : ∀ d ∈ s.locals, P d.name) {s' : Stmt}
    {ds : Array Diagnostic} (h : Near A span name ds s s') :
    Slips K ds (stmt ctx s) (stmt (ctx.on p) s') fun _ _ => True := by
  match s with
  | .block _ body =>
    obtain ⟨body', rfl, hbody⟩ := h.one fun hM => by cases hM; exact ⟨_, rfl, ‹_›⟩
    rw [stmt, stmt, ← ds.append_empty]
    exact (slips_stmts body hs hloc hbody).scoped hK fun _ _ => agree_pure trivial
  | .decl d init =>
    obtain ⟨init', rfl, hinit⟩ := h.one fun hM => by cases hM; exact ⟨_, rfl, ‹_›⟩
    have hd := hloc d (mem_singleton_self d)
    have hp : p.outline = ({ ctx with declaring := some d.name } : Context).package.outline := hp
    rw [stmt, stmt]
    refine (agree_resolveVar _ _ _ _).next fun t => Slips.next (agree_bind (fun U sym hsym =>
      hK.insert U sym (hsym ▸ hd)) _ _ _ _) fun _ => ?_
    have ha : A → Astray K P { ctx with declaring := some d.name } name := fun hA =>
      { ha hA with declaring := fun h => (ha hA).other _ hd (Option.some.inj h) }
    exact (slips_expr hp ha init (fun hA => (hs hA).2) hinit).after fun _ _ h =>
      (slips_expectType (.refl _) h).next fun _ => agree_pure trivial
  | .assign lhs rhs =>
    obtain ⟨ds₁, ds₂, lhs', rhs', rfl, rfl, hl, hr⟩ := h.two fun hM => by
      cases hM with
      | target hM => exact .inl ⟨_, rfl, hM⟩
      | value hM => exact .inr ⟨_, rfl, hM⟩
    rw [stmt, stmt]
    exact (slips_ref hp ha lhs (fun hA => (hs hA).1) hl).bind fun _ _ h =>
      (slips_useRef _ h).before fun _ _ hl => (slips_expr hp ha rhs (fun hA => (hs hA).2) hr).after
        fun _ _ hr => (slips_expectType hl.blurred hr).next fun _ => agree_pure trivial
  | .call c =>
    obtain ⟨c', rfl, hc⟩ := h.one fun hM => by cases hM; exact ⟨_, rfl, ‹_›⟩
    rw [stmt, stmt]
    exact (slips_call hp ha c hs hc).after fun _ _ _ => agree_pure trivial
  | .ifThen _ cond body | .loop _ cond body =>
    obtain ⟨ds₁, ds₂, cond', body', rfl, rfl, hcond, hbody⟩ := h.two fun hM => by
      cases hM <;> first | exact .inl ⟨_, rfl, ‹_›⟩ | exact .inr ⟨_, rfl, ‹_›⟩
    rw [stmt, stmt, ← ds₂.append_empty]
    exact (slips_condition hp ha cond (fun hA => (hs hA).1) hcond).bind fun _ _ _ =>
      (agree_refuseDecl _ hbody).next fun _ =>
        (slips_stmt body (fun hA => (hs hA).2) hloc hbody).scoped hK fun _ _ => agree_pure trivial
  | .ifElse _ cond body other =>
    obtain ⟨ds₁, ds₂, ds₃, cond', body', other', rfl, rfl, hcond, hbody, hother⟩ := near_ifElse h
    rw [Stmt.locals, forall_mem_append] at hloc
    rw [stmt, stmt]
    exact (slips_condition hp ha cond (fun hA => (hs hA).1) hcond).bind fun _ _ _ =>
      (agree_refuseDecl _ hbody).next fun _ =>
        (slips_stmt body (fun hA => (hs hA).2.1) hloc.1 hbody).scoped hK fun _ _ =>
          (agree_refuseDecl _ hother).next fun _ =>
            (slips_stmt other (fun hA => (hs hA).2.2) hloc.2 hother).scoped hK fun _ _ =>
              agree_pure trivial

theorem slips_stmts (ss : List Stmt) (hss : A → Stmt.FreshList ss)
    (hloc : ∀ d ∈ Stmt.localsOf ss, P d.name) {ss' : List Stmt} {ds : Array Diagnostic}
    (h : Near A span name ds ss ss') :
    Slips K ds (stmts ctx ss) (stmts (ctx.on p) ss') fun _ _ => True := by
  match ss with
  | [] =>
    obtain ⟨rfl, rfl⟩ := h.resolve_right fun h => by cases h.2.2
    rw [stmts, stmts]
    exact agree_pure trivial
  | s :: ss =>
    obtain ⟨ds₁, ds₂, s', ss', rfl, rfl, hd, ht⟩ := h.two fun hM => by
      cases hM with
      | head hM => exact .inl ⟨_, rfl, hM⟩
      | tail hM => exact .inr ⟨_, rfl, hM⟩
    rw [Stmt.localsOf, forall_mem_append] at hloc
    rw [stmts, stmts]
    exact (slips_stmt s (fun hA => (hss hA).1) hloc.1 hd).bind fun _ _ _ =>
      (slips_stmts ss (fun hA => (hss hA).2) hloc.2 ht).after fun _ _ _ => agree_pure trivial

end

end

/-! ### Methods -/

/-- `K` is a property of the first `n` tables, which are there. -/
structure OfFirst (n : Nat) (K : Scopes Binding → Prop) : Prop where
  size : ∀ U, K U → n ≤ U.tables.size
  keep : ∀ U U', U.tables.size ≤ U'.tables.size → (∀ i < n, U'.table? i = U.table? i) → K U → K U'

theorem OfFirst.kept (h : OfFirst n K) (id : Nat) :
    Kept (fun U => n ≤ id ∧ K U) id P := by
  have hk : ∀ U f, n ≤ id ∧ K U → n ≤ id ∧ K (U.modify id f) := by
    rintro U f ⟨hid, hU⟩
    refine ⟨hid, h.keep U _ (by simp [Scopes.modify]) (fun i hi => ?_) hU⟩
    rw [Scopes.table?_modify, if_neg (by omega)]
  exact ⟨fun U => hk U _, fun U => hk U _, fun U _ _ => hk U _⟩

theorem OfFirst.push (h : OfFirst n K) (t : ScopeTable Binding) (hU : K U) :
    n ≤ U.tables.size ∧ K ⟨U.tables.push t⟩ := by
  have hs := h.size U hU
  refine ⟨hs, h.keep U _ (by simp) (fun i hi => ?_) hU⟩
  simp only [Scopes.table?, Array.getElem?_push_lt (Nat.lt_of_lt_of_le hi hs),
    Array.getElem?_eq_getElem (Nat.lt_of_lt_of_le hi hs)]

instance : Misnames (Option Expr) :=
  ⟨fun span name r r' => ∃ e e', r = some e ∧ r' = some e' ∧ e.Misnamed span name e'⟩

instance : Misnames MethodDecl := ⟨MethodDecl.Misnamed⟩

theorem slips_methodResult (hp : p.outline = ctx.package.outline) (ha : A → Astray K P ctx name)
    (m : MethodDecl) (hm : A → m.Fresh) {result : Option Expr}
    (h : Near A span name ds m.result result) : Slips K ds (methodResult ctx m)
      (methodResult (ctx.on p) { m with result }) fun _ _ => True := by
  have hfresh := fun hA => (hm hA).result
  unfold methodResult
  generalize m.result = r at h hfresh ⊢
  cases r with
  | none =>
    obtain ⟨rfl, rfl⟩ := h.resolve_right (by rintro ⟨-, -, e, e', h, -⟩; cases h)
    exact (agree_pure trivial).afterReport id
  | some e =>
    obtain ⟨e', rfl, he⟩ := h.one (f := some) (by
      rintro ⟨_, e', hsome, rfl, hM⟩
      cases hsome
      exact ⟨e', rfl, hM⟩)
    have hexpr := slips_expr hp ha e (fun hA => hfresh hA e rfl) he
    refine Slips.ite (slips_report (hexpr.after fun _ _ _ => agree_pure trivial)) ?_
    exact hexpr.after fun _ _ h => (slips_expectType (.refl _) h).next fun _ => agree_pure trivial

theorem slips_method {L : Nat → Scopes Binding → Prop} {cls : Nat} (hp : p'.outline = p.outline)
    {c c' : ClassDecl} (hc : c'.name = c.name)
    (hpush : ∀ U t, K U → L U.tables.size ⟨U.tables.push ⟨t, some (memberTable cls), [], []⟩⟩)
    (hL : ∀ id U, L id U → K U) (hK : ∀ id, Kept (L id) id P)
    (ha : A → (∀ id U, L id U → U.find? id name = none) ∧ ∀ n, P n → n ≠ name) {m m' : MethodDecl}
    (hm : A → m.Fresh) (hpar : ∀ d ∈ m.params, P d.name)
    (hloc : ∀ d ∈ Stmt.localsOf m.body, P d.name) (h : Near A span name ds m m') :
    Slips K ds (method p c cls m) (method p' c' cls m') fun _ _ => True := by
  obtain ⟨ds₁, ds₂, body', result', rfl, rfl, hbody, hres⟩ := h.two (x := m.body) (y := m.result)
    (f := fun body result => { m with body, result }) fun hM => by
      cases hM with
      | body hM => exact .inl ⟨_, rfl, hM⟩
      | result he hM => exact .inr ⟨_, rfl, _, _, he, rfl, hM⟩
  unfold method
  rw [hc]
  refine slips_newTable (L := L) (fun U => hpush U _) hL fun table => ?_
  let ctx : Context := ⟨p, cls, c.name, m.name, m.isStatic, table, none⟩
  have hctx : p'.outline = ctx.package.outline := hp
  have hk : Kept (L table) ctx.table P := hK table
  have ha : A → Astray (L table) P ctx name := fun hA =>
    ⟨Option.some_ne_none name |>.symm, (ha hA).1 table, (ha hA).2⟩
  refine (agree_bindAll hk _ (fun x hx => hpar x.1 (fst_mem_of_mem_zipIdx hx)) fun _ => rfl).next
    fun _ => (agree_openScope hk).next fun _ => ?_
  exact (slips_stmts hctx ha hk m.body (fun hA => (hm hA).body) hloc hbody).bind fun _ _ _ =>
    (slips_methodResult hctx ha m hm hres).after fun _ _ _ =>
      (agree_closeScope hk).next fun _ => agree_pure trivial

theorem agree_method (hK : OfFirst n K) (hp : p'.outline = p.outline) {c c' : ClassDecl}
    (hc : c'.name = c.name) (cls : Nat) (m : MethodDecl) :
    Agree K (method p c cls m) (method p' c' cls m) fun _ _ => True :=
  slips_method (A := False) (L := fun id U => n ≤ id ∧ K U) (P := fun _ => True) hp hc
    (fun _ _ => hK.push _) (fun _ _ hU => hU.2) hK.kept False.elim False.elim (fun _ _ => trivial)
    (fun _ _ => trivial) (.refl m : Near False m.span m.name #[] m m)

theorem agree_methods (hK : OfFirst n K) (hp : p'.outline = p.outline) (c : ClassDecl) (cls : Nat) :
    Agree K (methods p c cls) (methods p' c cls) fun _ _ => True :=
  (agree_mapM _ fun m => agree_method hK hp rfl cls m).after fun _ _ _ => agree_pure trivial

theorem grows_bodies (p : Package) : Grows (bodies p) := by
  have hagr : Agree (fun _ => True) (bodies p) (bodies p) fun _ _ => True := by
    refine Slips.after (agree_mapM (T := fun _ _ => True) _ ?_) fun _ _ _ => agree_pure trivial
    rintro ⟨c, i⟩
    exact agree_methods ⟨fun _ _ => Nat.zero_le _, fun _ _ _ _ => id⟩ rfl c i
  exact hagr.grows

end MiniJam.Typing
