import MiniJam.Proofs.Tree.Fresh
import MiniJam.Proofs.Typing.Tables

/-!
# Checked expressions

An expression that is checked without a report is well typed, has the type that the check gives it, and
has its names bound as lexical scoping has it (`quiet_expr`).
-/

namespace MiniJam.Typing

open List Option Quiet Package

/-- Where the method of `ctx` with the parameters `ds` stands. -/
abbrev Context.site (ctx : Context) (ds : List ParamDecl) : Site :=
  ⟨ctx.package.signature, ctx.cls, ctx.isStatic, ds.map (·.type)⟩

/-- What the body of the method of `ctx` with the parameters `ds` stands in. -/
abbrev Context.enclosure (ctx : Context) (ds : List ParamDecl) : Enclosure := ⟨ctx.package, ctx.cls, ds⟩

/-- The tables while the method of `ctx` with the parameters `ds` is checked. -/
abbrev Inside (ctx : Context) (ds : List ParamDecl) (blocks : List (List LocalDecl)) (s : State) : Prop :=
  Scoped (ctx.enclosure ds) ctx.table blocks s.scopes.unmarked

/-- The local variables `vs` are in scope; `blocks` are the variables of the open blocks, among them the
one that is being declared. -/
structure Fits (ctx : Context) (ds : List ParamDecl) (vs : List LocalDecl)
    (blocks : List (List LocalDecl)) : Prop where
  className : ctx.package.signature.className ctx.cls = some ctx.className
  proper : ctx.package.signature.Proper
  params : ∀ d ∈ ds, d.type.IsValue
  vars : ∀ d ∈ vs, d.type.IsValue
  sees : ∀ name, ctx.declaring ≠ some name →
    (localNames (scope blocks)).lookup name = (localNames vs).lookup name

/-- What a reference of type `t` stands for: a class, a method, or a value. -/
def Means (Γ : Site) (vs : List LocalDecl) (r : Ref) (t : Ty) : Prop :=
  match r.bound with
  | some (.cls i) => r.NamesClass ∧ ∃ n, Γ.sig.className i = some n ∧ t = .cls n
  | some (.method id) => ∃ π, Γ.sig.method id = some π ∧ π.result = t ∧ r.Calls Γ vs id π
  | _ => (r.withType t).Typed Γ vs t ∧ t.IsValue

def AllBound (E : Enclosure) (vs : List LocalDecl) (rs : List Ref) : Prop :=
  ∀ r ∈ rs, r.Bound E vs

@[simp] theorem allBound_nil (E : Enclosure) (vs : List LocalDecl) : AllBound E vs [] := nofun

variable {E : Enclosure} {name : String}

@[simp] theorem allBound_cons {r : Ref} :
    AllBound E vs (r :: rs) ↔ r.Bound E vs ∧ AllBound E vs rs :=
  forall_mem_cons

@[simp] theorem allBound_append :
    AllBound E vs (rs ++ rs') ↔ AllBound E vs rs ∧ AllBound E vs rs' :=
  forall_mem_append

/-- The reference `r'` is `r` with its names bound. -/
def Ref.Resolves (E : Enclosure) (vs : List LocalDecl) (r r' : Ref) : Prop :=
  r'.bare = r.bare ∧ AllBound E vs r'.refs

/-- The expression `e'` is `e` with its names bound. -/
def Expr.Resolves (E : Enclosure) (vs : List LocalDecl) (e e' : Expr) : Prop :=
  e'.bare = e.bare ∧ AllBound E vs e'.refs

/-- The call `c'` is `c` with its names bound. -/
def Call.Resolves (E : Enclosure) (vs : List LocalDecl) (c c' : Call) : Prop :=
  c'.bare = c.bare ∧ AllBound E vs c'.refs

@[simp] theorem bare_withType (r : Ref) (t : Ty) : (r.withType t).bare = r.bare := by
  cases r <;> simp only [Ref.withType, Ref.bare]

@[simp] theorem type_withType (r : Ref) (t : Ty) : (r.withType t).type = t := by
  cases r <;> rfl

@[simp] theorem allBound_withType {r : Ref} :
    AllBound E vs (r.withType t).refs ↔ AllBound E vs r.refs := by
  cases r with
  | this | id | elem => simp [Ref.withType, Ref.refs, Ref.Bound]
  | member base span name b isLength u => cases isLength <;> simp [Ref.withType, Ref.refs, Ref.Bound]

theorem Ref.Resolves.withType {r r' : Ref} (h : Ref.Resolves E vs r r') (t : Ty) :
    Ref.Resolves E vs r (r'.withType t) :=
  ⟨(bare_withType r' t).trans h.1, allBound_withType.2 h.2⟩

/-- What the check makes of a reference. -/
structure Ref.Checked (ctx : Context) (ds : List ParamDecl) (vs : List LocalDecl) (r : Ref)
    (x : Ty × Ref) : Prop where
  means : Means (ctx.site ds) vs x.2 x.1
  resolves : Ref.Resolves (ctx.enclosure ds) vs r x.2

/-- What the check makes of an expression. -/
structure Expr.Checked (ctx : Context) (ds : List ParamDecl) (vs : List LocalDecl) (e : Expr)
    (x : Ty × Expr) : Prop where
  typed : x.2.Typed (ctx.site ds) vs x.1
  member : x.1.IsMember
  resolves : Expr.Resolves (ctx.enclosure ds) vs e x.2

/-- What the check makes of expressions. -/
structure Expr.CheckedList (ctx : Context) (ds : List ParamDecl) (vs : List LocalDecl) (es : List Expr)
    (xs : List (Ty × Expr)) : Prop where
  typed : Expr.TypedList (ctx.site ds) vs (xs.map (·.2)) (xs.map (·.1))
  member : ∀ x ∈ xs, x.1.IsMember
  bare : Expr.bareList (xs.map (·.2)) = Expr.bareList es
  bound : AllBound (ctx.enclosure ds) vs (Expr.refsList (xs.map (·.2)))

/-- What the check makes of a call. -/
structure Call.Checked (ctx : Context) (ds : List ParamDecl) (vs : List LocalDecl) (c : Call)
    (x : Ty × Call) : Prop where
  typed : x.2.Typed (ctx.site ds) vs x.1
  member : x.1.IsMember
  resolves : Call.Resolves (ctx.enclosure ds) vs c x.2

variable {ctx : Context} {ds : List ParamDecl} {vs : List LocalDecl} {blocks : List (List LocalDecl)}
  {r : Ref} {t : Ty} {P : State → Prop}

theorem Means.isMember (h : Fits ctx ds vs blocks) (hr : Means (ctx.site ds) vs r t) : t.IsMember := by
  unfold Means at hr
  split at hr
  · obtain ⟨-, n, -, rfl⟩ := hr
    exact .inr trivial
  · obtain ⟨π, hπ, rfl, -⟩ := hr
    exact h.proper.result _ π hπ
  · exact .inr hr.2

/-! ### Names -/

theorem mem_of_lookup_var {d : LocalDecl} (h : E.lookup vs name = some (.var d)) : d ∈ vs := by
  have hmem : ∀ l : Names, l.lookup name = some (.var d) → (name, .var d) ∈ l := by
    intro l hl
    obtain ⟨l₁, l₂, rfl, -⟩ := lookup_eq_some_iff.1 hl
    simp
  -- Nothing else is bound to a local variable.
  obtain hvs | ⟨-, h⟩ := or_eq_some_iff.1 h
  · obtain ⟨hd, -⟩ : d ∈ vs ∧ d.name = name := by simpa [localNames] using hmem _ hvs
    exact hd
  obtain hpar | ⟨-, h⟩ := or_eq_some_iff.1 h
  · simpa [paramNames] using hmem _ hpar
  obtain hmember | ⟨-, hcls⟩ := or_eq_some_iff.1 h
  · obtain ⟨c, -, hmember⟩ := bind_eq_some_iff.1 hmember
    simpa [ClassDecl.memberNames] using hmem _ hmember
  · simpa [classNames] using hmem _ hcls

theorem means_identifier (h : Fits ctx ds vs blocks) {span : Span} {b : Binding}
    (hlook : (ctx.enclosure ds).lookup vs name = some b) (hb : Declares (ctx.enclosure ds) t b)
    (hstat : ¬ (ctx.isStatic && isInstanceMember ctx.package b) = true) :
    Means (ctx.site ds) vs (.id span name (some b) u) t := by
  have reaches : ∀ {cls isStatic}, cls = ctx.cls → isInstanceMember ctx.package b = !isStatic →
      (ctx.site ds).Reaches cls isStatic := by
    rintro _ isStatic rfl hb
    rw [hb] at hstat
    cases isStatic with
    | true => exact .inl rfl
    | false => exact .inr ⟨rfl, by simpa using hstat⟩
  cases b with
  | var d =>
    obtain rfl := hb
    have hvs := mem_of_lookup_var hlook
    simp only [Means, Ref.bound, Ref.withType, Ref.Typed, Site.Var]
    exact ⟨⟨trivial, _, rfl, hvs, rfl⟩, h.vars d hvs⟩
  | param i =>
    obtain ⟨d, hd, rfl⟩ := hb
    simp only [Means, Ref.bound, Ref.withType, Ref.Typed]
    exact ⟨⟨trivial, _, rfl, by simp [Site.Var, hd]⟩, h.params d (mem_of_getElem? hd)⟩
  | field id =>
    obtain ⟨hcls, f, hf, rfl⟩ := hb
    simp only [Means, Ref.bound, Ref.withType, Ref.Typed]
    exact ⟨⟨trivial, _, rfl, f, hf, rfl, reaches hcls (by simp [isInstanceMember, hf])⟩,
      h.proper.field id f hf⟩
  | method id =>
    obtain ⟨hcls, m, hm, rfl⟩ := hb
    exact ⟨m.profile, by simp [signature, hm], rfl,
      reaches hcls (by simp [isInstanceMember, hm, MethodDecl.profile])⟩
  | cls i =>
    obtain ⟨n, hn, rfl⟩ := hb
    simp only [Means, Ref.bound]
    exact ⟨⟨_, _, _, _, rfl⟩, n, hn, rfl⟩

theorem Fits.find? (h : Fits ctx ds vs blocks) (hs : Inside ctx ds blocks s)
    (hname : ctx.declaring ≠ some name) (hfind : s.scopes.find? ctx.table name = some sym) :
    (ctx.enclosure ds).lookup vs name = some sym.decl ∧ Declares (ctx.enclosure ds) sym.type sym.decl := by
  have hunm := s.scopes.find?_unmarked ctx.table name
  rw [hfind, map_some] at hunm
  have hlook := hs.lookup name
  rw [hunm, map_some, Enclosure.lookup, h.sees name hname] at hlook
  have hdec := hs.declares hunm
  exact ⟨hlook.symm, hdec⟩

theorem Inside.use (hs : Inside ctx ds blocks s) (i : Nat) (name : String) :
    Inside ctx ds blocks { s with scopes := s.scopes.use i name } := by
  simpa only [Inside, Scopes.unmarked_use] using hs

theorem quiet_identifier (h : Fits ctx ds vs blocks) (span : Span) (name : String) (b : Option Binding)
    (u : Ty) :
    Quiet (Inside ctx ds blocks) (identifier ctx span name b u) fun x s =>
      Ref.Checked ctx ds vs (.id span name b u) x ∧ Inside ctx ds blocks s := by
  refine ite (fun _ => quiet_refuse _ _ _) fun hname => quiet_get.bind fun s₀ => ?_
  split
  · exact quiet_refuse _ _ _
  · rename_i sym hfind
    refine Quiet.bind (Q := fun _ s => ((ctx.enclosure ds).lookup vs name = some sym.decl ∧
      Declares (ctx.enclosure ds) sym.type sym.decl) ∧ Inside ctx ds blocks s) (quiet_modifyScopes ?_)
      fun _ => ite (fun _ => quiet_refuse _ _ _) fun hstat => quiet_pure _ ?_
    · rintro _ ⟨rfl, hs⟩
      exact ⟨h.find? hs hname hfind, hs.use _ _⟩
    · rintro s ⟨⟨hlook, hdecl⟩, hs⟩
      refine ⟨⟨means_identifier h hlook hdecl hstat, by simp only [Ref.bare], ?_⟩, hs⟩
      simp [Ref.refs, Ref.Bound, hlook]

/-- A member of the class at the position `i` has the name and the type; one that is named through the
class itself is static. -/
def Selects (p : Package) (i : Nat) (ofClass : Bool) (name : String) (x : Ty × Option Binding) : Prop :=
  ∃ b, x.2 = some b ∧ p.member? i name = some b ∧ MemberDeclares p i x.1 b ∧
    (ofClass = true → (memberFlags p b).2 = true)

variable (ds blocks) in
theorem quiet_member (i : Nat) (n : String) (ofClass : Bool) (span : Span) (name : String) :
    Quiet (fun s => ctx.package.signature.className i = some n ∧ Inside ctx ds blocks s)
      (member ctx i ofClass span name)
      fun x s => Selects ctx.package i ofClass name x ∧ Inside ctx ds blocks s := by
  refine quiet_get.bind fun s₀ => ?_
  split
  · exact quiet_refuse _ _ _
  · rename_i sym hfind
    refine Quiet.bind (Q := fun _ s => (ctx.package.member? i name = some sym.decl ∧
      MemberDeclares ctx.package i sym.type sym.decl) ∧ Inside ctx ds blocks s)
      (quiet_modifyScopes ?_) fun _ => Quiet.ite (fun _ => quiet_refuse _ _ _) fun hcls =>
        ite (fun _ => quiet_refuse _ _ _) fun _ => quiet_pure _ fun s hs => ?_
    · rintro _ ⟨rfl, hn, hs⟩
      obtain ⟨c, hc, -⟩ := map_eq_some_iff.1 hn
      have hmem := s₀.scopes.findLocal?_unmarked (memberTable i) name
      rw [hfind, map_some, hs.find?_member hc] at hmem
      have hdec := declares_memberSymbols hc (Mapping.find?_some hmem).1
      refine ⟨⟨?_, hdec⟩, hs.use _ _⟩
      rw [member?, hc, bind_some, ← entries_memberSymbols, lookup_entries, hmem]
      rfl
    · have hcls : ¬ (ofClass && !(memberFlags ctx.package sym.decl).2) = true := hcls
      exact ⟨⟨sym.decl, rfl, hs.1.1, hs.1.2, by simpa using hcls⟩, hs.2⟩

/-! ### Types -/

section

variable {p : Package} {I : State → Prop} (hI : ∀ s, I s → Declared p s.scopes.unmarked)

include hI

theorem quiet_findClass (name : String) :
    Quiet I (findClass name) fun i s => (∀ k, i = some k → p.signature.className k = some name) ∧ I s := by
  refine quiet_get.bind fun s₀ => ?_
  split
  · rename_i hfind
    refine quiet_pure _ ?_
    rintro _ ⟨rfl, hs⟩
    have hunm := s₀.scopes.findKind?_unmarked globalTable name .cls
    rw [hfind, map_some] at hunm
    obtain ⟨i, hdecl, hi⟩ := (hI _ hs).findClass hunm
    cases hdecl
    exact ⟨fun k hk => Option.some.inj hk ▸ hi, hs⟩
  · exact quiet_pure _ fun s hs => ⟨nofun, hs.2⟩

omit hI

theorem quiet_resolve_cls (span : Span) (name : String) :
    Quiet I (resolve span (.cls name)) fun t s => t = .cls name ∧ I s := by
  have hfind : Quiet I (findClass name) fun _ => I := by
    refine quiet_get.bind fun s₀ => ?_
    split
    · exact quiet_pure _ fun s hs => hs.2
    · exact quiet_pure _ fun s hs => hs.2
  refine hfind.bind fun i => ?_
  cases i with
  | some k => exact quiet_pure _ fun s hs => ⟨rfl, hs⟩
  | none => exact quiet_refuse _ _ _

theorem quiet_resolve (span : Span) {t : Ty} (ht : t.IsMember) :
    Quiet I (resolve span t) fun t' s => t' = t ∧ I s := by
  match t with
  | .void | .int | .boolean | .array .int => exact quiet_pure _ fun s hs => ⟨rfl, hs⟩
  | .cls name => exact quiet_resolve_cls span name
  | .array (.cls name) =>
    refine (quiet_resolve_cls span name).bind fun t' => ?_
    split
    · exact quiet_pure _ fun s hs => absurd hs.1 nofun
    · exact quiet_pure _ fun s hs => ⟨rfl, hs.2⟩

end

theorem quiet_expectType (want got : Ty) (span : Span) :
    Quiet (fun s => (want.IsMember ∧ got.IsMember) ∧ P s) (expectType want got span)
      fun _ s => want = got ∧ P s := by
  refine ite (fun _ => quiet_report _ _) fun hne => quiet_pure _ fun s hs => ⟨?_, hs.2⟩
  simpa [hs.1.1.ne_error, hs.1.2.ne_error] using hne

theorem quiet_operand (op : Operator) (span : Span) (want got : Ty) :
    Quiet (fun s => got.IsMember ∧ P s) (operand op span want got) fun _ s => want = got ∧ P s := by
  refine ite (fun _ => quiet_report _ _) fun hne => quiet_pure _ fun s hs => ⟨?_, hs.2⟩
  simpa [hs.1.ne_error] using hne

theorem quiet_operation {op : Operator} (hop : op ≠ .not) (span : Span) (lt rt : Ty) :
    Quiet (fun s => (lt.IsMember ∧ rt.IsMember) ∧ P s) (operation op span lt rt)
      fun t s => (lt = rt ∧ op.Typed rt t) ∧ P s := by
  have both : ∀ want t : Ty, Quiet (fun s => (lt.IsMember ∧ rt.IsMember) ∧ P s) (do
      operand op span want lt
      operand op span want rt
      return t) fun u s => (want = lt ∧ want = rt ∧ u = t) ∧ P s := by
    intro want t
    refine Quiet.bind (Q := fun _ s => want = lt ∧ rt.IsMember ∧ P s) ?_ fun _ => ?_
    · exact (quiet_operand op span want lt).mono (fun s hs => ⟨hs.1.1, hs.1.2, hs.2⟩) fun _ _ => id
    · refine ((quiet_operand op span want rt).frame (want = lt)).bind fun _ => ?_
      exact quiet_pure _ fun s hs => ⟨⟨hs.1, hs.2.1, rfl⟩, hs.2.2⟩
  cases op with
  | not => exact absurd rfl hop
  | eq | ne =>
    refine ite (fun _ => quiet_refuse _ _ _) fun hne =>
      quiet_pure _ fun s hs => ⟨⟨?_, rfl⟩, hs.2⟩
    simpa [hs.1.1.ne_error, hs.1.2.ne_error] using hne
  | and | or =>
    refine (both .boolean .boolean).post ?_
    rintro _ s ⟨⟨rfl, rfl, rfl⟩, hs⟩
    exact ⟨⟨rfl, rfl, rfl⟩, hs⟩
  | lt | le | gt | ge =>
    refine (both .int .boolean).post ?_
    rintro _ s ⟨⟨rfl, rfl, rfl⟩, hs⟩
    exact ⟨⟨rfl, rfl, rfl⟩, hs⟩
  | plus | minus | mul | div =>
    refine (both .int .int).post ?_
    rintro _ s ⟨⟨rfl, rfl, rfl⟩, hs⟩
    exact ⟨⟨rfl, rfl, rfl⟩, hs⟩

/-! ### Uses of references -/

@[simp] theorem bound_withType (r : Ref) (t : Ty) : (r.withType t).bound = r.bound := by
  cases r <;> rfl

theorem namesClass_withType (h : r.NamesClass) (t : Ty) : (r.withType t).NamesClass := by
  obtain ⟨span, name, i, u, rfl⟩ := h
  exact ⟨span, name, i, t, rfl⟩

@[simp] theorem calls_withType (r : Ref) (t : Ty) (id : MemberId) (π : Profile) :
    (r.withType t).Calls Γ vs id π ↔ r.Calls Γ vs id π := by
  cases r <;> simp only [Ref.withType, Ref.Calls]

theorem withType_eq_self (h : r.type = t) : r.withType t = r := by
  subst h
  cases r <;> rfl

theorem callWithType_eq_self {c : Call} (h : c.type = t) : c.withType t = c := by
  subst h
  cases c
  rfl

theorem quiet_useRef {φ : Prop} {Q : Ty × Ref → Prop} (use : Use) (ht : φ → t ≠ .error)
    (h : φ → misuse use (r.withType t) = none → Q (t, r.withType t)) :
    Quiet (fun s => φ ∧ P s) (useRef use t r) fun x s => Q x ∧ P s := by
  refine ite (fun herr => quiet_pure _ fun s hs => absurd herr (ht hs.1)) fun _ => ?_
  split
  · exact quiet_refuse _ _ _
  · rename_i hnone
    exact quiet_pure _ fun s hs => ⟨h hs.1 hnone, hs.2⟩

theorem Means.value {use : Use} (h : Means (ctx.site ds) vs r t) (huse : use = .value ∨ use = .target)
    (hn : misuse use (r.withType t) = none) : (r.withType t).Typed (ctx.site ds) vs t ∧ t.IsValue := by
  unfold Means at h
  split at h
  · rename_i hb
    rcases huse with rfl | rfl <;> simp [misuse, hb] at hn
  · rename_i hb
    rcases huse with rfl | rfl <;> simp [misuse, hb] at hn
  · exact h

section

variable (h : Fits ctx ds vs blocks) {r' : Ref}

include h

theorem quiet_useValue :
    Quiet (fun s => Ref.Checked ctx ds vs r (t, r') ∧ P s) (useRef .value t r') fun x s =>
      ((x.2.Typed (ctx.site ds) vs x.1 ∧ x.1.IsValue) ∧
        Ref.Resolves (ctx.enclosure ds) vs r x.2) ∧ P s :=
  quiet_useRef .value (fun hr => (hr.means.isMember h).ne_error) fun hr hnone =>
    ⟨hr.means.value (.inl rfl) hnone, hr.resolves.withType t⟩

theorem quiet_useTarget :
    Quiet (fun s => Ref.Checked ctx ds vs r (t, r') ∧ P s) (useRef .target t r') fun x s =>
      ((x.2.Typed (ctx.site ds) vs x.1 ∧ x.1.IsValue ∧ x.2.Assignable) ∧
        Ref.Resolves (ctx.enclosure ds) vs r x.2) ∧ P s := by
  refine quiet_useRef .target (fun hr => (hr.means.isMember h).ne_error) fun hr hn => ?_
  obtain ⟨htyp, hval⟩ := hr.means.value (.inr rfl) hn
  refine ⟨⟨htyp, hval, ?_⟩, hr.resolves.withType t⟩
  cases r' with
  | this => simp [misuse, Ref.withType, Ref.bound] at hn
  | member base s name b isLength u =>
    cases isLength with
    | true => rcases b with _ | (_ | _ | _ | _ | _) <;> simp_all [misuse, Ref.withType, Ref.bound]
    | false => trivial
  | id | elem => trivial

theorem quiet_useBase :
    Quiet (fun s => Ref.Checked ctx ds vs r (t, r') ∧ P s) (useRef .base t r') fun x s =>
      ((((x.2.NamesClass ∧ ∃ n, x.1 = .cls n) ∨ x.2.Typed (ctx.site ds) vs x.1) ∧ x.1.IsMember ∧
        x.2.type = x.1) ∧ Ref.Resolves (ctx.enclosure ds) vs r x.2) ∧ P s := by
  refine quiet_useRef .base (fun hr => (hr.means.isMember h).ne_error) fun hr hnone => ?_
  refine ⟨⟨?_, hr.means.isMember h, type_withType r' t⟩, hr.resolves.withType t⟩
  have hmns := hr.means
  unfold Means at hmns
  split at hmns
  · obtain ⟨hnms, n, -, ht⟩ := hmns
    exact .inl ⟨namesClass_withType hnms _, n, ht⟩
  · rename_i hb
    simp [misuse, hb] at hnone
  · exact .inr hmns.1

end

/-- The reference names a method with a result of type `t`. -/
def NamesMethod (Γ : Site) (vs : List LocalDecl) (method : Ref) (t : Ty) : Prop :=
  ∃ id π, method.bound = some (.method id) ∧ Γ.sig.method id = some π ∧ π.result = t ∧
    method.Calls Γ vs id π

theorem quiet_useCallee (h : Fits ctx ds vs blocks) {r' : Ref} :
    Quiet (fun s => Ref.Checked ctx ds vs r (t, r') ∧ P s) (useRef .callee t r') fun x s =>
      (NamesMethod (ctx.site ds) vs x.2 x.1 ∧ Ref.Resolves (ctx.enclosure ds) vs r x.2) ∧ P s := by
  refine quiet_useRef .callee (fun hr => (hr.means.isMember h).ne_error) fun hr hn =>
    ⟨?_, hr.resolves.withType t⟩
  have hb : ∃ id, r'.bound = some (.method id) := by
    rw [misuse.eq_def] at hn
    cases hb : r'.bound with
    | none => simp [hb] at hn
    | some b => cases b <;> simp_all
  obtain ⟨id, hb⟩ := hb
  have hmns := hr.means
  simp only [Means, hb] at hmns
  obtain ⟨π, hπ, ht, hcs⟩ := hmns
  exact ⟨id, π, by simpa using hb, hπ, ht, by simpa using hcs⟩

def namesClass (base : Ref) : Bool :=
  match base.bound with
  | some (.cls _) => true
  | _ => false

theorem namesClass_eq {base : Ref} (h : base.NamesClass) : namesClass base = true := by
  obtain ⟨_, _, _, _, rfl⟩ := h
  rfl

theorem means_member (h : Fits ctx ds vs blocks) {base : Ref} {n : String}
    (hi : ctx.package.signature.className i = some n)
    (hbase : (base.NamesClass ∧ ∃ m, Ty.cls n = .cls m) ∨ base.Typed (ctx.site ds) vs (.cls n))
    {b : Binding} (hb : MemberDeclares ctx.package i t b)
    (hstat : namesClass base = true → (memberFlags ctx.package b).2 = true) (span : Span)
    (name : String) (u : Ty) :
    Means (ctx.site ds) vs (.member base span name (some b) false u) t := by
  have reached : ∀ {isStatic}, (memberFlags ctx.package b).2 = isStatic →
      isStatic = true ∧ base.NamesClass ∨
        ∃ n, ctx.package.signature.className i = some n ∧ base.Typed (ctx.site ds) vs (.cls n) := by
    rintro _ rfl
    obtain ⟨hnms, -⟩ | hbase := hbase
    · exact .inl ⟨hstat (namesClass_eq hnms), hnms⟩
    · exact .inr ⟨n, hi, hbase⟩
  cases b with
  | field id =>
    obtain ⟨rfl, f, hf, rfl⟩ := hb
    simp only [Means, Ref.bound, Ref.withType, Ref.Typed, Bool.false_eq_true, ↓reduceIte]
    exact ⟨⟨trivial, id, f, rfl, hf, rfl, reached (by simp [memberFlags, hf])⟩, h.proper.field id f hf⟩
  | method id =>
    obtain ⟨rfl, m, hm, rfl⟩ := hb
    exact ⟨m.profile, by simp [signature, hm], rfl,
      reached (by simp [memberFlags, hm, MethodDecl.profile])⟩
  | var | param | cls => exact hb.elim

/-! ### Calls -/

theorem quiet_arguments (name : String) (ds : List ParamDecl) (args : List (Ty × Expr)) :
    Quiet (fun s => ((∀ d ∈ ds, d.type.IsValue) ∧ (∀ a ∈ args, a.1.IsMember) ∧
        args.length = ds.length) ∧ P s)
      (arguments name ds args) fun _ s => args.map (·.1) = ds.map (·.type) ∧ P s := by
  induction ds generalizing args with
  | nil =>
    refine quiet_pure _ fun s hs => ⟨?_, hs.2⟩
    rw [length_eq_zero_iff.1 hs.1.2.2]
    rfl
  | cons d ds ih =>
    cases args with
    | nil => exact quiet_pure _ fun s hs => absurd hs.1.2.2 nofun
    | cons a args =>
      have rest : Quiet (fun s => ((∀ d' ∈ d :: ds, d'.type.IsValue) ∧
          (∀ a' ∈ a :: args, a'.1.IsMember) ∧ (a :: args).length = (d :: ds).length ∧
          a.1 = d.type) ∧ P s) (arguments name ds args)
          fun _ s => (a :: args).map (·.1) = (d :: ds).map (·.type) ∧ P s := by
        refine ((ih args).frame (a.1 = d.type)).mono ?_ ?_
        · rintro s ⟨⟨hds, hargs, hlen, ha⟩, hs⟩
          rw [forall_mem_cons] at hds hargs
          exact ⟨ha, ⟨hds.2, hargs.2, by simpa using hlen⟩, hs⟩
        · rintro _ s ⟨ha, hrest, hs⟩
          exact ⟨by simp [ha, hrest], hs⟩
      refine ite (fun _ => (quiet_report _ _).bind fun _ => rest) fun hne =>
        rest.mono (fun s hs => ⟨⟨hs.1.1, hs.1.2.1, hs.1.2.2, ?_⟩, hs.2⟩) fun _ _ => id
      rw [forall_mem_cons, forall_mem_cons] at hs
      have := hs.1.1.1.ne_error
      have := hs.1.2.1.1.ne_error
      simp_all

theorem quiet_finishCall (h : Fits ctx ds vs blocks) (t : Ty) (method : Ref)
    (args : List (Ty × Expr)) (close : Span) (b : Option MemberId) :
    Quiet (fun s => (NamesMethod (ctx.site ds) vs method t ∧ Expr.CheckedList ctx ds vs es args) ∧ P s)
      (finishCall ctx t method args close b) fun x s =>
        ((x.2.Typed (ctx.site ds) vs x.1 ∧ x.1.IsMember) ∧
          ∃ b u, x.2 = .mk method (args.map (·.2)) close b u) ∧ P s := by
  unfold finishCall
  split
  · rename_i id hbd
    split
    · rename_i md hmd
      have hprof : ctx.package.signature.method id = some md.profile :=
        congrArg (Option.map MethodDecl.profile) hmd
      have hpar : ∀ d ∈ md.params, d.type.IsValue := fun d hd =>
        h.proper.param id md.profile hprof d.type (List.mem_map_of_mem hd)
      refine ite (fun _ => quiet_refuse _ _ _) fun hlen => ?_
      refine Quiet.bind (Q := fun _ s => args.map (·.1) = md.params.map (·.type) ∧
        (NamesMethod (ctx.site ds) vs method t ∧ Expr.CheckedList ctx ds vs es args) ∧ P s) ?_
        fun _ => quiet_pure _ ?_
      · exact (quiet_arguments md.name md.params args).mono
          (fun s hs => ⟨⟨hpar, hs.1.2.member, by simpa using hlen⟩, hs⟩) fun _ _ h => h
      · rintro s ⟨htypes, ⟨⟨id', π, hbd', hπ, rfl, hcs⟩, hargs⟩, hs⟩
        obtain rfl : id' = id := by simpa [hbd'] using hbd
        cases hπ.symm.trans hprof
        refine ⟨⟨⟨?_, h.proper.result _ _ hπ⟩, _, _, rfl⟩, hs⟩
        have htyp := hargs.typed
        rw [htypes] at htyp
        exact ⟨rfl, id', _, rfl, hπ, rfl, htyp, hcs⟩
    · rename_i hmd
      refine quiet_pure _ ?_
      rintro s ⟨⟨⟨id', π, hbd', hπ, -⟩, -⟩, -⟩
      obtain rfl : id' = id := by simpa [hbd'] using hbd
      simp [signature, hmd] at hπ
  · rename_i hbd
    refine quiet_pure _ ?_
    rintro s ⟨⟨⟨id', π, hbd', -⟩, -⟩, -⟩
    exact absurd hbd' (hbd id')

/-! ### Expressions -/

section

variable (h : Fits ctx ds vs blocks)

include h

mutual

theorem quiet_ref (r : Ref) (hr : r.Fresh) :
    Quiet (Inside ctx ds blocks) (ref ctx r) fun x s =>
      Ref.Checked ctx ds vs r x ∧ Inside ctx ds blocks s := by
  match r with
  | .this span u =>
    refine ite (fun _ => quiet_refuse _ _ _) fun hstat => quiet_pure _ fun s hs => ⟨⟨?_, ?_⟩, hs⟩
    · exact ⟨⟨rfl, by simpa using hstat, ctx.className, h.className, rfl⟩, trivial⟩
    · exact ⟨rfl, by simp [Ref.refs, Ref.Bound]⟩
  | .id span name b u => exact quiet_identifier h span name b u
  | .member base span name b isLength u =>
    obtain ⟨rfl, rfl, hbase⟩ := hr
    refine (quiet_ref base hbase).bind fun (bt, base') => (quiet_useBase h).bind fun (bt, base') => ?_
    cases bt with
    | error => exact quiet_pure _ fun s hs => absurd rfl hs.1.1.2.1.ne_error
    | array elem =>
      refine ite (fun _ => quiet_refuse _ _ _) fun hname => quiet_pure _ ?_
      rintro s ⟨⟨⟨⟨-, n, hn⟩ | htyp, -, ht⟩, hbare, hbd⟩, hs⟩
      · cases hn
      · refine ⟨⟨⟨⟨rfl, rfl, elem, htyp⟩, trivial⟩, by simp [Ref.bare, hbare], ?_⟩, hs⟩
        simpa [Ref.refs, Ref.Bound, hbd, ht] using hname
    | cls n =>
      refine ((quiet_findClass (fun s hs => hs.toDeclared) n).frame _).bind fun i => ?_
      cases i with
      | none => exact quiet_refuse _ _ _
      | some i =>
        refine Quiet.bind (((quiet_member ds blocks i n (namesClass base') span name).frame
          (ctx.package.signature.className i = some n ∧
            (((base'.NamesClass ∧ ∃ m, Ty.cls n = .cls m) ∨ base'.Typed (ctx.site ds) vs (.cls n)) ∧
              (Ty.cls n).IsMember ∧ base'.type = .cls n) ∧
            Ref.Resolves (ctx.enclosure ds) vs base base')).mono ?_ fun _ _ h => h)
          fun (t, b) => quiet_pure _ ?_
        · rintro s ⟨hbase, hi, hs⟩
          exact ⟨⟨hi i rfl, hbase⟩, hi i rfl, hs⟩
        · rintro s ⟨⟨hi, ⟨hbase, -, ht⟩, hbare, hbd⟩, ⟨b, rfl, hmem, hb, hstat⟩, hs⟩
          refine ⟨⟨means_member h hi hbase hb hstat _ name u, by simp [Ref.bare, hbare], ?_⟩, hs⟩
          rw [Ref.refs, allBound_cons]
          exact ⟨⟨i, n, hi, ht, rfl, hmem.symm⟩, hbd⟩
    | void | int | boolean => exact quiet_refuse _ _ _
  | .elem base index u =>
    refine (quiet_ref base hr.1).bind fun (bt, base') => (quiet_useValue h).bind fun (bt, base') => ?_
    refine ((quiet_expr index hr.2).frame _).bind fun (it, index') => quiet_reportIf _ _ ?_
    cases bt with
    | error => exact quiet_pure _ fun s hs => absurd rfl hs.2.1.1.2.ne_error
    | array elem =>
      refine quiet_pure _ ?_
      rintro s ⟨hne, ⟨⟨hbase, hval⟩, hbare, hbd⟩, ⟨hidx, hit, hbare', hbd'⟩, hs⟩
      obtain rfl : it = .int := by simpa [hit.ne_error] using hne
      refine ⟨⟨⟨⟨rfl, hbase, hidx⟩, hval.elem⟩, by simp [Ref.bare, hbare, hbare'], ?_⟩, hs⟩
      simp [Ref.refs, Ref.Bound, hbd, hbd']
    | void | int | boolean | cls => exact quiet_refuse _ _ _

theorem quiet_expr (e : Expr) (he : e.Fresh) :
    Quiet (Inside ctx ds blocks) (expr ctx e) fun x s =>
      Expr.Checked ctx ds vs e x ∧ Inside ctx ds blocks s := by
  match e with
  | .ref r =>
    refine (quiet_ref r he).bind fun (t, r') => (quiet_useValue h).bind fun (t, r') => quiet_pure _ ?_
    rintro s ⟨⟨⟨htyp, hval⟩, hb, hbd⟩, hs⟩
    rw [withType_eq_self htyp.type_eq]
    exact ⟨⟨by simpa only [Expr.Typed] using htyp, .inr hval, by simp [Expr.bare, hb],
      by simpa [Expr.refs] using hbd⟩, hs⟩
  | .int span spelling u =>
    refine ite (fun _ => quiet_refuse _ _ _) fun hfits => quiet_pure _ fun s hs => ⟨⟨?_, ?_, ?_⟩, hs⟩
    · exact ⟨rfl, rfl, by simpa using hfits⟩
    · exact .inr trivial
    · exact ⟨rfl, by simp [Expr.refs]⟩
  | .bool span value u =>
    exact quiet_pure _ fun s hs => ⟨⟨⟨rfl, rfl⟩, .inr trivial, rfl, by simp [Expr.refs]⟩, hs⟩
  | .unary span op operand u =>
    refine (quiet_expr operand he).bind fun (t, operand') => ?_
    refine ite (fun _ => quiet_refuse _ _ _) fun hne => quiet_pure _ ?_
    rintro s ⟨⟨hopd, ht, hb, hbd⟩, hs⟩
    obtain rfl : unaryType op = t := by simpa [ht.ne_error] using hne
    exact ⟨⟨⟨rfl, rfl, hopd⟩, ht, by simp [Expr.bare, hb], by simpa [Expr.refs] using hbd⟩, hs⟩
  | .binary op lhs rhs u =>
    refine (quiet_expr lhs he.2.1).bind fun (lt, lhs') => ?_
    refine ((quiet_expr rhs he.2.2).frame _).bind fun (rt, rhs') => ?_
    refine Quiet.bind (((quiet_operation (P := Inside ctx ds blocks) he.1 (lhs'.span.merge rhs'.span) lt
      rt).frame (Expr.Checked ctx ds vs lhs (lt, lhs') ∧ Expr.Checked ctx ds vs rhs (rt, rhs'))).mono
      (fun s hs => ⟨⟨hs.1, hs.2.1⟩, ⟨hs.1.member, hs.2.1.member⟩, hs.2.2⟩) fun _ _ h => h)
      fun t => quiet_pure _ ?_
    rintro s ⟨⟨⟨hl, -, hb, hbd⟩, hr, -, hb', hbd'⟩, ⟨rfl, hop⟩, hs⟩
    exact ⟨⟨⟨rfl, lt, hl, hr, hop⟩, Operator.Typed.isMember hop, by simp [Expr.bare, hb, hb'],
      by simp [Expr.refs, hbd, hbd']⟩, hs⟩
  | .newObject span cls bound u =>
    refine (quiet_findClass (fun s hs => hs.toDeclared) cls).bind fun i => ?_
    cases i with
    | none => exact quiet_refuse _ _ _
    | some i =>
      exact quiet_pure _ fun s hs =>
        ⟨⟨⟨rfl, rfl, i, rfl, hs.1 i rfl⟩, .inr trivial, rfl, by simp [Expr.refs]⟩, hs.2⟩
  | .newArray span elem size u =>
    refine (quiet_resolve _ (.inr he.1.elem)).bind fun found => ?_
    refine ((quiet_expr size he.2).frame _).bind fun (st, size') => ?_
    refine ite (fun _ => quiet_refuse _ _ _) fun hne => quiet_pure _ ?_
    rintro s ⟨rfl, ⟨hsize, hst, hb, hbd⟩, hs⟩
    obtain rfl : st = .int := by simpa [hst.ne_error] using hne
    simp only [he.1.elem.ne_error, ↓reduceIte]
    exact ⟨⟨⟨rfl, rfl, he.1, hsize⟩, .inr he.1, by simp [Expr.bare, hb],
      by simpa [Expr.refs] using hbd⟩, hs⟩
  | .call c =>
    refine (quiet_call c he).bind fun (t, c') => quiet_pure _ ?_
    rintro s ⟨⟨htyp, ht, hb, hbd⟩, hs⟩
    rw [callWithType_eq_self htyp.type_eq]
    exact ⟨⟨by simpa only [Expr.Typed] using htyp, ht, by simp [Expr.bare, hb],
      by simpa [Expr.refs] using hbd⟩, hs⟩

theorem quiet_exprs (es : List Expr) (hes : Expr.FreshList es) :
    Quiet (Inside ctx ds blocks) (exprs ctx es) fun xs s =>
      Expr.CheckedList ctx ds vs es xs ∧ Inside ctx ds blocks s := by
  match es with
  | [] => exact quiet_pure _ fun s hs => ⟨⟨rfl, forall_mem_nil _, rfl, by simp [Expr.refsList]⟩, hs⟩
  | e :: es =>
    refine (quiet_expr e hes.1).bind fun te => ?_
    refine ((quiet_exprs es hes.2).frame _).bind fun tes => quiet_pure _ ?_
    rintro s ⟨⟨he, ht, hbare, hbd⟩, hes, hs⟩
    exact ⟨⟨⟨_, _, rfl, he, hes.typed⟩, forall_mem_cons.2 ⟨ht, hes.member⟩,
      by simp [Expr.bareList, hbare, hes.bare], by simp [Expr.refsList, hbd, hes.bound]⟩, hs⟩

theorem quiet_call (c : Call) (hc : c.Fresh) :
    Quiet (Inside ctx ds blocks) (call ctx c) fun x s =>
      Call.Checked ctx ds vs c x ∧ Inside ctx ds blocks s := by
  match c with
  | .mk method args close b u =>
    refine (quiet_ref method hc.1).bind fun (t, method') => (quiet_useCallee h).bind fun (t, method') => ?_
    refine ((quiet_exprs args hc.2).frame _).bind fun args' => ?_
    refine ((quiet_finishCall h t method' args' close b).frame (Ref.Resolves (ctx.enclosure ds) vs method
      method' ∧ Expr.CheckedList ctx ds vs args args')).mono
      (fun s hs => ⟨⟨hs.1.2, hs.2.1⟩, ⟨hs.1.1, hs.2.1⟩, hs.2.2⟩) ?_
    rintro ⟨t, _⟩ s ⟨⟨⟨hbare, hbd⟩, ha⟩, ⟨⟨htyp, ht⟩, b', u', rfl⟩, hs⟩
    exact ⟨⟨htyp, ht, by simp [Call.bare, hbare, ha.bare], by simp [Call.refs, hbd, ha.bound]⟩, hs⟩

end

end

end MiniJam.Typing
