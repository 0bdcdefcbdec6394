import MiniJam.Proofs.Typing.Expr

/-!
# Checked statements

A statement that is checked without a report is well typed with the variables of the open blocks in
scope, has its names bound, and declares no name twice with overlapping scopes (`quiet_stmt`).
-/

namespace MiniJam.Typing

open List

/-- The name of a local variable is that of no parameter and of no local variable in scope before
it. -/
def Free (E : Enclosure) (x : List LocalDecl × LocalDecl) : Prop :=
  x.2.name ∉ E.params.map (·.name) ∧ x.2.name ∉ x.1.map (·.name)

/-- The statement `s'` is `s` with its names bound, and declares no name twice. -/
structure Stmt.Resolves (E : Enclosure) (vs : List LocalDecl) (s s' : Stmt) : Prop where
  bare : s'.bare = s.bare
  refs : ∀ x ∈ s'.refs vs, x.2.Bound E x.1
  decls : ∀ x ∈ s.decls vs, Free E x

/-- The statements `ss'` are `ss` with their names bound, and declare no name twice. -/
structure Stmt.ResolvesList (E : Enclosure) (vs : List LocalDecl) (ss ss' : List Stmt) : Prop where
  bare : Stmt.bareList ss' = Stmt.bareList ss
  refs : ∀ x ∈ Stmt.refsList vs ss', x.2.Bound E x.1
  decls : ∀ x ∈ Stmt.declsList vs ss, Free E x

variable {E : Enclosure} {vs : List LocalDecl} {s : Stmt}

theorem AllBound.placed {rs : List Ref} (h : AllBound E vs rs) :
    ∀ x ∈ rs.map (vs, ·), x.2.Bound E x.1 :=
  forall_mem_map.2 h

/-- What the check makes of a statement. -/
structure Stmt.Checked (ctx : Context) (ds : List ParamDecl) (vs : List LocalDecl) (s s' : Stmt) : Prop where
  typed : s'.Typed (ctx.site ds) vs
  resolves : Stmt.Resolves (ctx.enclosure ds) vs s s'

/-- What the check makes of statements. -/
structure Stmt.CheckedList (ctx : Context) (ds : List ParamDecl) (vs : List LocalDecl)
    (ss ss' : List Stmt) : Prop where
  typed : Stmt.TypedList (ctx.site ds) vs ss'
  resolves : Stmt.ResolvesList (ctx.enclosure ds) vs ss ss'

theorem Stmt.Resolves.declared {s' : Stmt}
    (h : Stmt.Resolves E vs s s') : s'.declared = s.declared := by
  rw [← Stmt.declared_bare, h.bare, Stmt.declared_bare]

theorem Stmt.ResolvesList.declared {ss ss' : List Stmt}
    (h : Stmt.ResolvesList E vs ss ss') : ss'.flatMap (·.declared) = ss.flatMap (·.declared) := by
  rw [← Stmt.declared_bareList, h.bare, Stmt.declared_bareList]

/-! ### Scopes -/

variable {ctx : Context} {ds : List ParamDecl} {b : List LocalDecl} {bs blocks : List (List LocalDecl)}

theorem quiet_openScope :
    Quiet (Inside ctx ds blocks) (openScope ctx) fun _ => Inside ctx ds ([] :: blocks) :=
  quiet_modifyTable ScopeTable.unmarked_push fun _ hU =>
    hU.modify (fun _ _ _ => rfl) (by simpa using hU.distinct)

theorem quiet_closeScope :
    Quiet (Inside ctx ds (b :: blocks)) (closeScope ctx) fun _ => Inside ctx ds blocks := by
  refine quiet_modifyTable ScopeTable.unmarked_pop fun U hU => hU.modify (fun _ _ _ => rfl) ?_
  have hdist := hU.distinct
  rw [scope_cons, map_append] at hdist
  exact (nodup_append.1 hdist).1

theorem quiet_declare (d : LocalDecl) :
    Quiet (Inside ctx ds (b :: bs)) (bind ctx.table d.name .var d.type d.span (.var d)) fun _ s =>
      Free (ctx.enclosure ds) (scope (b :: bs), d) ∧ Inside ctx ds ((b ++ [d]) :: bs) s := by
  refine quiet_bind (P := Scoped (ctx.enclosure ds) ctx.table (b :: bs)) (R := fun U =>
    Free (ctx.enclosure ds) (scope (b :: bs), d) ∧
      Scoped (ctx.enclosure ds) ctx.table ((b ++ [d]) :: bs) U) fun U hU hn => ?_
  rw [hU.find?_method] at hn
  -- The name is in none of the open mappings and is not the name of a parameter.
  have hf : d.name ∉ (localSymbols (b :: bs).flatten ++ paramSymbols ds).map (·.name) := by
    intro hmem
    obtain ⟨sym, hsym, hname⟩ := mem_map.1 hmem
    exact List.find?_eq_none.1 hn sym hsym (beq_iff_eq.2 hname)
  rw [map_append, localSymbols, map_map, names_paramSymbols, mem_append, not_or] at hf
  have hscop : d.name ∉ (scope (b :: bs)).map (·.name) :=
    fun hmem => hf.1 (((scope_perm (b :: bs)).map _).mem_iff.1 hmem)
  refine ⟨⟨hf.2, hscop⟩, hU.modify (fun _ _ _ => ?_) ?_⟩
  · simp [ScopeTable.insert, localSymbols]
  · rw [scope_cons, ← append_assoc, ← scope_cons, map_append]
    refine nodup_append.2 ⟨hU.distinct, pairwise_singleton _ _, ?_⟩
    rintro x hx y hy rfl
    obtain rfl := mem_singleton.1 hy
    exact hscop hx

theorem quiet_scoped {α β : Type} {φ : Prop} {T : α → Prop} {x : Check α} {f : α → Check β}
    {Q : β → State → Prop}
    (hx : Quiet (Inside ctx ds ([] :: blocks)) x fun a s => T a ∧ Inside ctx ds (b :: blocks) s)
    (hf : ∀ a, Quiet (fun s => φ ∧ T a ∧ Inside ctx ds blocks s) (f a) Q) :
    Quiet (fun s => φ ∧ Inside ctx ds blocks s)
      (do openScope ctx; let a ← x; closeScope ctx; f a) Q := by
  refine (quiet_openScope.frame φ).bind fun _ => (hx.frame φ).bind fun a => ?_
  exact ((quiet_closeScope.frame (T a)).frame φ).bind fun _ => hf a

theorem Fits.opened (h : Fits ctx ds (scope blocks) blocks) :
    Fits ctx ds (scope ([] :: blocks)) ([] :: blocks) where
  __ := h
  vars := by simpa using h.vars
  sees _ _ := rfl

theorem Fits.extended (h : Fits ctx ds (scope (b :: bs)) (b :: bs))
    (hvs : ∀ d ∈ vs, d.type.IsValue) : Fits ctx ds (scope ((b ++ vs) :: bs)) ((b ++ vs) :: bs) where
  __ := h
  vars := by
    rw [scope_cons, ← append_assoc, ← scope_cons]
    exact forall_mem_append.2 ⟨h.vars, hvs⟩
  sees _ _ := rfl

theorem Fits.declaring (h : Fits ctx ds (scope (b :: bs)) (b :: bs)) (d : LocalDecl) :
    Fits { ctx with declaring := some d.name } ds (scope (b :: bs)) ((b ++ [d]) :: bs) where
  __ := h
  sees name hne := by
    have hne : (name == d.name) = false := beq_false_of_ne fun h => hne (congrArg some h.symm)
    simp [localNames, lookup_append, lookup_cons, hne]

/-! ### Statements -/

theorem quiet_resolveVar {I : State → Prop} (what name : String) (span : Span) {t : Ty}
    (ht : t.IsMember) :
    Quiet I (resolveVar what name span t) fun t' s => (t' = t ∧ t.IsValue) ∧ I s := by
  refine Quiet.ite (fun _ => quiet_refuse _ _ _) fun hvoid => ?_
  exact (quiet_resolve span ht).post fun t' s hs => ⟨⟨hs.1, ht.resolve_left hvoid⟩, hs.2⟩

theorem declared_isValue (h : s.Fresh) : ∀ d ∈ s.declared, d.type.IsValue := by
  cases s with
  | decl d init =>
    simpa [Stmt.declared] using h.1
  | block | assign | call | ifThen | ifElse | loop => exact forall_mem_nil _

theorem quiet_condition (h : Fits ctx ds (scope blocks) blocks) (e : Expr) (he : e.Fresh) :
    Quiet (Inside ctx ds blocks) (condition ctx e) fun e' s =>
      Expr.Checked ctx ds (scope blocks) e (.boolean, e') ∧ Inside ctx ds blocks s := by
  refine (quiet_expr h e he).bind ?_
  rintro ⟨t, e'⟩
  refine Quiet.ite (fun _ => quiet_refuse _ _ _) fun hne => quiet_pure _ fun s hs => ?_
  obtain rfl : t = .boolean := by simpa [hs.1.member.ne_error] using hne
  exact hs

theorem quiet_refuseDecl (what : String) (s : Stmt) :
    Quiet P (refuseDecl what s) fun _ st => s.declared = [] ∧ P st := by
  cases s with
  | decl => exact quiet_report _ _
  | block | assign | call | ifThen | ifElse | loop => exact quiet_pure _ fun s hs => ⟨rfl, hs⟩

/-- A condition and the branch or the body after it. -/
theorem quiet_branch {β : Type} {φ : Prop} {what : String} {f : Stmt → Check β}
    {Q : β → State → Prop} (hs : Quiet (Inside ctx ds ([] :: blocks)) (stmt ctx s) fun s' st =>
      Stmt.Checked ctx ds (scope ([] :: blocks)) s s' ∧ Inside ctx ds (([] ++ s.declared) :: blocks) st)
    (hf : ∀ s', Quiet (fun st => (φ ∧ Stmt.Checked ctx ds (scope blocks) s s' ∧ s'.declared = []) ∧
      Inside ctx ds blocks st) (f s') Q) :
    Quiet (fun st => φ ∧ Inside ctx ds blocks st)
      (do refuseDecl what s; openScope ctx; let s' ← stmt ctx s; closeScope ctx; f s') Q := by
  refine ((quiet_refuseDecl what s).frame φ).bind fun _ => (quiet_scoped hs fun s' => ?_).assoc
  refine (hf s').mono ?_ fun _ _ h => h
  rintro st ⟨⟨hφ, hdecl⟩, hs', hst⟩
  rw [scope_cons, append_nil] at hs'
  exact ⟨⟨hφ, hs', hs'.resolves.declared.trans hdecl⟩, hst⟩

mutual

theorem quiet_stmt {b : List LocalDecl} {bs : List (List LocalDecl)}
    (h : Fits ctx ds (scope (b :: bs)) (b :: bs)) (s : Stmt) (hs : s.Fresh) :
    Quiet (Inside ctx ds (b :: bs)) (stmt ctx s) fun s' st =>
      Stmt.Checked ctx ds (scope (b :: bs)) s s' ∧ Inside ctx ds ((b ++ s.declared) :: bs) st := by
  match s with
  | .block span body =>
    refine (quiet_scoped (φ := True) (quiet_stmts h.opened body hs) fun body' =>
      quiet_pure _ ?_).mono (fun _ hst => ⟨trivial, hst⟩) fun _ _ h => h
    rintro st ⟨-, hbody, hst⟩
    rw [scope_cons, append_nil] at hbody
    obtain ⟨htyp, hb, hr, hdec⟩ := hbody
    refine ⟨⟨by simpa [Stmt.Typed] using htyp, by simp [Stmt.bare, hb], ?_, ?_⟩,
      by simpa [Stmt.declared] using hst⟩
    · simpa only [Stmt.refs] using hr
    · simpa only [Stmt.decls] using hdec
  | .decl d init =>
    refine (quiet_resolveVar _ _ _ (.inr hs.1)).bind fun t => ?_
    refine ((quiet_declare { d with type := t }).frame _).bind fun _ => ?_
    refine (((quiet_expr (h.declaring { d with type := t }) init hs.2).frame _).frame _).bind
      fun (it, init') => ?_
    refine Quiet.bind (((quiet_expectType
      (P := Inside ctx ds ((b ++ [{ d with type := t }]) :: bs)) t it init'.span).frame
      ((t = d.type ∧ Free (ctx.enclosure ds) (scope (b :: bs), { d with type := t })) ∧
        Expr.Checked ctx ds (scope (b :: bs)) init (it, init'))).mono ?_ fun _ _ h => h)
      fun _ => quiet_pure _ ?_
    · rintro st ⟨⟨rfl, hval⟩, hf, hi, hst⟩
      exact ⟨⟨⟨rfl, hf⟩, hi.typed, hi.member, hi.resolves⟩, ⟨.inr hval, hi.member⟩, hst⟩
    · rintro st ⟨⟨⟨rfl, hf⟩, hi, -, hb, hbd⟩, rfl, hst⟩
      have hnms : ∀ v ∈ scope (b :: bs), v.name ≠ d.name := fun v hv heq =>
        hf.2 (mem_map.2 ⟨v, hv, heq⟩)
      refine ⟨⟨⟨hs.1, hnms, hi⟩, by simp [Stmt.bare, hb], ?_, ?_⟩, hst⟩
      · rw [Stmt.refs]
        exact AllBound.placed hbd
      · simpa [Stmt.decls] using hf
  | .assign lhs rhs =>
    refine (quiet_ref h lhs hs.1).bind fun (lt, lhs') => (quiet_useTarget h).bind fun (lt, lhs') => ?_
    refine ((quiet_expr h rhs hs.2).frame _).bind fun (rt, rhs') => ?_
    refine Quiet.bind (((quiet_expectType (P := Inside ctx ds (b :: bs)) lt rt rhs'.span).frame
      (((lhs'.Typed (ctx.site ds) (scope (b :: bs)) lt ∧ lt.IsValue ∧ lhs'.Assignable) ∧
        Ref.Resolves (ctx.enclosure ds) (scope (b :: bs)) lhs lhs') ∧
        Expr.Checked ctx ds (scope (b :: bs)) rhs (rt, rhs'))).mono
      (fun s hs => ⟨⟨hs.1, hs.2.1⟩, ⟨.inr hs.1.1.2.1, hs.2.1.member⟩, hs.2.2⟩) fun _ _ h => h)
      fun _ => quiet_pure _ ?_
    rintro st ⟨⟨⟨⟨hlhs, -, hasg⟩, hb, hbd⟩, hrhs, -, hb', hbd'⟩, rfl, hst⟩
    refine ⟨⟨⟨hasg, lt, hlhs, hrhs⟩, by simp [Stmt.bare, hb, hb'], ?_, by simp [Stmt.decls]⟩,
      by simpa [Stmt.declared] using hst⟩
    exact AllBound.placed (allBound_append.2 ⟨hbd, hbd'⟩)
  | .call c =>
    refine (quiet_call h c hs).bind fun (t, c') => quiet_pure _ ?_
    rintro st ⟨⟨hc, -, hb, hbd⟩, hst⟩
    refine ⟨⟨⟨t, hc⟩, by simp [Stmt.bare, hb], ?_, by simp [Stmt.decls]⟩,
      by simpa [Stmt.declared] using hst⟩
    exact AllBound.placed hbd
  | .ifThen span cond body | .loop span cond body =>
    refine (quiet_condition h cond hs.1).bind fun cond' =>
      quiet_branch (quiet_stmt h.opened body hs.2) fun body' => quiet_pure _ ?_
    rintro st ⟨⟨⟨hcond, -, hb, hbd⟩, ⟨hbody, hb', hr, hdec⟩, hdecl⟩, hst⟩
    refine ⟨⟨⟨hcond, hdecl, hbody⟩, by simp [Stmt.bare, hb, hb'], ?_, ?_⟩,
      by simpa [Stmt.declared] using hst⟩
    · rw [Stmt.refs]
      exact forall_mem_append.2 ⟨AllBound.placed hbd, hr⟩
    · simpa only [Stmt.decls] using hdec
  | .ifElse span cond body other =>
    refine (quiet_condition h cond hs.1).bind fun cond' =>
      quiet_branch (quiet_stmt h.opened body hs.2.1) fun body' =>
        quiet_branch (quiet_stmt h.opened other hs.2.2) fun other' => quiet_pure _ ?_
    rintro st ⟨⟨⟨⟨hcond, -, hb, hbd⟩, ⟨hbody, hb', hr, hdec⟩, hdecl⟩,
      ⟨hoth, hb'', hr', hdec'⟩, hdecl'⟩, hst⟩
    refine ⟨⟨⟨hcond, ⟨hdecl, hbody⟩, hdecl', hoth⟩,
      by simp [Stmt.bare, hb, hb', hb''], ?_, ?_⟩, by simpa [Stmt.declared] using hst⟩
    · rw [Stmt.refs]
      exact forall_mem_append.2 ⟨forall_mem_append.2 ⟨AllBound.placed hbd, hr⟩, hr'⟩
    · rw [Stmt.decls]
      exact forall_mem_append.2 ⟨hdec, hdec'⟩

theorem quiet_stmts {b : List LocalDecl} {bs : List (List LocalDecl)}
    (h : Fits ctx ds (scope (b :: bs)) (b :: bs)) (ss : List Stmt) (hss : Stmt.FreshList ss) :
    Quiet (Inside ctx ds (b :: bs)) (stmts ctx ss) fun ss' st =>
      Stmt.CheckedList ctx ds (scope (b :: bs)) ss ss' ∧
        Inside ctx ds ((b ++ ss.flatMap (·.declared)) :: bs) st := by
  match ss with
  | [] =>
    exact quiet_pure _ fun s hs =>
      ⟨⟨trivial, rfl, forall_mem_nil _, forall_mem_nil _⟩, by simpa using hs⟩
  | s :: ss =>
    refine (quiet_stmt h s hss.1).bind fun s' => ?_
    refine ((quiet_stmts (h.extended (declared_isValue hss.1)) ss hss.2).frame _).bind fun ss' =>
      quiet_pure _ ?_
    rintro st ⟨hs, hss, hst⟩
    rw [scope_cons, ← append_assoc, ← scope_cons] at hss
    -- The checked statement declares what the one that was read declares.
    have hdecl := hs.resolves.declared
    refine ⟨⟨⟨hs.typed, by rw [hdecl]; exact hss.typed⟩,
      by simp [Stmt.bareList, hs.resolves.bare, hss.resolves.bare], ?_, ?_⟩, by simpa using hst⟩
    · rw [Stmt.refsList, hdecl]
      exact forall_mem_append.2 ⟨hs.resolves.refs, hss.resolves.refs⟩
    · rw [Stmt.declsList]
      exact forall_mem_append.2 ⟨hs.resolves.decls, hss.resolves.decls⟩

end

end MiniJam.Typing
