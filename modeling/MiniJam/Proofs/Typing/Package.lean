import MiniJam.Proofs.Typing.Slips
import MiniJam.Proofs.Typing.Stmt

/-!
# Checked packages

A package that is read and then checked without a report is well typed (`Package.typed_of_check`), and
its names are bound as lexical scoping has it (`Package.resolves_of_check`).
-/

namespace MiniJam

open List Predefined MethodDecl Scopes

namespace Typing

/-! ### Entering the classes and their members -/

variable {q p : Package} {c : ClassDecl} {cls : Nat} {m : MethodDecl}

/-- The tables when the members of the classes `done` have been entered. -/
def tablesOf (q : Package) (done : List (ClassDecl × Nat)) : Array (ScopeTable Binding) :=
  (⟨"global", none, [], classSymbols q⟩ ::
    done.map fun (c, i) => ⟨c.name, some globalTable, [], memberSymbols c i⟩).toArray

theorem declared_tablesOf (q : Package) : Declared q ⟨tablesOf q q.classes.zipIdx⟩ where
  global := rfl
  members i c hc := by
    have hi : q.classes[i]? = some c := hc
    simp [table?, tablesOf, memberTable, hi]

theorem quiet_declareClasses (q : Package) :
    Quiet (fun s => Filling (· = #[]) "global" none globalTable [] s.scopes.unmarked)
      (declareClasses q.classes) fun _ s =>
        (q.classes.map (·.name)).Nodup ∧ s.scopes.unmarked = ⟨tablesOf q []⟩ := by
  refine (quiet_fill [] q.classes.zipIdx fun _ => rfl).bind fun _ => quiet_pure _ ?_
  rintro s ⟨hnd, T, rfl, -, hs⟩
  exact ⟨names_classSymbols q ▸ hnd, hs⟩

theorem quiet_declareMembers (c : ClassDecl) (cls : Nat) :
    Quiet (fun s => s.scopes.unmarked = ⟨T⟩) (declareMembers c cls) fun _ s =>
      (c.fields.map (·.name) ++ c.methods.map (·.name)).Nodup ∧
        s.scopes.unmarked = ⟨T.push ⟨c.name, some globalTable, [], memberSymbols c cls⟩⟩ := by
  refine Quiet.bind (quiet_newTable (P := (· = ⟨T⟩)) (D := (· = T)) fun U hU => by rw [hU])
    fun table => ?_
  refine (quiet_fill [] c.fields.zipIdx fun _ => rfl).bind fun _ => ?_
  refine (quiet_fill _ c.methods.zipIdx fun _ => rfl).bind fun _ => quiet_pure _ ?_
  rintro s ⟨hnd, _, rfl, -, hs⟩
  exact ⟨names_memberSymbols c cls ▸ hnd, hs⟩

theorem quiet_declareAll (q : Package) : Quiet (fun s => s.scopes.unmarked = ⟨tablesOf q []⟩)
      (forIn q.classes.zipIdx PUnit.unit fun (c, i) _ => do
        declareMembers c i
        pure (.yield .unit))
      fun _ s => (∀ x ∈ q.classes.zipIdx, (x.1.fields.map (·.name) ++ x.1.methods.map (·.name)).Nodup) ∧
        s.scopes.unmarked = ⟨tablesOf q q.classes.zipIdx⟩ := by
  refine (quiet_forIn (I := fun done s =>
    (∀ x ∈ done, (x.1.fields.map (·.name) ++ x.1.methods.map (·.name)).Nodup) ∧
      s.scopes.unmarked = ⟨tablesOf q done⟩) _ ?_).mono (fun s hs => ⟨by simp, hs⟩) fun _ _ h => h
  rintro done ⟨c, i⟩ rest -
  refine Quiet.yield (((quiet_declareMembers c i).frame (∀ x ∈ done,
    (x.1.fields.map (·.name) ++ x.1.methods.map (·.name)).Nodup)).post ?_)
  rintro _ s ⟨hdone, hnd, hs⟩
  refine ⟨forall_mem_append.2 ⟨hdone, forall_mem_singleton.2 hnd⟩, ?_⟩
  simp [hs, tablesOf]

/-! ### The types of the members -/

/-- The type of a member that is declared with this type already does not change. -/
theorem quiet_updateSymbol {φ : Prop} (hc : q.class? cls = some c) (name : String)
    {decl : Binding} (h : φ → ∀ u, MemberDeclares q cls u decl → u = t) :
    Quiet (fun s => φ ∧ Declared q s.scopes.unmarked) (updateSymbol (memberTable cls) name decl t)
      fun _ s => φ ∧ Declared q s.scopes.unmarked := by
  refine quiet_modifyTable (P := fun U => φ ∧ Declared q U) (R := fun U => φ ∧ Declared q U)
    (unmarked_retype name decl t) fun U hU => ⟨hU.1, ?_, fun i c' hc' => ?_⟩
  · have hne : memberTable cls ≠ globalTable := Nat.succ_ne_zero cls
    simpa [table?_modify, hne] using hU.2.global
  · rw [table?_modify, hU.2.members i c' hc']
    split
    · obtain rfl : cls = i := Nat.succ.inj ‹_›
      obtain rfl : c = c' := Option.some.inj (hc.symm.trans hc')
      have hsame : Mapping.update (memberSymbols c cls) name (retype decl t) = memberSymbols c cls := by
        refine (map_congr_left fun sym hsym => ?_).trans (map_id _)
        have hdec := declares_memberSymbols hc hsym
        by_cases hd : sym.decl = decl
        · subst hd
          obtain rfl := h hU.1 sym.type hdec
          simp [retype]
        · simp [retype, hd]
      exact congrArg (fun ms => some (ScopeTable.mk c.name (some globalTable) [] ms)) hsame
    · rfl

theorem quiet_fieldType {f : FieldDecl} (hc : q.class? cls = some c)
    (hf : q.field? ⟨cls, i⟩ = some f) (ht : f.type.IsMember) :
    Quiet (fun s => Declared q s.scopes.unmarked) (fieldType cls i f) fun f' s =>
      (f' = f ∧ f.type.IsValue) ∧ Declared q s.scopes.unmarked := by
  refine (quiet_resolveVar _ _ _ ht).bind fun t => ?_
  refine (quiet_updateSymbol hc _ ?_).bind fun _ => quiet_pure _ ?_
  · rintro ⟨rfl, -⟩ u ⟨-, f', hf', rfl⟩
    exact congrArg FieldDecl.type (Option.some.inj (hf'.symm.trans hf))
  · rintro s ⟨⟨rfl, hval⟩, hs⟩
    exact ⟨⟨rfl, hval⟩, hs⟩

theorem quiet_paramType {d : ParamDecl} (ht : d.type.IsValue) :
    Quiet (fun s => Declared q s.scopes.unmarked) (paramType d) fun d' s =>
      (d' = d ∧ True) ∧ Declared q s.scopes.unmarked := by
  refine (quiet_resolveVar _ _ _ (.inr ht)).bind fun t => quiet_pure _ ?_
  rintro s ⟨⟨rfl, -⟩, hs⟩
  exact ⟨⟨rfl, trivial⟩, hs⟩

theorem quiet_methodType (hc : q.class? cls = some c) (hm : q.method? ⟨cls, i⟩ = some m)
    (h : m.Fresh) :
    Quiet (fun s => Declared q s.scopes.unmarked) (methodType cls i m) fun m' s =>
      (m' = m ∧ True) ∧ Declared q s.scopes.unmarked := by
  refine (quiet_resolve _ h.type).bind fun t => ?_
  refine (quiet_updateSymbol hc _ ?_).bind fun _ => ?_
  · rintro rfl u ⟨-, m', hm', rfl⟩
    exact congrArg type (Option.some.inj (hm'.symm.trans hm))
  · refine ((quiet_mapM_eq _ fun d hd => quiet_paramType (h.params d hd)).frame _).bind fun ds =>
      quiet_pure _ ?_
    rintro s ⟨rfl, ⟨rfl, -⟩, hs⟩
    exact ⟨⟨by simp, trivial⟩, hs⟩

/-- A class of a package as it is read, or a predefined one. -/
structure Readable (c : ClassDecl) : Prop where
  fields : ∀ f ∈ c.fields, f.type.IsMember
  methods : ∀ m ∈ c.methods, m.Fresh

theorem quiet_memberTypes (hc : q.class? cls = some c) (h : Readable c) :
    Quiet (fun s => Declared q s.scopes.unmarked) (memberTypes c cls) fun c' s =>
      (c' = c ∧ ∀ f ∈ c.fields, f.type.IsValue) ∧ Declared q s.scopes.unmarked := by
  refine (quiet_mapM_eq (g := Prod.fst) (φ := fun x => x.1.type.IsValue) _ ?_).bind fun fs => ?_
  · rintro ⟨f, i⟩ hf
    exact quiet_fieldType hc (by simp [Package.field?, hc, mk_mem_zipIdx_iff_getElem?.1 hf])
      (h.fields f (fst_mem_of_mem_zipIdx hf))
  · refine ((quiet_mapM_eq (g := Prod.fst) (φ := fun _ => True) _ ?_).frame _).bind fun ms =>
      quiet_pure _ ?_
    · rintro ⟨m, i⟩ hm
      exact quiet_methodType hc (by simp [Package.method?, hc, mk_mem_zipIdx_iff_getElem?.1 hm])
        (h.methods m (fst_mem_of_mem_zipIdx hm))
    · rintro s ⟨⟨rfl, hval⟩, ⟨rfl, -⟩, hs⟩
      refine ⟨⟨by simp, fun f hf => ?_⟩, hs⟩
      obtain ⟨i, hi⟩ := getElem?_of_mem hf
      exact hval (f, i) (mk_mem_zipIdx_iff_getElem?.2 hi)

/-! ### The methods where a program starts and prints -/

theorem quiet_findEntry {p : Package} (hp : p.entry = none) :
    Quiet P (findEntry p) fun r s => (∃ id ∈ entries p, r = some id) ∧ P s := by
  unfold findEntry
  rw [hp]
  refine Quiet.bind (Quiet.mono (quiet_foldlM (I := fun r s => (∀ id, r = some id → id ∈ entries p) ∧ P s)
    _ ?_ none) (fun s hs => ⟨nofun, hs⟩) fun _ _ h => h) fun found => ?_
  · intro r id hid
    cases r with
    | none => exact quiet_pure _ fun s hs => ⟨by rintro _ ⟨⟩; exact hid, hs.2⟩
    | some first => exact quiet_refuse _ _ _
  · refine Quiet.ite (fun _ => quiet_refuse _ _ _) fun hsome => quiet_pure _ fun s hs => ⟨?_, hs.2⟩
    cases found with
    | none => exact absurd rfl hsome
    | some id => exact ⟨id, hs.1 id rfl, rfl⟩

theorem profile_of_mem_entries {id : MemberId} (h : id ∈ entries p) :
    p.signature.method id = some ⟨true, [.array (.cls stringClass)], .void⟩ := by
  obtain ⟨⟨c, i⟩, hc, hid⟩ := mem_flatMap.1 h
  dsimp only at hid
  split at hid
  · cases hid
  · obtain ⟨⟨m, k⟩, hm, hid⟩ := mem_filterMap.1 hid
    obtain ⟨hent, rfl⟩ : isEntry m = true ∧ ⟨i, k⟩ = id := by simpa using hid
    simp only [isEntry, Bool.and_eq_true, beq_iff_eq] at hent
    obtain ⟨⟨⟨-, hstat⟩, htype⟩, hpar⟩ := hent
    have hmeth : p.method? ⟨i, k⟩ = some m := by
      simp [Package.method?, Package.class?, mk_mem_zipIdx_iff_getElem?.1 hc,
        mk_mem_zipIdx_iff_getElem?.1 hm]
    simp [Package.signature, hmeth, profile, hstat, htype, hpar]

theorem findPrintln_eq {p : Package} (h : ∀ c ∈ p.classes, c.predefined = false) :
    findPrintln { p with classes := classes ++ p.classes } = some ⟨1, 0⟩ := by
  simp only [findPrintln, zipIdx_append, flatMap_append]
  rw [(flatMap_eq_nil_iff (l := p.classes.zipIdx _)).2, append_nil]
  · rfl
  · rintro ⟨c, i⟩ hc
    simp [h c (fst_mem_of_mem_zipIdx hc)]

/-! ### Methods -/

/-- What the check makes of the result of a method. -/
def ResultChecked (ctx : Context) (ds : List ParamDecl) (vs : List LocalDecl) (m : MethodDecl)
    (r : Option Expr) : Prop :=
  (m.result = none ∧ r = none ∧ m.type = .void) ∨
    ∃ e e', m.result = some e ∧ r = some e' ∧ m.type.IsValue ∧ Expr.Checked ctx ds vs e (m.type, e')

theorem quiet_methodResult {blocks : List (List LocalDecl)}
    (h : Fits ctx ds (scope blocks) blocks) (hm : m.Fresh) :
    Quiet (Inside ctx ds blocks) (methodResult ctx m) fun r s =>
      ResultChecked ctx ds (scope blocks) m r ∧ Inside ctx ds blocks s := by
  unfold methodResult
  split
  · rename_i e he
    have hexpr := quiet_expr h e (hm.result e he)
    refine Quiet.ite (fun _ => ?_) fun hv => ?_
    · refine Quiet.bind (Q := fun _ _ => False) (quiet_report _ _) fun _ => ?_
      exact ((hexpr.frame False).mono (fun _ => False.elim) fun _ _ h => h).bind fun _ =>
        quiet_pure _ fun _ hs => hs.1.elim
    · refine hexpr.bind ?_
      rintro ⟨t, e'⟩
      refine Quiet.bind (((quiet_expectType (P := Inside ctx ds blocks) m.type t e'.span).frame
        (Expr.Checked ctx ds (scope blocks) e (t, e'))).mono
        (fun s hs => ⟨hs.1, ⟨hm.type, hs.1.member⟩, hs.2⟩) fun _ _ h => h) fun _ => quiet_pure _ ?_
      rintro s ⟨hchk, rfl, hs⟩
      exact ⟨.inr ⟨e, e', he, rfl, hm.type.resolve_left hv, hchk⟩, hs⟩
  · rename_i he
    refine Quiet.ite (fun _ => quiet_refuse _ _ _) fun hv => quiet_pure _ fun s hs => ?_
    exact ⟨.inl ⟨he, rfl, by simpa using hv⟩, hs⟩

/-- What the check makes of a method: it is well typed, has its names bound, and declares no name
twice. -/
structure MethodDecl.Checked (p : Package) (cls : Nat) (m m' : MethodDecl) : Prop where
  typed : m'.Typed p.signature cls
  bare : m'.bare = m.bare
  refs : ∀ x ∈ m'.refs, x.2.Bound (m.enclosure p cls) x.1
  distinct : m.Distinct

theorem Filling.scoped {table : Nat}
    (h : Filling (fun T => Declared p ⟨T⟩) title (some (memberTable cls)) table (paramSymbols ds) U)
    (hc : p.class? cls = some c) : Scoped ⟨p, cls, ds⟩ table [] U := by
  obtain ⟨-, T, hT, rfl, rfl⟩ := h
  refine { toDeclared := hT.push _, inside := fun i c hc => ?_, known := ⟨c, hc⟩, method := ⟨title, ?_⟩,
           distinct := nodup_nil }
  · exact (Array.getElem?_eq_some_iff.1 (hT.members i c hc)).1
  · simp [table?]

theorem quiet_method (hc : p.class? cls = some c) (hm : m.Fresh) (hp : p.signature.Proper) :
    Quiet (fun s => Declared p s.scopes.unmarked) (method p c cls m) fun m' s =>
      MethodDecl.Checked p cls m m' ∧ Declared p s.scopes.unmarked := by
  refine Quiet.bind (quiet_newTable (P := Declared p) (D := fun T => Declared p ⟨T⟩) fun U hU => hU)
    fun table => ?_
  have hf : Fits ⟨p, cls, c.name, m.name, m.isStatic, table, none⟩ m.params (scope [[]]) [[]] :=
    ⟨className_eq hc, hp, hm.params, forall_mem_nil _, fun _ _ => rfl⟩
  extract_lets ctx
  have hf' : Fits ctx m.params (scope [[] ++ m.body.flatMap (·.declared)])
      [[] ++ m.body.flatMap (·.declared)] := by
    refine hf.extended fun d hd => ?_
    obtain ⟨s, hs, hd⟩ := mem_flatMap.1 hd
    exact declared_isValue (hm.body.mem s hs) d hd
  refine (quiet_fill [] m.params.zipIdx fun _ => rfl).bind fun _ => ?_
  refine Quiet.bind ((quiet_openScope.frame (m.params.map (·.name)).Nodup).mono
    (fun s hs => ⟨names_paramSymbols m.params ▸ hs.1, hs.scoped hc⟩) fun _ _ h => h) fun _ => ?_
  refine ((quiet_stmts hf m.body hm.body).frame _).bind fun body => ?_
  refine (((quiet_methodResult hf' hm).frame _).frame _).bind fun result => ?_
  refine (((quiet_closeScope.frame _).frame _).frame _).bind fun _ => quiet_pure _ ?_
  rintro s ⟨hpar, hb, hres, hs⟩
  have hscop : scope [[] ++ m.body.flatMap (·.declared)] = body.flatMap (·.declared) := by
    simp [scope, hb.resolves.declared]
  rw [hscop] at hres
  refine ⟨?_, hs.toDeclared⟩
  obtain ⟨hnone, rfl, hvoid⟩ | ⟨e, e', he, rfl, hval, htyp, -, hbare, hbd⟩ := hres
  · refine ⟨⟨hb.typed, hvoid⟩, by simp [bare, hb.resolves.bare, hnone], ?_, hpar,
      hb.resolves.decls⟩
    exact forall_mem_append.2 ⟨hb.resolves.refs, forall_mem_nil _⟩
  · refine ⟨⟨hb.typed, hval, htyp⟩, by simp [bare, hb.resolves.bare, he, hbare], ?_,
      hpar, hb.resolves.decls⟩
    exact forall_mem_append.2 ⟨hb.resolves.refs, AllBound.placed hbd⟩

/-- What the check makes of a class. -/
structure ClassDecl.Checked (p : Package) (x : ClassDecl × Nat) (c' : ClassDecl) : Prop where
  bare : c'.bare = x.1.bare
  methods : List.Forall₂ (MethodDecl.Checked p x.2) x.1.methods c'.methods

theorem quiet_methods (hc : p.class? cls = some c) (h : Readable c) (hp : p.signature.Proper) :
    Quiet (fun s => Declared p s.scopes.unmarked) (methods p c cls) fun c' s =>
      ClassDecl.Checked p (c, cls) c' ∧ Declared p s.scopes.unmarked := by
  refine (quiet_mapM _ fun m hm => quiet_method hc (h.methods m hm) hp).bind fun ms => ?_
  refine quiet_pure _ fun s hs => ⟨⟨?_, hs.1⟩, hs.2⟩
  simp only [ClassDecl.bare, map_eq_of_forall₂ (fun m m' hm => hm.bare) hs.1]

/-! ### Packages -/

/-- The names of the package `q` are bound in `p`, and it declares no name twice. -/
structure Package.Resolves (q p : Package) : Prop where
  bare : p.bare = q.bare
  classes : (q.classes.map (·.name)).Nodup
  members : ∀ c ∈ q.classes, (c.fields.map (·.name) ++ c.methods.map (·.name)).Nodup
  methods : ∀ c ∈ q.classes, ∀ m ∈ c.methods, m.Distinct
  refs : ∀ id m, p.method? id = some m → ∀ x ∈ m.refs, x.2.Bound (m.enclosure p id.cls) x.1

theorem proper_of_classes (hcls : ∀ c ∈ q.classes, Readable c)
    (hflds : ∀ c ∈ q.classes, ∀ f ∈ c.fields, f.type.IsValue) : q.signature.Proper where
  field id f hf := by
    obtain ⟨c, hc, hf⟩ := Option.bind_eq_some_iff.1 hf
    exact hflds c (mem_of_getElem? hc) f (mem_of_getElem? hf)
  param id π hπ t ht := by
    obtain ⟨m, hm, rfl⟩ := Option.map_eq_some_iff.1 hπ
    obtain ⟨c, hc, hm⟩ := Option.bind_eq_some_iff.1 hm
    obtain ⟨d, hd, rfl⟩ := mem_map.1 ht
    exact ((hcls c (mem_of_getElem? hc)).methods m (mem_of_getElem? hm)).params d hd
  result id π hπ := by
    obtain ⟨m, hm, rfl⟩ := Option.map_eq_some_iff.1 hπ
    obtain ⟨c, hc, hm⟩ := Option.bind_eq_some_iff.1 hm
    exact ((hcls c (mem_of_getElem? hc)).methods m (mem_of_getElem? hm)).type

/-- What is known of a package before its methods are checked: its classes are those that were read. -/
structure Headed (q p : Package) : Prop where
  same : p = ⟨q.file, q.classes, p.entry, findPrintln q⟩
  entry : ∃ id ∈ entries q, p.entry = some id
  proper : q.signature.Proper
  classes : (q.classes.map (·.name)).Nodup
  members : ∀ x ∈ q.classes.zipIdx, (x.1.fields.map (·.name) ++ x.1.methods.map (·.name)).Nodup

theorem quiet_headings (hcls : ∀ c ∈ q.classes, Readable c) (hent : q.entry = none) :
    Quiet (fun s => s.scopes.unmarked = ⟨#[]⟩) (headings q) fun p s =>
      Headed q p ∧ Declared q s.scopes.unmarked := by
  simp only [headings, declarations, bind_assoc, pure_bind]
  refine Quiet.bind ((quiet_newTable (P := (· = ⟨#[]⟩)) (D := (· = #[])) fun U hU => by rw [hU]).post
    (R := fun _ s => Filling (· = #[]) "global" none globalTable [] s.scopes.unmarked) ?_) fun _ => ?_
  · rintro _ s ⟨hnd, _, rfl, rfl, hs⟩
    exact ⟨hnd, #[], rfl, rfl, hs⟩
  refine (quiet_declareClasses q).bind fun _ => ((quiet_declareAll q).frame _).bind fun _ => ?_
  refine Quiet.bind ((((quiet_mapM_eq (P := fun s => Declared q s.scopes.unmarked) (g := Prod.fst)
    (φ := fun x => ∀ f ∈ x.1.fields, f.type.IsValue) _ ?_).frame _).frame _).mono
    (fun s hs => ⟨hs.1, hs.2.1, hs.2.2.symm ▸ declared_tablesOf q⟩) fun _ _ h => h) fun classes => ?_
  · rintro ⟨c, i⟩ hc
    exact quiet_memberTypes (mk_mem_zipIdx_iff_getElem?.1 hc)
      (hcls c (fst_mem_of_mem_zipIdx hc))
  -- From here on the classes are those that were read.
  refine (Quiet.assume ((grows_findEntry _).bind fun _ => grows_pure _) ?_).assoc.assoc
  rintro ⟨⟨hnd, hmem⟩, hsame, hvals⟩
  obtain rfl : classes = q.classes := hsame.trans (zipIdx_map_fst 0 q.classes)
  have hprop : q.signature.Proper := proper_of_classes hcls fun c hc => by
    obtain ⟨i, hi⟩ := getElem?_of_mem hc
    exact hvals (c, i) (mk_mem_zipIdx_iff_getElem?.2 hi)
  refine (quiet_findEntry hent).bind fun entry => quiet_pure _ ?_
  rintro s ⟨hfoun, hs⟩
  exact ⟨⟨rfl, hfoun, hprop, hnd, hmem⟩, hs⟩

theorem method_checked {entry println : Option MemberId} {classes : List ClassDecl}
    (h : List.Forall₂ (ClassDecl.Checked p) q.classes.zipIdx classes) {id : MemberId}
    (hm : Package.method? ⟨q.file, classes, entry, println⟩ id = some m') :
    ∃ m, MethodDecl.Checked p id.cls m m' := by
  obtain ⟨c', hc', hm⟩ := Option.bind_eq_some_iff.1 hm
  obtain ⟨⟨c, i⟩, hc, hchk⟩ := getElem?_of_forall₂ h hc'
  obtain ⟨m, -, hmeth⟩ := getElem?_of_forall₂ hchk.methods hm
  obtain ⟨-, rfl⟩ : q.classes[id.cls]? = some c ∧ id.cls = i := by
    simpa [getElem?_zipIdx] using hc
  exact ⟨m, hmeth⟩

theorem resolves_of_classes {entry println : Option MemberId} {classes : List ClassDecl}
    (hq : Headed q ⟨q.file, q.classes, entry, println⟩)
    (h : List.Forall₂ (ClassDecl.Checked ⟨q.file, q.classes, entry, println⟩) q.classes.zipIdx classes) :
    Package.Resolves q ⟨q.file, classes, entry, println⟩ := by
  have hb : Package.bare ⟨q.file, classes, entry, println⟩ = q.bare := by
    have hmap := (map_eq_of_forall₂ (fun x y hxy => hxy.bare) h).trans (map_zipIdx_fst _ _)
    simp [Package.bare, hmap]
  refine ⟨hb, hq.classes, fun c hc => ?_, fun c hc m hm => ?_, fun id m' hm x hx => ?_⟩
  · obtain ⟨i, hi⟩ := getElem?_of_mem hc
    exact hq.members (c, i) (mk_mem_zipIdx_iff_getElem?.2 hi)
  · obtain ⟨i, hi⟩ := getElem?_of_mem hc
    obtain ⟨c', -, hchk⟩ := exists_of_forall₂_mem h (mk_mem_zipIdx_iff_getElem?.2 hi)
    obtain ⟨m', -, hmeth⟩ := exists_of_forall₂_mem hchk.methods hm
    exact hmeth.distinct
  · obtain ⟨m, hmeth⟩ := method_checked h hm
    rw [enclosure, params_of_bare hmeth.bare]
    exact Ref.bound_congr hb (hmeth.refs x hx)

theorem quiet_package (hcls : ∀ c ∈ q.classes, Readable c) (hent : q.entry = none)
    {println : MemberId} (hprn : findPrintln q = some println)
    (hprof : q.signature.method println = some ⟨false, [.int], .void⟩) :
    Quiet (fun s => s.scopes.unmarked = ⟨#[]⟩) (package q) fun p _ => p.Typed ∧ Package.Resolves q p := by
  refine (quiet_headings hcls hent).bind fun p => Quiet.assume (grows_bodies p) fun h => ?_
  obtain ⟨file, classes, entry, println'⟩ := p
  obtain ⟨rfl, rfl, -, rfl⟩ := Package.mk.inj h.same
  refine Quiet.bind ((quiet_mapM (P := fun s =>
      Declared ⟨q.file, q.classes, entry, findPrintln q⟩ s.scopes.unmarked)
    (R := ClassDecl.Checked ⟨q.file, q.classes, entry, findPrintln q⟩) _ ?_).mono
    (fun s hs => ⟨hs.global, hs.members⟩) fun _ _ h => h) fun classes => quiet_pure _ ?_
  · rintro ⟨c, i⟩ hc
    exact quiet_methods (mk_mem_zipIdx_iff_getElem?.1 hc)
      (hcls c (fst_mem_of_mem_zipIdx hc)) h.proper
  rintro s ⟨hchk, -⟩
  have hres := resolves_of_classes h hchk
  have hsig := Package.signature_congr hres.bare
  obtain ⟨id, hid, rfl⟩ := h.entry
  refine ⟨⟨?_, hsig ▸ h.proper, fun id m hm => ?_, ⟨id, rfl, ?_⟩, println, hprn, ?_⟩, hres⟩
  · have hnms : classes.map (·.name) = q.classes.map (·.name) := by
      simpa [Package.bare, ClassDecl.bare, Function.comp_def] using
        congrArg (fun p => p.classes.map (·.name)) hres.bare
    exact hnms ▸ h.classes
  · obtain ⟨m₀, hmeth⟩ := method_checked hchk hm
    exact hsig ▸ hmeth.typed
  · exact hsig ▸ profile_of_mem_entries hid
  · exact hsig ▸ hprof

theorem readable_predefined : ∀ c ∈ classes, Readable c := by
  simp only [classes, forall_mem_cons, not_mem_nil, false_implies, implies_true,
    and_true]
  refine ⟨⟨nofun, nofun⟩, ⟨nofun, ?_⟩, ⟨?_, nofun⟩⟩
  · simp only [forall_mem_singleton]
    exact ⟨.inl rfl, by simp [Ty.IsValue], trivial, nofun⟩
  · simp only [forall_mem_singleton]
    exact .inr trivial

theorem addTo_eq {p : Package} (h : ∀ c ∈ p.classes, c.predefined = false) :
    addTo p = { p with classes := classes ++ p.classes } := by
  unfold addTo
  split
  · rename_i c cs hcs
    simp [h c (by simp [hcs])]
  · rename_i hcs
    simp [hcs]

theorem readable_addTo {p : Package} (hp : p.Fresh) :
    ∀ c ∈ (addTo p).classes, Readable c := by
  rw [addTo_eq fun c hc => (hp.classes c hc).declared]
  intro c hc
  obtain hc | hc := mem_append.1 hc
  · exact readable_predefined c hc
  · exact ⟨(hp.classes c hc).fields, (hp.classes c hc).methods⟩

end Typing

theorem Package.quiet_check {p : Package} (hp : p.Fresh) (h : p.check.diagnostics = []) :
    p.check.package.Typed ∧ Typing.Package.Resolves (addTo p) p.check.package := by
  have hown : ∀ c ∈ p.classes, c.predefined = false := fun c hc => (hp.classes c hc).declared
  have hadd := Typing.addTo_eq hown
  have hent : (addTo p).entry = none := hadd ▸ hp.entry
  have hprn : Typing.findPrintln (addTo p) = some ⟨1, 0⟩ :=
    hadd ▸ Typing.findPrintln_eq hown
  have hprof : (addTo p).signature.method ⟨1, 0⟩ = some ⟨false, [.int], .void⟩ :=
    hadd ▸ rfl
  have hquie := Typing.quiet_package (Typing.readable_addTo hp) hent hprn hprof
  exact (hquie ⟨.empty, #[]⟩).2 (by simp [unmarked, empty]) (Array.toList_eq_nil_iff.1 h)

theorem Package.typed_of_check {p : Package} (hp : p.Fresh) (h : p.check.diagnostics = []) :
    p.check.package.Typed :=
  (Package.quiet_check hp h).1

theorem Package.resolves_of_check {p : Package} (hp : p.Fresh) (h : p.check.diagnostics = []) :
    Typing.Package.Resolves (addTo p) p.check.package :=
  (Package.quiet_check hp h).2

end MiniJam
