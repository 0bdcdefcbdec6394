import MiniJam.Proofs.Scope.Marks
import MiniJam.Proofs.Tree.Misnamed
import MiniJam.Proofs.Typing.Quiet

/-!
# Two checks side by side

Two states are alike if their tables differ in the marks of the symbols at most.  `Slips K ds x y R`
compares the parts `x` and `y` of two checks from such states.  They give related results and end in
such states again, `x` keeps the property `K` of the tables without their marks, and if `x` reports
nothing, then `y` reports `ds`.  `Agree K x y R` says that `y` reports nothing then either.

A check looks at the outline of the package only.  So every part of a check agrees with the same part of
the check of another package with the same outline, and in particular with itself.  It follows that no
part of a check removes a diagnostic (`Slips.grows`).
-/

namespace MiniJam.Typing

open List Option ClassDecl

/-- The tables of the two states differ in the marks of the symbols at most. -/
def Alike (s s' : State) : Prop := s'.scopes.unmarked = s.scopes.unmarked

/-- What two parts of a check do from the states `s` and `s'`, if the second one reports `ds`. -/
structure Slip {α β : Type} (K : Scopes Binding → Prop) (ds : Array Diagnostic) (R : α → β → Prop)
    (s s' : State) (r : α × State) (r' : β × State) : Prop where
  value : R r.1 r'.1
  alike : Alike r.2 r'.2
  kept : K r.2.scopes.unmarked
  reports : ∃ es, r.2.diagnostics = s.diagnostics ++ es ∧
    (es = #[] → r'.2.diagnostics = s'.diagnostics ++ ds)

/-- From states that are alike, the part `y` of a check reports `ds` if `x` reports nothing. -/
def Slips {α β : Type} (K : Scopes Binding → Prop) (ds : Array Diagnostic) (x : Check α) (y : Check β)
    (R : α → β → Prop) : Prop :=
  ∀ s s', Alike s s' → K s.scopes.unmarked → Slip K ds R s s' (x s) (y s')

/-- From states that are alike, the part `y` of a check reports nothing if `x` does not. -/
abbrev Agree {α β : Type} (K : Scopes Binding → Prop) (x : Check α) (y : Check β)
    (R : α → β → Prop) : Prop :=
  Slips K #[] x y R

section

variable {α β γ δ : Type} {K : Scopes Binding → Prop} {ds : Array Diagnostic} {x : Check α}
  {y : Check β} {R : α → β → Prop} {Q : γ → δ → Prop} {a : α} {b : β}

theorem Slips.grows (h : Slips (fun _ => True) ds x y R) : Grows x := by
  intro s hend
  obtain ⟨es, hes, -⟩ := (h s s rfl trivial).reports
  exact (Array.append_eq_empty_iff.1 (hes.symm.trans hend)).1

theorem Slips.mono {R' : α → β → Prop} (h : Slips K ds x y R) (hR : ∀ a b, R a b → R' a b) :
    Slips K ds x y R' :=
  fun s s' hs hK => { h s s' hs hK with value := hR _ _ (h s s' hs hK).value }

section

variable {f : α → Check γ} {g : β → Check δ}

theorem Slips.bind (hx : Slips K ds x y R) (hf : ∀ a b, R a b → Slips K ds' (f a) (g b) Q) :
    Slips K (ds ++ ds') (x >>= f) (y >>= g) Q := by
  intro s s' hs hK
  obtain ⟨hR, hs, hK, es, hes, hds⟩ := hx s s' hs hK
  obtain ⟨hQ, hs, hK, es', hes', hds'⟩ := hf _ _ hR _ _ hs hK
  refine ⟨hQ, hs, hK, es ++ es', ?_, fun hend => ?_⟩
  · exact hes'.trans (by rw [hes, Array.append_assoc])
  · obtain ⟨hend, hend'⟩ := Array.append_eq_empty_iff.1 hend
    exact (hds' hend').trans (by rw [hds hend, Array.append_assoc])

theorem Slips.after (hx : Slips K ds x y R) (hf : ∀ a b, R a b → Agree K (f a) (g b) Q) :
    Slips K ds (x >>= f) (y >>= g) Q := by
  have hbind := hx.bind hf
  rwa [Array.append_empty] at hbind

theorem Slips.before (hx : Agree K x y R) (hf : ∀ a b, R a b → Slips K ds (f a) (g b) Q) :
    Slips K ds (x >>= f) (y >>= g) Q := by
  have hbind := hx.bind hf
  rwa [Array.empty_append] at hbind

end

theorem Slips.next {y : Check α} {f : α → Check γ} {g : α → Check δ} (hx : Agree K x y Eq)
    (hf : ∀ a, Slips K ds (f a) (g a) Q) : Slips K ds (x >>= f) (y >>= g) Q := by
  refine hx.before ?_
  rintro a _ rfl
  exact hf a

theorem agree_pure (h : R a b) : Agree K (pure a) (pure b) R :=
  fun _ _ hs hK => ⟨h, hs, hK, #[], Array.append_empty.symm, fun _ => Array.append_empty.symm⟩

/-- The second check does not report anything if the first one does not. -/
theorem agree_reportIf {c c' : Prop} [Decidable c] [Decidable c'] (hc : ¬ c → ¬ c')
    {span span' : Option Span} {message message' : String} :
    Agree K (if c then report span message else pure ())
      (if c' then report span' message' else pure ()) Eq := by
  by_cases h : c
  · intro s s' hs hK
    rw [if_pos h]
    refine ⟨rfl, ?_, hK, #[⟨span, message⟩], Array.push_eq_append, fun h => by cases h⟩
    split <;> exact hs
  · rw [if_neg h, if_neg (hc h)]
    exact agree_pure rfl

theorem Slips.afterReport {c c' : Prop} [Decidable c] [Decidable c'] (hc : ¬ c → ¬ c')
    {span span' : Option Span} {message message' : String} (hx : Slips K ds x y R) :
    Slips K ds (if c then report span message >>= fun _ => x else x)
      (if c' then report span' message' >>= fun _ => y else y) R := by
  have hif : ∀ {γ : Type} {c : Prop} [Decidable c] {span : Option Span} {message : String}
      {z : Check γ}, (if c then report span message >>= fun _ => z else z) =
        (if c then report span message else pure ()) >>= fun _ => z := by
    intros
    split <;> rfl
  rw [hif, hif]
  exact (agree_reportIf hc).next fun _ => hx

theorem slips_report {f : Unit → Check α} {g : Unit → Check β} {span span' : Option Span}
    {message message' : String} (hf : Slips K ds (f ()) (g ()) R) :
    Slips K ds (report span message >>= f) (report span' message' >>= g) R :=
  hf.afterReport (id : ¬ True → ¬ True)

theorem agree_refuse {span span' : Option Span} {message message' : String} (h : R a b) :
    Agree K (report span message >>= fun _ => pure a) (report span' message' >>= fun _ => pure b) R :=
  slips_report (agree_pure h)

theorem agree_report {span span' : Option Span} {message message' : String} :
    Agree K (report span message) (report span' message') Eq :=
  agree_reportIf (id : ¬ True → ¬ True)

theorem slips_get {f : State → Check γ} {g : State → Check δ}
    (h : ∀ s s', Alike s s' → Slips K ds (f s) (g s') Q) : Slips K ds (get >>= f) (get >>= g) Q :=
  fun s s' hs => h s s' hs s s' hs

theorem agree_modifyScopes {f g : Scopes Binding → Scopes Binding}
    (h : ∀ S S', S'.unmarked = S.unmarked → (g S').unmarked = (f S).unmarked)
    (hK : ∀ S, K S.unmarked → K (f S).unmarked) : Agree K (modifyScopes f) (modifyScopes g) Eq :=
  fun s s' hs hs' => ⟨rfl, h s.scopes s'.scopes hs, hK s.scopes hs', #[], Array.append_empty.symm,
    fun _ => Array.append_empty.symm⟩

theorem agree_modifyTable {table : Nat} {f : ScopeTable Binding → ScopeTable Binding}
    (hf : ∀ t, (f t).unmarked = f t.unmarked) (hK : ∀ U, K U → K (U.modify table f)) :
    Agree K (modifyScopes (·.modify table f)) (modifyScopes (·.modify table f)) Eq := by
  have hmod : ∀ S : Scopes Binding, (S.modify table f).unmarked = S.unmarked.modify table f :=
    fun S => S.unmarked_modify table hf
  refine agree_modifyScopes (fun S S' hS => ?_) fun S hS => ?_
  · exact (hmod S').trans (by rw [hmod S, hS])
  · rw [hmod]
    exact hK _ hS

theorem agree_use (i : Nat) (name : String) :
    Agree K (modifyScopes (·.use i name)) (modifyScopes (·.use i name)) Eq :=
  agree_modifyScopes (fun S S' hS => by rw [S.unmarked_use, S'.unmarked_use, hS])
    fun S hK => by rwa [S.unmarked_use]

theorem Slips.cond {c c' : Prop} [Decidable c] [Decidable c'] (hc : c' ↔ c) (hx : Slips K ds x y R)
    (hx' : Slips K ds x' y' R) : Slips K ds (if c then x else x') (if c' then y else y') R := by
  by_cases h : c
  · rw [if_pos h, if_pos (hc.2 h)]
    exact hx
  · rw [if_neg h, if_neg fun h' => h (hc.1 h')]
    exact hx'

theorem Slips.ite {c : Prop} [Decidable c] (hx : Slips K ds x y R) (hx' : Slips K ds x' y' R) :
    Slips K ds (if c then x else x') (if c then y else y') R :=
  Slips.cond Iff.rfl hx hx'

theorem agree_mapM {T : β → β → Prop} (xs : List α) {f g : α → Check β}
    (hf : ∀ x, Agree K (f x) (g x) T) : Agree K (xs.mapM f) (xs.mapM g) (Forall₂ T) := by
  induction xs with
  | nil => exact agree_pure .nil
  | cons x xs ih =>
    rw [mapM_cons, mapM_cons]
    exact (hf x).after fun _ _ ha => ih.after fun _ _ has => agree_pure (.cons ha has)

theorem agree_mapM_eq (xs : List α) {f g : α → Check β} (hf : ∀ x, Agree K (f x) (g x) Eq) :
    Agree K (xs.mapM f) (xs.mapM g) Eq :=
  forall₂_eq_eq_eq ▸ agree_mapM xs hf

theorem agree_mapM_oneOff {R : α → α → Prop} {T : β → β → Prop} {xs ys : List α}
    (h : OneOff R xs ys) {f g : α → Check β} (hf : ∀ x, Agree K (f x) (g x) Eq)
    (hR : ∀ x y, R x y → Agree K (f x) (g y) T) : Agree K (xs.mapM f) (ys.mapM g) (OneOff T) := by
  induction h with
  | head h xs =>
    rw [mapM_cons, mapM_cons]
    refine (hR _ _ h).after fun a b hab => (agree_mapM_eq xs hf).next fun _ => agree_pure ?_
    exact .head hab _
  | tail x _ ih =>
    rw [mapM_cons, mapM_cons]
    exact (hf x).next fun a => ih.after fun as bs has => agree_pure (.tail a has)

theorem agree_foldlM (xs : List α) {f : β → α → Check β} (hf : ∀ b x, Agree K (f b x) (f b x) Eq)
    (b : β) : Agree K (xs.foldlM f b) (xs.foldlM f b) Eq := by
  induction xs generalizing b with
  | nil => exact agree_pure rfl
  | cons x xs ih => exact (hf b x).next ih

theorem agree_forIn (xs : List α) {f g : α → PUnit → Check (ForInStep PUnit)}
    (hf : ∀ x ∈ xs, ∀ u, Agree K (f x u) (g x u) Eq) :
    Agree K (forIn xs PUnit.unit f) (forIn xs PUnit.unit g) Eq := by
  induction xs with
  | nil => exact agree_pure rfl
  | cons x xs ih =>
    obtain ⟨hx, hxs⟩ := forall_mem_cons.1 hf
    rw [forIn_cons, forIn_cons]
    refine (hx _).next fun r => ?_
    cases r with
    | done => exact agree_pure rfl
    | yield => exact ih hxs

end

/-! ### Names and types -/

variable {K : Scopes Binding → Prop}

theorem Alike.cases (hs : Alike s s') (find : Scopes Binding → Option (Symbol Binding))
    (hf : ∀ S, find S.unmarked = (find S).map Symbol.unmarked) :
    (find s.scopes = none ∧ find s'.scopes = none) ∨
      ∃ sym used, find s.scopes = some sym ∧ find s'.scopes = some { sym with used } := by
  have heq : (find s'.scopes).map Symbol.unmarked = (find s.scopes).map Symbol.unmarked := by
    rw [← hf, ← hf, hs]
  cases h : find s.scopes with
  | none =>
    rw [h] at heq
    exact .inl ⟨rfl, map_eq_none_iff.1 heq⟩
  | some sym =>
    rw [h] at heq
    obtain ⟨⟨name, kind, type, span, decl, used⟩, hsym', hunm⟩ := map_eq_some_iff.1 heq
    refine .inr ⟨sym, used, rfl, hsym'.trans ?_⟩
    cases sym
    cases hunm
    rfl

theorem agree_findClass (name : String) : Agree K (findClass name) (findClass name) Eq := by
  refine slips_get fun s s' hs => ?_
  obtain ⟨h, h'⟩ | ⟨sym, used, h, h'⟩ :=
    hs.cases (·.findKind? globalTable name .cls) fun S => S.findKind?_unmarked _ _ _
  · rw [h, h']
    exact agree_pure rfl
  · rw [h, h']
    obtain ⟨_, _, _, _, decl, _⟩ := sym
    cases decl <;> exact agree_pure rfl

theorem agree_resolve (span span' : Span) (t : Ty) :
    Agree K (resolve span t) (resolve span' t) Eq := by
  induction t with
  | cls name =>
    refine (agree_findClass name).next fun i => ?_
    cases i with
    | some i => exact agree_pure rfl
    | none => exact agree_refuse rfl
  | array elem ih =>
    refine ih.next fun t => ?_
    cases t <;> exact agree_pure rfl
  | void | int | boolean | error => exact agree_pure rfl

theorem agree_resolveVar (what name : String) (span : Span) (t : Ty) :
    Agree K (resolveVar what name span t) (resolveVar what name span t) Eq :=
  Slips.ite (agree_refuse rfl) (agree_resolve span span t)

def redeclared (name : String) (other : Symbol Binding) : String :=
  let place := match other.span with
    | some s => s.text
    | none => ""
  s!"Redeclaration of {other.kind.text} `{name}' previously declared at {place}"

theorem bind_run (table : Nat) (name : String) (kind : SymbolKind) (type : Ty) (span : Span)
    (decl : Binding) (s : State) :
    bind table name kind type span decl s = ((s.scopes.table? table).bind (·.findLocal? name)).elim
        (modifyScopes (·.modify table (·.insert ⟨name, kind, type, some span, decl, false⟩)) s)
        fun other => report span (redeclared name other) s := by
  have hget : ∀ f : State → Check Unit, (get >>= f) s = f s s := fun _ => rfl
  rw [bind, hget, Scopes.bind]
  cases (s.scopes.table? table).bind (·.findLocal? name) with
  | none => rfl
  | some other => rfl

variable {name : String} {α : Type} {p' : Package} {n : Nat}

theorem agree_bind {table : Nat}
    (hK : ∀ U sym, sym.name = name → K U → K (U.modify table (·.insert sym))) (kind : SymbolKind)
    (type : Ty) (span : Span) (decl : Binding) :
    Agree K (bind table name kind type span decl) (bind table name kind type span decl) Eq := by
  intro s s' hs
  rw [bind_run, bind_run]
  obtain ⟨h, h'⟩ | ⟨other, used, h, h'⟩ :=
    hs.cases (fun S => (S.table? table).bind (·.findLocal? name)) fun S => S.findLocal?_unmarked _ _
  · rw [h, h', elim_none, elim_none]
    let sym : Symbol Binding := ⟨name, kind, type, some span, decl, false⟩
    have hins : ∀ S : Scopes Binding, (S.modify table (·.insert sym)).unmarked =
        S.unmarked.modify table (·.insert sym) :=
      fun S => S.unmarked_modify table fun t => t.unmarked_insert sym
    refine agree_modifyScopes (fun S S' hS => ?_) (fun S hS => ?_) s s' hs
    · rw [hins, hins, hS]
    · rw [hins]
      exact hK _ sym rfl hS
  · rw [h, h']
    exact agree_report s s' hs

def State.withTable (s : State) (name : String) (parent : Option Nat) : State :=
  { s with scopes := ⟨s.scopes.tables.push ⟨name, parent, [], []⟩⟩ }

theorem unmarked_withTable (s : State) (name : String) (parent : Option Nat) :
    (s.withTable name parent).scopes.unmarked =
      ⟨s.scopes.unmarked.tables.push ⟨name, parent, [], []⟩⟩ :=
  s.scopes.unmarked_push _

theorem Alike.withTable (hs : Alike s s') (name : String) (parent : Option Nat) :
    Alike (s.withTable name parent) (s'.withTable name parent) := by
  rw [Alike, unmarked_withTable, unmarked_withTable, hs]

theorem newTable_run (name : String) (parent : Option Nat) (f : Nat → Check α) (s : State) :
    (newTable name parent >>= f) s = f s.scopes.unmarked.tables.size (s.withTable name parent) := by
  rw [Scopes.unmarked, Array.size_map]
  rfl

theorem slips_newTable {L : Nat → Scopes Binding → Prop} {parent : Option Nat}
    (hK : ∀ U, K U → L U.tables.size ⟨U.tables.push ⟨name, parent, [], []⟩⟩)
    (hL : ∀ id U, L id U → K U) {f g : Nat → Check α} {R : α → α → Prop}
    (hf : ∀ id, Slips (L id) ds (f id) (g id) R) :
    Slips K ds (newTable name parent >>= f) (newTable name parent >>= g) R := by
  intro s s' hs hs'
  rw [newTable_run, newTable_run, hs]
  have hslip := hf s.scopes.unmarked.tables.size _ _ (hs.withTable name parent) (by
    rw [unmarked_withTable]
    exact hK _ hs')
  exact { hslip with kept := hL _ _ hslip.kept }

/-! ### Outlines -/

theorem eq_of_outline {p : Package} (h : p'.outline = p.outline) {f : Package → α}
    (hf : ∀ p, f p.outline = f p) : f p' = f p := by
  rw [← hf p', h, hf p]

theorem isInstanceMember_outline (p : Package) : isInstanceMember p.outline = isInstanceMember p := by
  funext b
  cases b with
  | field id => simp only [isInstanceMember, p.field?_outline]
  | method id =>
    simp only [isInstanceMember, p.method?_outline]
    cases p.method? id <;> rfl
  | cls | param | var => rfl

theorem memberFlags_outline (p : Package) : memberFlags p.outline = memberFlags p := by
  funext b
  cases b with
  | field id => simp only [memberFlags, p.field?_outline]
  | method id =>
    simp only [memberFlags, p.method?_outline]
    cases p.method? id <;> rfl
  | cls | param | var => rfl

/-! ### Tables -/

/-- `K` is kept by what is done with the table of a method while its statements are checked; `P` holds of
the names of the local variables. -/
structure Kept (K : Scopes Binding → Prop) (table : Nat) (P : String → Prop) : Prop where
  push : ∀ U, K U → K (U.modify table (·.push))
  pop : ∀ U, K U → K (U.modify table fun t => t.pop?.getD t)
  insert : ∀ U sym, P sym.name → K U → K (U.modify table (·.insert sym))

theorem kept_true (table : Nat) : Kept (fun _ => True) table fun _ => True :=
  ⟨fun _ => id, fun _ => id, fun _ _ _ => id⟩

variable {P : String → Prop}

theorem agree_bindAll {table : Nat} (hK : Kept K table P) (xs : List α) {name : α → String}
    {kind : α → SymbolKind} {type : α → Ty} {span : α → Span} {decl : α → Binding}
    (hxs : ∀ x ∈ xs, P (name x)) {f : α → PUnit → Check (ForInStep PUnit)} (hf : ∀ x, f x .unit = do
      bind table (name x) (kind x) (type x) (span x) (decl x)
      pure (.yield .unit)) :
    Agree K (forIn xs PUnit.unit f) (forIn xs PUnit.unit f) Eq := by
  refine agree_forIn xs fun x hx _ => ?_
  rw [hf]
  refine (agree_bind (fun U sym hsym => hK.insert U sym ?_) _ _ _ _).next fun _ => agree_pure rfl
  exact hsym ▸ hxs x hx

/-! ### Packages -/

theorem entries_outline (p : Package) : entries p.outline = entries p := by
  simp only [entries, Package.outline, zipIdx_map, flatMap_map]
  refine flatMap_congr fun x _ => ?_
  simp only [Prod.map, id, outline, zipIdx_map, filterMap_map]
  rfl

theorem findPrintln_outline (p : Package) : findPrintln p.outline = findPrintln p := by
  simp only [findPrintln, Package.outline, zipIdx_map, flatMap_map]
  refine congrArg (fun ids : List MemberId => ids.getLast?.or p.println)
    (flatMap_congr fun x _ => ?_)
  simp only [Prod.map, id, outline, zipIdx_map, filterMap_map]
  rfl

theorem methodSpan_outline (p : Package) : methodSpan p.outline = methodSpan p := by
  funext id
  simp only [methodSpan, p.method?_outline]
  cases p.method? id <;> rfl

theorem qualifiedName_outline (p : Package) : p.outline.qualifiedName = p.qualifiedName := by
  funext id
  simp only [Package.qualifiedName, p.class?_outline]
  cases p.class? id.cls with
  | none => rfl
  | some c =>
    simp only [map_some, outline, getElem?_map]
    cases c.methods[id.index]? <;> rfl

theorem agree_findEntry {p : Package} (hp : p'.outline = p.outline) :
    Agree K (findEntry p) (findEntry p') Eq := by
  unfold findEntry
  rw [eq_of_outline hp entries_outline, eq_of_outline hp methodSpan_outline,
    eq_of_outline hp qualifiedName_outline, eq_of_outline hp (f := Package.entry) fun _ => rfl]
  refine (agree_foldlM _ (fun entry id => ?_) _).next fun _ => (agree_pure rfl).afterReport id
  cases entry with
  | none => exact agree_pure rfl
  | some first => exact agree_refuse rfl

theorem grows_findEntry (p : Package) : Grows (findEntry p) :=
  (agree_findEntry (K := fun _ => True) rfl).grows

/-- The tables of a package are made, and its names are entered into them. -/
def declarations (p : Package) : Check Unit := do
  let _ ← newTable "global" none
  declareClasses p.classes
  for (c, i) in p.classes.zipIdx do
    declareMembers c i

theorem declareClasses_outline (classes : List ClassDecl) :
    declareClasses (classes.map outline) = declareClasses classes := by
  simp only [declareClasses, zipIdx_map, List.forIn_map]
  rfl

theorem declareMembers_outline (c : ClassDecl) (cls : Nat) :
    declareMembers c.outline cls = declareMembers c cls := by
  simp only [declareMembers, outline, zipIdx_map, List.forIn_map]
  rfl

theorem declarations_outline (p : Package) : declarations p.outline = declarations p := by
  simp only [declarations, Package.outline, declareClasses_outline, zipIdx_map, List.forIn_map,
    Prod.map, declareMembers_outline]
  rfl

theorem agree_declarations {p : Package} (hp : p'.outline = p.outline) :
    Agree (fun _ => True) (declarations p) (declarations p') Eq := by
  rw [eq_of_outline hp declarations_outline]
  refine slips_newTable (L := fun _ _ => True) (fun _ => id) (fun _ _ => id) fun _ => ?_
  refine ((agree_bindAll (kept_true _) _ (fun _ _ => trivial) fun _ => rfl).next fun _ =>
    agree_pure rfl).next fun _ => (agree_forIn _ fun x _ _ => ?_).next fun _ => agree_pure rfl
  refine Slips.next (slips_newTable (L := fun _ _ => True) (fun _ => id) (fun _ _ => id) fun table => ?_)
    fun _ => agree_pure rfl
  exact (agree_bindAll (kept_true table) _ (fun _ _ => trivial) fun _ => rfl).next fun _ =>
    (agree_bindAll (kept_true table) _ (fun _ _ => trivial) fun _ => rfl).next fun _ => agree_pure rfl

/-- The symbol of a member is given its type. -/
def retype (decl : Binding) (t : Ty) (sym : Symbol Binding) : Symbol Binding :=
  if sym.decl = decl then { sym with type := t } else sym

theorem unmarked_retype (name : String) (decl : Binding) (t : Ty) (table : ScopeTable Binding) :
    (table.update name (retype decl t)).unmarked = table.unmarked.update name (retype decl t) := by
  refine table.unmarked_update name fun sym => ?_
  by_cases h : sym.decl = decl <;> simp [retype, Symbol.unmarked, h]

theorem agree_updateSymbol (table : Nat) (name : String) (decl : Binding) (t : Ty) :
    Agree (fun _ => True) (updateSymbol table name decl t) (updateSymbol table name decl t) Eq :=
  agree_modifyTable (unmarked_retype name decl t) fun _ => id

theorem agree_fieldType (cls index : Nat) (f : FieldDecl) :
    Agree (fun _ => True) (fieldType cls index f) (fieldType cls index f) Eq :=
  (agree_resolveVar _ _ _ _).next fun _ => (agree_updateSymbol _ _ _ _).next fun _ => agree_pure rfl

theorem agree_methodType (cls index : Nat) {m m' : MethodDecl} (hm : m'.outline = m.outline)
    {R : MethodDecl → MethodDecl → Prop}
    (hR : ∀ t ps, R { m with type := t, params := ps } { m' with type := t, params := ps }) :
    Agree (fun _ => True) (methodType cls index m) (methodType cls index m') R := by
  obtain ⟨hs, hn, htype, -, -, hpar, -⟩ := MethodDecl.mk.inj hm
  unfold methodType
  rw [hs, hn, htype, hpar]
  refine (agree_resolve _ _ _).next fun t => (agree_updateSymbol _ _ _ _).next fun _ => ?_
  refine (agree_mapM_eq _ fun d => ?_).next fun ps => agree_pure ?_
  · exact (agree_resolveVar _ _ _ _).next fun _ => agree_pure rfl
  · have hmeth := hR t ps
    rwa [hs, hn] at hmeth

theorem agree_memberTypes (c : ClassDecl) (cls : Nat) :
    Agree (fun _ => True) (memberTypes c cls) (memberTypes c cls) Eq := by
  refine (agree_mapM_eq _ ?_).next fun _ => (agree_mapM_eq _ ?_).next fun _ => agree_pure rfl
  · rintro ⟨f, i⟩
    exact agree_fieldType cls i f
  · rintro ⟨m, i⟩
    exact agree_methodType cls i rfl fun _ _ => rfl

section

variable {span : Span} {name : String}

theorem agree_memberTypes_misnamed {c c' : ClassDecl} (h : c.Misnamed span name c') (cls : Nat) :
    Agree (fun _ => True) (memberTypes c cls) (memberTypes c' cls) (ClassDecl.Misnamed span name) := by
  obtain ⟨h⟩ := h
  refine (agree_mapM_eq _ ?_).next fun fs => ?_
  · rintro ⟨f, i⟩
    exact agree_fieldType cls i f
  refine (agree_mapM_oneOff (h.zipIdx 0) ?_ ?_).after fun ms ms' hms => agree_pure (.mk hms)
  · rintro ⟨m, i⟩
    exact agree_methodType cls i rfl fun _ _ => rfl
  · rintro ⟨m, i⟩ ⟨m', _⟩ ⟨hm, rfl⟩
    refine agree_methodType cls i hm.outline_eq fun t ps => ?_
    cases hm with
    | body h => exact .body h
    | result he h => exact .result he h

end

def headings (p : Package) : Check Package := do
  declarations p
  let classes ← p.classes.zipIdx.mapM fun (c, i) => memberTypes c i
  let p := { p with classes := classes, println := findPrintln p }
  return { p with entry := ← findEntry p }

def bodies (p : Package) : Check Package := do
  let classes ← p.classes.zipIdx.mapM fun (c, i) => methods p c i
  return { p with classes := classes }

theorem agree_headings {span : Span} {p : Package} (h : p.Misnamed span name p') :
    Agree (fun _ => True) (headings p) (headings p') (Package.Misnamed span name) := by
  have hp := h.outline_eq
  obtain ⟨h⟩ := h
  unfold headings
  rw [eq_of_outline hp findPrintln_outline]
  refine (agree_declarations hp).next fun _ => ?_
  refine (agree_mapM_oneOff (T := ClassDecl.Misnamed span name) (h.zipIdx 0) ?_ ?_).after
    fun cs cs' hcs => ?_
  · rintro ⟨c, i⟩
    exact agree_memberTypes c i
  · rintro ⟨c, i⟩ ⟨c', _⟩ ⟨hc, rfl⟩
    exact agree_memberTypes_misnamed hc i
  · refine (agree_findEntry ?_).next fun entry => agree_pure (.mk hcs)
    simp [Package.outline, hcs.map_eq fun _ _ hc => hc.outline_eq]

end MiniJam.Typing
