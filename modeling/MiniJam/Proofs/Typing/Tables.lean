import MiniJam.Proofs.Tree.Names
import MiniJam.Proofs.Typing.Agree

/-!
# The tables of a check

What the scope tables hold while a package is checked without a report, apart from the marks of the
symbols.  Names are entered into the last table one after the other (`quiet_fill`): the classes, the
members of a class, and the parameters of a method.  `Declared` says that the tables hold the classes of
a package and their members, and `Scoped` that the table of a method holds what is in scope in it.

What a lookup finds is then what the name stands for by its position in the tree (`Scoped.lookup`), with
its type (`Scoped.declares`).
-/

namespace MiniJam.Typing

open List Package Scopes

/-! ### Symbols -/

def classSymbols (p : Package) : Mapping Binding :=
  p.classes.zipIdx.map fun (c, i) => ⟨c.name, .cls, .cls c.name, some c.span, .cls i, false⟩

/-- The symbols of the members of a class at the position `cls`. -/
def memberSymbols (c : ClassDecl) (cls : Nat) : Mapping Binding :=
  c.fields.zipIdx.map (fun (f, i) => ⟨f.name, .field, f.type, some f.span, .field ⟨cls, i⟩, false⟩) ++
    c.methods.zipIdx.map fun (m, i) => ⟨m.name, .method, m.type, some m.span, .method ⟨cls, i⟩, false⟩

def paramSymbols (ds : List ParamDecl) : Mapping Binding :=
  ds.zipIdx.map fun (d, i) => ⟨d.name, .param, d.type, some d.span, .param i, false⟩

def localSymbols (vs : List LocalDecl) : Mapping Binding :=
  vs.map fun d => ⟨d.name, .var, d.type, some d.span, .var d, false⟩

theorem names_classSymbols (p : Package) :
    (classSymbols p).map (·.name) = p.classes.map (·.name) := by
  rw [classSymbols, map_map]
  exact map_zipIdx_fst (·.name) p.classes

theorem names_memberSymbols (c : ClassDecl) (cls : Nat) :
    (memberSymbols c cls).map (·.name) = c.fields.map (·.name) ++ c.methods.map (·.name) := by
  rw [memberSymbols, map_append, map_map, map_map]
  exact congrArg₂ _ (map_zipIdx_fst (·.name) c.fields) (map_zipIdx_fst (·.name) c.methods)

theorem names_paramSymbols (ds : List ParamDecl) :
    (paramSymbols ds).map (·.name) = ds.map (·.name) := by
  rw [paramSymbols, map_map]
  exact map_zipIdx_fst (·.name) ds

/-! ### What names stand for -/

def entry (sym : Symbol Binding) : String × Binding := (sym.name, sym.decl)

theorem lookup_entries (m : Mapping Binding) (name : String) :
    (m.map entry).lookup name = (m.find? name).map (·.decl) := by
  induction m with
  | nil => rfl
  | cons sym m ih =>
    simp only [map_cons, entry, lookup_cons, Mapping.find?, find?_cons]
    by_cases h : sym.name = name
    · simp [h]
    · have hsym : (sym.name == name) = false := beq_false_of_ne h
      have hname : (name == sym.name) = false := beq_false_of_ne (Ne.symm h)
      simp only [hsym, hname]
      exact ih

@[simp] theorem entries_classSymbols (p : Package) : (classSymbols p).map entry = p.classNames := by
  rw [classSymbols, map_map]
  rfl

@[simp] theorem entries_memberSymbols (c : ClassDecl) (cls : Nat) :
    (memberSymbols c cls).map entry = c.memberNames cls := by
  rw [memberSymbols, map_append, map_map, map_map]
  rfl

@[simp] theorem entries_paramSymbols (ds : List ParamDecl) :
    (paramSymbols ds).map entry = paramNames ds := by
  rw [paramSymbols, map_map]
  rfl

@[simp] theorem entries_localSymbols (vs : List LocalDecl) :
    (localSymbols vs).map entry = localNames vs := by
  rw [localSymbols, map_map]
  rfl

theorem lookup_perm {l l' : Names} (h : l.Perm l') (hl : (l.map (·.1)).Nodup) (name : String) :
    l.lookup name = l'.lookup name := by
  induction h with
  | nil => rfl
  | cons x _ ih =>
    rw [lookup_cons, lookup_cons, ih (nodup_cons.1 hl).2]
  | swap x y l =>
    -- At most one of the two names is the one that is looked for.
    obtain ⟨⟨x, d⟩, y, e⟩ := x, y
    have hne : y ≠ x := by
      rintro rfl
      simp at hl
    simp only [lookup_cons]
    by_cases hx : name = x
    · subst hx
      simp [beq_false_of_ne hne.symm]
    · have hx : (name == x) = false := beq_false_of_ne hx
      simp [hx]
  | trans h _ ih ih' => exact (ih hl).trans (ih' ((h.map _).nodup_iff.1 hl))

/-- What a member of the class at the position `cls` stands for, with its type. -/
def MemberDeclares (p : Package) (cls : Nat) (t : Ty) : Binding → Prop
  | .field id => id.cls = cls ∧ ∃ f, p.field? id = some f ∧ f.type = t
  | .method id => id.cls = cls ∧ ∃ m, p.method? id = some m ∧ m.type = t
  | _ => False

/-- What a name in the body of a method stands for, with its type. -/
def Declares (E : Enclosure) (t : Ty) : Binding → Prop
  | .var d => d.type = t
  | .param i => ∃ d, E.params[i]? = some d ∧ d.type = t
  | .cls i => ∃ n, E.package.signature.className i = some n ∧ t = .cls n
  | b => MemberDeclares E.package E.cls t b

theorem className_eq {p : Package} {c : ClassDecl} (h : p.class? i = some c) :
    p.signature.className i = some c.name := by
  simp [signature, h]

theorem mem_classSymbols (h : sym ∈ classSymbols p) :
    ∃ i, sym.decl = .cls i ∧ sym.type = .cls sym.name ∧ p.signature.className i = some sym.name := by
  obtain ⟨⟨c, i⟩, hc, rfl⟩ := mem_map.1 h
  exact ⟨i, rfl, rfl, className_eq (mk_mem_zipIdx_iff_getElem?.1 hc)⟩

theorem declares_memberSymbols {p : Package} {c : ClassDecl} {cls : Nat}
    (hc : p.class? cls = some c) (h : sym ∈ memberSymbols c cls) :
    MemberDeclares p cls sym.type sym.decl := by
  rcases mem_append.1 h with h | h
  · obtain ⟨⟨f, i⟩, hf, rfl⟩ := mem_map.1 h
    exact ⟨rfl, f, by simp [field?, hc, mk_mem_zipIdx_iff_getElem?.1 hf], rfl⟩
  · obtain ⟨⟨m, i⟩, hm, rfl⟩ := mem_map.1 h
    exact ⟨rfl, m, by simp [method?, hc, mk_mem_zipIdx_iff_getElem?.1 hm], rfl⟩

/-! ### The tables of a package and of a method -/

/-- The variables of open blocks in the order of their declarations; the innermost block comes
first among the blocks. -/
def scope (blocks : List (List LocalDecl)) : List LocalDecl := blocks.reverse.flatten

@[simp] theorem scope_cons (b : List LocalDecl) (bs : List (List LocalDecl)) :
    scope (b :: bs) = scope bs ++ b := by
  simp [scope]

theorem scope_perm (blocks : List (List LocalDecl)) : (scope blocks).Perm blocks.flatten :=
  (reverse_perm blocks).flatten

/-- The tables hold the classes of a package and their members. -/
structure Declared (p : Package) (U : Scopes Binding) : Prop where
  global : U.table? globalTable = some ⟨"global", none, [], classSymbols p⟩
  members : ∀ i c, p.class? i = some c →
    U.table? (memberTable i) = some ⟨c.name, some globalTable, [], memberSymbols c i⟩

/-- The tables hold what is in scope in a method with the given open blocks, and no two local variables
in scope have the same name. -/
structure Scoped (E : Enclosure) (table : Nat) (blocks : List (List LocalDecl)) (U : Scopes Binding) :
    Prop extends Declared E.package U where
  inside : ∀ i c, E.package.class? i = some c → memberTable i < table
  known : ∃ c, E.package.class? E.cls = some c
  method : ∃ title, U.table? table =
    some ⟨title, some (memberTable E.cls), blocks.map localSymbols, paramSymbols E.params⟩
  distinct : ((scope blocks).map (·.name)).Nodup

variable {p : Package} {E : Enclosure} {U : Scopes Binding} {table i : Nat} {c : ClassDecl}
  {blocks blocks' : List (List LocalDecl)} {name : String} {sym : Symbol Binding}

theorem findLocal?_eq (t : ScopeTable Binding) (name : String) :
    t.findLocal? name = Mapping.find? t.mappings.flatten name :=
  find?_flatten.symm

namespace Declared

variable (h : Declared p U)
include h

theorem chain_global : U.chain globalTable = [globalTable] := by
  rw [chain]
  simp [h.global]

theorem chain_member (hc : p.class? i = some c) :
    U.chain (memberTable i) = [memberTable i, globalTable] := by
  have hlt : globalTable < memberTable i := Nat.succ_pos i
  rw [chain]
  simp [h.members i c hc, hlt, h.chain_global]

theorem find?_global (name : String) :
    (U.table? globalTable).bind (·.findLocal? name) = Mapping.find? (classSymbols p) name := by
  simp [h.global, findLocal?_eq, ScopeTable.mappings]

theorem find?_member (hc : p.class? i = some c) (name : String) :
    (U.table? (memberTable i)).bind (·.findLocal? name) = Mapping.find? (memberSymbols c i) name := by
  simp [h.members i c hc, findLocal?_eq, ScopeTable.mappings]

theorem findClass (hf : U.findKind? globalTable name .cls = some sym) :
    ∃ i, sym.decl = .cls i ∧ p.signature.className i = some name := by
  rw [findKind?, h.chain_global] at hf
  simp only [findSome?_cons, findSome?_nil, h.global, Option.bind_some, ScopeTable.findKind?,
    ScopeTable.mappings, nil_append] at hf
  cases hsym : find? (fun s => s.name == name && s.kind == .cls) (classSymbols p) with
  | none => simp [hsym] at hf
  | some sym' =>
    obtain rfl : sym' = sym := by simpa [hsym] using hf
    obtain ⟨i, hdecl, -, hi⟩ := mem_classSymbols (mem_of_find?_eq_some hsym)
    have hkey := find?_some hsym
    simp only [Bool.and_eq_true, beq_iff_eq] at hkey
    exact ⟨i, hdecl, hkey.1 ▸ hi⟩

theorem push (t : ScopeTable Binding) : Declared p ⟨U.tables.push t⟩ := by
  have hp : ∀ {i t'}, U.table? i = some t' → table? ⟨U.tables.push t⟩ i = some t' := by
    intro i t' hi
    have hlt : i < U.tables.size := (Array.getElem?_eq_some_iff.1 hi).1
    simpa [table?, Array.getElem?_push, Nat.ne_of_lt hlt] using hi
  exact ⟨hp h.global, fun i c hc => hp (h.members i c hc)⟩

end Declared

namespace Scoped

variable (h : Scoped E table blocks U)
include h

theorem chain : U.chain table = [table, memberTable E.cls, globalTable] := by
  obtain ⟨c, hc⟩ := h.known
  obtain ⟨title, ht⟩ := h.method
  rw [Scopes.chain]
  simp only [ht, h.inside _ c hc, ↓reduceDIte, h.chain_member hc]

theorem find?_method (name : String) :
    (U.table? table).bind (·.findLocal? name) =
      Mapping.find? (localSymbols blocks.flatten ++ paramSymbols E.params) name := by
  obtain ⟨title, ht⟩ := h.method
  have hflat : (blocks.map localSymbols).flatten = localSymbols blocks.flatten :=
    map_flatten.symm
  simp [ht, findLocal?_eq, ScopeTable.mappings, hflat]

/-- What is in scope in a method, the nearest declarations first. -/
theorem find?_eq (hc : E.package.class? E.cls = some c) (name : String) :
    U.find? table name = Mapping.find? (localSymbols blocks.flatten ++ (paramSymbols E.params ++
      (memberSymbols c E.cls ++ classSymbols E.package))) name := by
  rw [Scopes.find?, h.chain, ← append_assoc]
  simp only [findSome?_cons, findSome?_nil, h.find?_method, h.find?_member hc, h.find?_global,
    Mapping.find?, find?_append]
  cases find? (·.name == name) (localSymbols blocks.flatten) with
  | some sym => rfl
  | none =>
    cases find? (·.name == name) (paramSymbols E.params) with
    | some sym => rfl
    | none =>
      cases find? (·.name == name) (memberSymbols c E.cls) with
      | some sym => rfl
      | none => cases find? (·.name == name) (classSymbols E.package) <;> rfl

theorem lookup (name : String) :
    (U.find? table name).map (·.decl) = E.lookup (scope blocks) name := by
  obtain ⟨c, hc⟩ := h.known
  have hscop : (localNames blocks.flatten).lookup name = (localNames (scope blocks)).lookup name := by
    refine (lookup_perm ((scope_perm blocks).map _) ?_ name).symm
    simpa [localNames, Function.comp_def] using h.distinct
  rw [h.find?_eq hc, ← lookup_entries]
  simp only [map_append, entries_localSymbols, entries_paramSymbols, entries_memberSymbols,
    entries_classSymbols, lookup_append, hscop, Enclosure.lookup, member?, hc,
    Option.bind_some]

theorem declares (hf : U.find? table name = some sym) :
    Declares E sym.type sym.decl := by
  obtain ⟨c, hc⟩ := h.known
  rw [h.find?_eq hc] at hf
  have hmem := (Mapping.find?_some hf).1
  simp only [mem_append] at hmem
  rcases hmem with hsym | hsym | hsym | hsym
  · obtain ⟨d, -, rfl⟩ := mem_map.1 hsym
    rfl
  · obtain ⟨⟨d, i⟩, hd, rfl⟩ := mem_map.1 hsym
    exact ⟨d, mk_mem_zipIdx_iff_getElem?.1 hd, rfl⟩
  · have hmember := declares_memberSymbols hc hsym
    cases hdecl : sym.decl with
    | field | method =>
      rw [hdecl] at hmember
      exact hmember
    | var | param | cls =>
      rw [hdecl] at hmember
      exact hmember.elim
  · obtain ⟨i, hdecl, htype, hi⟩ := mem_classSymbols hsym
    rw [hdecl]
    exact ⟨sym.name, hi, htype⟩

theorem modify {f : ScopeTable Binding → ScopeTable Binding}
    (hf : ∀ title parent ms, f ⟨title, parent, blocks.map localSymbols, ms⟩ =
      ⟨title, parent, blocks'.map localSymbols, ms⟩)
    (hdist : ((scope blocks').map (·.name)).Nodup) : Scoped E table blocks' (U.modify table f) where
  global := by
    obtain ⟨c, hc⟩ := h.known
    have hne : table ≠ globalTable := Nat.ne_of_gt (Nat.zero_lt_of_lt (h.inside _ c hc))
    simpa [table?_modify, hne] using h.global
  members i c hc := by
    have hne : table ≠ memberTable i := Nat.ne_of_gt (h.inside i c hc)
    simpa [table?_modify, hne] using h.members i c hc
  inside := h.inside
  known := h.known
  method := by
    obtain ⟨title, ht⟩ := h.method
    exact ⟨title, by simp [table?_modify, ht, hf]⟩
  distinct := hdist

end Scoped

/-! ### Changes of the tables -/

theorem quiet_modifyTable {f : ScopeTable Binding → ScopeTable Binding} {P R : Scopes Binding → Prop}
    (hf : ∀ t, (f t).unmarked = f t.unmarked) (h : ∀ U, P U → R (U.modify table f)) :
    Quiet (fun s => P s.scopes.unmarked) (modifyScopes (·.modify table f))
      fun _ s => R s.scopes.unmarked :=
  quiet_modifyScopes fun s hs => (s.scopes.unmarked_modify table hf).symm ▸ h _ hs

theorem quiet_bind {kind : SymbolKind} {type : Ty} {span : Span} {decl : Binding}
    {P R : Scopes Binding → Prop} (h : ∀ U, P U → (U.table? table).bind (·.findLocal? name) = none →
      R (U.modify table (·.insert ⟨name, kind, type, some span, decl, false⟩))) :
    Quiet (fun s => P s.scopes.unmarked) (bind table name kind type span decl)
      fun _ s => R s.scopes.unmarked := by
  intro s
  rw [bind_run]
  cases hfind : (s.scopes.table? table).bind (·.findLocal? name) with
  | some other =>
    exact quiet_report (P := fun s => P s.scopes.unmarked) (R := fun _ s => R s.scopes.unmarked)
      (some span) (redeclared name other) s
  | none =>
    have hnone : (s.scopes.unmarked.table? table).bind (·.findLocal? name) = none := by
      rw [findLocal?_unmarked, hfind, Option.map_none]
    have hins := quiet_modifyTable (P := fun U => P U ∧ (U.table? table).bind (·.findLocal? name) = none)
      (fun t => t.unmarked_insert ⟨name, kind, type, some span, decl, false⟩) fun U hU => h U hU.1 hU.2
    exact ⟨id, fun hs hend => (hins s).2 ⟨hs, hnone⟩ hend⟩

/-- The names of the last table, `table`, are those of `ms`, which all differ; `D` is known of the tables
before it. -/
def Filling (D : Array (ScopeTable Binding) → Prop) (title : String) (parent : Option Nat) (table : Nat)
    (ms : Mapping Binding) (U : Scopes Binding) : Prop :=
  (ms.map (·.name)).Nodup ∧ ∃ T, D T ∧ table = T.size ∧ U = ⟨T.push ⟨title, parent, [], ms⟩⟩

variable {D : Array (ScopeTable Binding) → Prop} {title : String} {parent : Option Nat}

theorem quiet_newTable {P : Scopes Binding → Prop} (h : ∀ U, P U → D U.tables) :
    Quiet (fun s => P s.scopes.unmarked) (newTable title parent)
      fun table s => Filling D title parent table [] s.scopes.unmarked := by
  refine fun s => ⟨id, fun hs _ => ⟨nodup_nil, s.scopes.unmarked.tables, h _ hs, ?_, ?_⟩⟩
  · simp [unmarked]
  · exact unmarked_withTable s title parent

theorem Filling.insert (h : Filling D title parent table ms U)
    (hn : (U.table? table).bind (·.findLocal? sym.name) = none) :
    Filling D title parent table (ms ++ [sym]) (U.modify table (·.insert sym)) := by
  obtain ⟨hnd, T, hT, rfl, rfl⟩ := h
  have htab : table? ⟨T.push ⟨title, parent, [], ms⟩⟩ T.size = some ⟨title, parent, [], ms⟩ := by
    simp [table?]
  refine ⟨?_, T, hT, rfl, ?_⟩
  · rw [htab, Option.bind_some, findLocal?_eq] at hn
    rw [map_append]
    refine nodup_append.2 ⟨hnd, pairwise_singleton _ _, ?_⟩
    rintro x hx y hy rfl
    obtain ⟨sym', hsym', rfl⟩ := mem_map.1 hx
    have hne := find?_eq_none.1 hn sym' (by simpa [ScopeTable.mappings] using hsym')
    simp_all
  · rw [Scopes.modify]
    congr 1
    refine Array.ext_getElem? fun i => ?_
    rw [Array.getElem?_modify, Array.getElem?_push, Array.getElem?_push]
    by_cases hi : i = T.size
    · simp [hi, ScopeTable.insert]
    · simp [hi, Ne.symm hi]

/-- Names that are bound one after the other without a report all differ, and the table holds them in
this order. -/
theorem quiet_fill {α : Type} (ms : Mapping Binding) (xs : List α) {name : α → String}
    {kind : α → SymbolKind} {type : α → Ty} {span : α → Span} {decl : α → Binding}
    {f : α → PUnit → Check (ForInStep PUnit)} (hf : ∀ x, f x .unit = do
      bind table (name x) (kind x) (type x) (span x) (decl x)
      pure (.yield .unit)) :
    Quiet (fun s => Filling D title parent table ms s.scopes.unmarked) (forIn xs PUnit.unit f)
      fun _ s => Filling D title parent table
        (ms ++ xs.map fun x => ⟨name x, kind x, type x, some (span x), decl x, false⟩)
        s.scopes.unmarked := by
  refine (quiet_forIn (I := fun done s => Filling D title parent table
    (ms ++ done.map fun x => ⟨name x, kind x, type x, some (span x), decl x, false⟩)
    s.scopes.unmarked) xs ?_).mono (fun s hs => by simpa using hs) fun _ _ h => h
  intro done x rest _
  rw [hf, map_append, ← append_assoc]
  exact Quiet.yield (quiet_bind fun U hU hnone => hU.insert hnone)

end MiniJam.Typing
