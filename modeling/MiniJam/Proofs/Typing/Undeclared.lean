import MiniJam.Proofs.Scope.Flat
import MiniJam.Proofs.Typing.Lexical
import MiniJam.Proofs.Typing.Slips

/-!
# One undeclared name, one report

A package that is read and checked without a report is given an undeclared name in the place of one of
its identifiers.  The check of that package reports this name and nothing else
(`Package.check_misnamed`).

Up to the methods the two checks agree (`agree_headings`).  The tables then hold the names that the
package declares, and the undeclared name is not found from any table of its classes (`Clear`).  The
methods before the one with the identifier do not touch these tables, and in the table of that method
there is no such name either, whatever scopes are opened and closed in it (`kept_without`).
-/

namespace MiniJam

open List Scopes ScopeTable Predefined

namespace Typing

/-! ### Tables without a name -/

section

variable {name : String}

theorem find?_modify_eq_none {U : Scopes Binding} {f : ScopeTable Binding → ScopeTable Binding}
    (hpar : ∀ t, (f t).parent = t.parent)
    (hf : ∀ t, t.findLocal? name = none → (f t).findLocal? name = none)
    (h : U.find? i name = none) : (U.modify j f).find? i name = none := by
  have hchai : (U.modify j f).chain i = U.chain i := by
    refine chain_of_parents (fun k => ?_) i
    rw [table?_modify]
    split
    · cases U.table? k with
      | none => rfl
      | some t => exact congrArg some (hpar t)
    · rfl
  rw [Scopes.find?, hchai, findSome?_eq_none_iff]
  intro k hk
  have hloc := findSome?_eq_none_iff.1 h k hk
  rw [table?_modify]
  split
  · cases ht : U.table? k with
    | none => rfl
    | some t =>
      rw [ht] at hloc
      exact hf t hloc
  · exact hloc

theorem Kept.and (h : Kept K table P) (h' : Kept L table P) : Kept (fun U => K U ∧ L U) table P where
  push U hU := ⟨h.push U hU.1, h'.push U hU.2⟩
  pop U hU := ⟨h.pop U hU.1, h'.pop U hU.2⟩
  insert U sym hsym hU := ⟨h.insert U sym hsym hU.1, h'.insert U sym hsym hU.2⟩

theorem kept_without (i table : Nat) : Kept (fun U => U.find? i name = none) table (· ≠ name) where
  push _ := find?_modify_eq_none (fun _ => rfl) fun _ => id
  pop _ := by
    refine find?_modify_eq_none (fun t => ?_) fun t ht => ?_
    · unfold pop?
      cases t.inner <;> rfl
    · -- The mappings that are left are mappings of the table.
      rw [findLocal?_eq_none_iff] at ht ⊢
      refine fun m hm => ht m ?_
      unfold pop? at hm
      unfold mappings at hm ⊢
      cases hinn : t.inner with
      | nil => simpa [hinn] using hm
      | cons m' rest =>
        simp only [hinn, Option.getD_some] at hm
        exact mem_cons_of_mem m' hm
  insert _ sym hsym := by
    refine find?_modify_eq_none (fun t => t.parent_insert sym) fun t ht => ?_
    obtain ⟨m, ms, hms, hins⟩ := t.mappings_insert sym
    rw [findLocal?_eq_none_iff] at ht ⊢
    rw [hms, forall_mem_cons] at ht
    rw [hins, forall_mem_cons, forall_mem_append, forall_mem_singleton]
    exact ⟨⟨ht.1, hsym⟩, ht.2⟩

theorem find?_push {U : Scopes Binding} {table : String} {parent : Nat} (hp : parent < U.tables.size)
    (h : U.find? parent name = none) :
    Scopes.find? ⟨U.tables.push ⟨table, some parent, [], []⟩⟩ U.tables.size name = none := by
  let V : Scopes Binding := ⟨U.tables.push ⟨table, some parent, [], []⟩⟩
  have hnew : V.table? U.tables.size = some ⟨table, some parent, [], []⟩ := by
    simp [V, table?]
  have hold : V.find? parent name = none := by
    rw [(sameAnswers_of_tables fun j hj => ?_).find?, h]
    have hlt : j < U.tables.size := by omega
    simp [V, table?, Array.getElem?_push_lt hlt]
  have hchai : V.chain U.tables.size = U.tables.size :: V.chain parent := by
    rw [chain, hnew]
    simp [hp]
  rw [Scopes.find?, hchai, findSome?_cons, hnew]
  exact hold

end

theorem slips_mapM {α β : Type} {K : Scopes Binding → Prop} {ds : Array Diagnostic}
    {R : α → α → Prop} {xs ys : List α} (h : OneOff R xs ys) {f g : α → Check β}
    (hf : ∀ x, Agree K (f x) (g x) fun _ _ => True)
    (hR : ∀ x ∈ xs, ∀ y, R x y → Slips K ds (f x) (g y) fun _ _ => True) :
    Slips K ds (xs.mapM f) (ys.mapM g) fun _ _ => True := by
  induction h with
  | @head x y h xs =>
    rw [mapM_cons, mapM_cons]
    exact (hR x mem_cons_self y h).after fun _ _ _ => (agree_mapM xs hf).after fun _ _ _ =>
      agree_pure trivial
  | tail x _ ih =>
    rw [mapM_cons, mapM_cons]
    exact (hf x).before fun _ _ _ => (ih fun y hy => hR y (mem_cons_of_mem x hy)).after fun _ _ _ =>
      agree_pure trivial

section

variable {span : Span} {name : String} {p p' : Package} {c c' : ClassDecl}

/-! ### Packages -/

/-- The tables of the classes are there, and a name that is not declared in a class is not found from the
table of its members. -/
structure Clear (classes : List ClassDecl) (name : String) (U : Scopes Binding) : Prop where
  size : classes.length + 1 ≤ U.tables.size
  find? : ∀ i c, classes[i]? = some c → c.Undeclared name → U.find? (memberTable i) name = none

theorem ofFirst_clear (classes : List ClassDecl) (name : String) :
    OfFirst (classes.length + 1) (Clear classes name) where
  size _ hU := hU.size
  keep U U' hsize htab hU := by
    refine ⟨Nat.le_trans hU.size hsize, fun i c hc hname => ?_⟩
    have hi : i < classes.length := (List.getElem?_eq_some_iff.1 hc).1
    rw [(sameAnswers_of_tables fun j hj => htab j ?_).find?, hU.find? i c hc hname]
    simp only [memberTable] at hj
    omega

theorem find?_eq_none {m : Mapping Binding} (h : ∀ n ∈ m.map (·.name), n ≠ name) : m.find? name = none :=
  List.find?_eq_none.2 fun sym hsym => by simpa using h sym.name (mem_map_of_mem hsym)

theorem clear_of_declared (hU : Declared p U) (hname : ∀ c ∈ p.classes, c.name ≠ name) :
    Clear p.classes name U := by
  have hlt : ∀ {i t}, U.table? i = some t → i < U.tables.size :=
    fun h => (Array.getElem?_eq_some_iff.1 h).1
  constructor
  · -- The last table that is known is that of the last class, or that of the classes.
    cases hn : p.classes.length with
    | zero => exact hlt hU.global
    | succ n =>
      have hlast : n < p.classes.length := by omega
      exact hlt (hU.members n _ (getElem?_eq_getElem hlast))
  · intro i c hc hund
    have hmem : Mapping.find? (memberSymbols c i) name = none := by
      refine find?_eq_none ?_
      rw [names_memberSymbols, forall_mem_append, forall_mem_map, forall_mem_map]
      exact ⟨hund.fields, hund.methods⟩
    have hglob : Mapping.find? (classSymbols p) name = none := by
      refine find?_eq_none ?_
      rw [names_classSymbols, forall_mem_map]
      exact hname
    rw [Scopes.find?, hU.chain_member hc]
    simp [hU.find?_member hc, hU.find?_global, hmem, hglob]

theorem slips_methods (hp : p'.outline = p.outline) {cls : Nat}
    (h : c.Misnamed span name c') (hcls : p.classes[cls]? = some c) (hc : ∀ m ∈ c.methods, m.Fresh)
    (hn : c.Undeclared name) :
    Slips (Clear p.classes name) #[undeclared span name] (methods p c cls) (methods p' c' cls)
      fun _ _ => True := by
  obtain ⟨h⟩ := h
  have hlt : cls < p.classes.length := (List.getElem?_eq_some_iff.1 hcls).1
  have hof := ofFirst_clear p.classes name
  refine (slips_mapM h (fun m => agree_method hof hp rfl cls m) fun m hm m' h => ?_).after
    fun _ _ _ => agree_pure trivial
  refine slips_method (A := True) (P := (· ≠ name))
    (L := fun id U => (p.classes.length + 1 ≤ id ∧ Clear p.classes name U) ∧ U.find? id name = none)
    hp rfl (fun U t hU => ⟨hof.push _ hU, find?_push ?_ (hU.find? cls c hcls hn)⟩)
    (fun _ _ hU => hU.1.2) (fun id => (hof.kept id).and (kept_without id id))
    (fun _ => ⟨fun _ _ hU => hU.2, fun _ => id⟩) (fun _ => hc m hm) (hn.params m hm)
    (hn.locals m hm) (.inr ⟨rfl, trivial, h⟩)
  have hsize := hU.size
  simp only [memberTable]
  omega

theorem slips_bodies (h : p.Misnamed span name p') (hcls : ∀ c ∈ p.classes, Readable c)
    (hund : ∀ c ∈ p.classes, ∀ c', c.Misnamed span name c' → c.Undeclared name) :
    Slips (Clear p.classes name) #[undeclared span name] (bodies p) (bodies p') fun _ _ => True := by
  have hout := h.outline_eq
  obtain ⟨h⟩ := h
  refine (slips_mapM (h.zipIdx 0) ?_ ?_).after fun _ _ _ => agree_pure trivial
  · rintro ⟨c, i⟩
    exact agree_methods (ofFirst_clear p.classes _) hout c i
  · rintro ⟨c, i⟩ hc ⟨c', _⟩ ⟨h, rfl⟩
    have hmem := fst_mem_of_mem_zipIdx hc
    exact slips_methods hout h (mk_mem_zipIdx_iff_getElem?.1 hc) (hcls c hmem).methods
      (hund c hmem c' h)

theorem not_misnamed_predefined (hc : c ∈ classes) : ¬ c.Misnamed span name c' := by
  rintro ⟨h⟩
  simp only [classes, mem_cons, not_mem_nil, or_false] at hc
  obtain rfl | rfl | rfl := hc
  · cases h
  · cases h with
    | head h =>
      cases h with
      | body h => cases h
      | result he => cases he
    | tail _ h => cases h
  · cases h

theorem misnamed_addTo (h : p.Misnamed span name p') (hp : ∀ c ∈ p.classes, c.predefined = false) :
    Package.Misnamed span name (addTo p) (addTo p') := by
  cases h with
  | @mk classes' h =>
    have hp' : ∀ c ∈ classes', c.predefined = false := by
      have hflag : classes'.map (·.predefined) = p.classes.map (·.predefined) :=
        h.map_eq fun c c' hc => by cases hc; rfl
      rw [← forall_mem_map (P := (· = false)), hflag, forall_mem_map]
      exact hp
    rw [addTo_eq hp, addTo_eq hp']
    exact .mk (h.append_left _)

/-- The check of a package in which nothing is wrong, and that of the package with an undeclared name in
it. -/
theorem package_misnamed {q q' : Package} (h : q.Misnamed span name q')
    (hcls : ∀ c ∈ q.classes, Readable c) (hent : q.entry = none)
    (hnms : ∀ c ∈ q.classes, c.name ≠ name)
    (hund : ∀ c ∈ q.classes, ∀ c', c.Misnamed span name c' → c.Undeclared name) {s : State}
    (hs : s.scopes.unmarked = ⟨#[]⟩) (hend : (package q s).2.diagnostics = #[]) :
    (package q' s).2.diagnostics = s.diagnostics ++ #[undeclared span name] := by
  -- Up to the methods the two checks do the same, and the tables are those of the package.
  have hquie : (headings q s).2.diagnostics = #[] := grows_bodies _ _ hend
  have hhead : Headed q (headings q s).1 ∧ Declared q (headings q s).2.scopes.unmarked :=
    (quiet_headings hcls hent s).2 hs hquie
  obtain ⟨hheaded, hdecl⟩ := hhead
  obtain ⟨hmis, halike, -, es, hes, hds⟩ := agree_headings h s s rfl trivial
  obtain ⟨-, rfl⟩ := Array.append_eq_empty_iff.1 (hes.symm.trans hquie)
  have hclea := clear_of_declared hdecl hnms
  have hsame : (headings q s).1.classes = q.classes := by rw [hheaded.same]
  rw [← hsame] at hcls hund hclea
  -- Then one method slips.
  obtain ⟨-, -, -, es, hes, hds'⟩ := slips_bodies hmis hcls hund _ _ halike hclea
  obtain ⟨-, rfl⟩ := Array.append_eq_empty_iff.1 (hes.symm.trans hend)
  exact (hds' rfl).trans (by rw [hds rfl, Array.append_empty])

end

end Typing

namespace Package

/-- One undeclared name is reported once.  When a package that is read is checked without a report, and a
name that it does not declare is put in the place of one identifier, then the check of that package says
that this name is not declared, at the place of the identifier, and nothing else. -/
theorem check_misnamed {file : String} {source : List UInt8} {p p' : Package} {span : Span}
    {name : String} (hparse : parse file source = .ok p) (hcheck : p.check.diagnostics = [])
    (h : p.Misnamed span name p') (hname : p.Undeclared name)
    (hpredefined : ∀ c ∈ Predefined.classes, c.name ≠ name) :
    p'.check.diagnostics = [⟨some span, s!"Identifier `{name}' not declared."⟩] := by
  have hp := fresh_of_parse hparse
  have hown : ∀ c ∈ p.classes, c.predefined = false := fun c hc => (hp.classes c hc).declared
  have hadd := Typing.addTo_eq hown
  have hentry : (Predefined.addTo p).entry = none := hadd ▸ hp.entry
  have hend : (Typing.package (Predefined.addTo p) ⟨.empty, #[]⟩).2.diagnostics = #[] :=
    Array.toList_eq_nil_iff.1 hcheck
  have hreport := Typing.package_misnamed (Typing.misnamed_addTo h hown) (Typing.readable_addTo hp)
    hentry ?names ?undeclared (by simp [Scopes.unmarked, Scopes.empty]) hend
  · exact congrArg Array.toList hreport
  case names =>
    rw [hadd, List.forall_mem_append]
    exact ⟨hpredefined, hname.classes⟩
  case undeclared =>
    rw [hadd, List.forall_mem_append]
    exact ⟨fun c hc c' h => absurd h (Typing.not_misnamed_predefined hc),
      fun c hc _ _ => hname.members c hc⟩

/-- The second statement of a block that the statements begin with assigns to a member of something that
is named. -/
def assignsMember : List Stmt → Bool
  | .block _ (_ :: .assign (.member (.id ..) ..) _ :: _) :: _ => true
  | _ => false

theorem exists_misnamed_of_assignsMember (h : assignsMember ss = true) (name : String) :
    ∃ span ss', Stmt.MisnamedList span name ss ss' := by
  unfold assignsMember at h
  split at h
  · exact ⟨_, _, .head (.block (.tail (.head (.target (.member .id)))))⟩
  · cases h

/-- The class in front of the member that `shadowsField` assigns to is given a name that there is not. -/
theorem check_misnamed_shadowsField : ∃ p p' span, parse "M" shadowsField = .ok p ∧
    p.check.diagnostics = [] ∧ p.Misnamed span "N" p' ∧ p.Undeclared "N" ∧
    p'.check.diagnostics = [Typing.undeclared span "N"] := by
  obtain ⟨p, hparse, hcheck⟩ := shadowsField_accepted
  have htest : (parse "M" shadowsField).toOption.elim False fun p =>
      (decide (p.Undeclared "N") && p.classes.any fun c => c.methods.any fun m =>
        assignsMember m.body) = true := by cbv
  rw [hparse] at htest
  simp only [Except.toOption, Option.elim_some, Bool.and_eq_true, decide_eq_true_eq, List.any_eq_true] at htest
  obtain ⟨hname, c, hc, m, hm, hassigns⟩ := htest
  obtain ⟨span, body', hbody⟩ := exists_misnamed_of_assignsMember hassigns "N"
  obtain ⟨methods', hmethods⟩ := OneOff.exists_of_mem hm (MethodDecl.Misnamed.body hbody)
  obtain ⟨classes', hclasses⟩ := OneOff.exists_of_mem hc (ClassDecl.Misnamed.mk hmethods)
  have hmisnamed : p.Misnamed span "N" { p with classes := classes' } := .mk hclasses
  exact ⟨p, _, span, hparse, hcheck, hmisnamed, hname,
    check_misnamed hparse hcheck hmisnamed hname (by decide)⟩

end Package

end MiniJam
