import MiniJam.Proofs.Code.Emitted
import MiniJam.Proofs.Related
import MiniJam.Proofs.Typing.Rules

/-!
# Well-typed packages have code

The code of a well-typed package is `Code.Sealed`: nothing is missing in it, its jumps stay in it, and
every call in it is one of a method of the package (`Assembly.sealed_ofPackage`).  The code of an
expression jumps only if a condition holds (`Code.sealed_ofExpr`).  Code of a part of a method depends on
where the local variables lie (`Code.Frame.Places`); it has no faults if those in scope have a place.
-/

namespace MiniJam

open List Option Layout

namespace Code

/-! ### The places of variables -/

/-- The variables in scope lie one after the other above the link words of the frame. -/
def Frame.Places (f : Frame) (vs : List LocalDecl) : Prop :=
  ∀ i d, vs[i]? = some d → f.find? d = some (3 + i)

/-- The variables in scope have their places, and the next one comes after them. -/
structure Frame.Fits (f : Frame) (vs : List LocalDecl) : Prop where
  offset : f.offset = 3 + vs.length
  places : f.Places vs

variable {f : Frame} {id : MemberId} {b : Binding} {t : Ty} {span : Span}

theorem Frame.Places.left (h : f.Places (vs ++ ws)) : f.Places vs := by
  intro i d hi
  refine h i d ?_
  rw [getElem?_append_left (List.getElem?_eq_some_iff.1 hi).1, hi]

theorem Frame.fits_start : Frame.start.Fits [] := ⟨rfl, nofun⟩

theorem Frame.Fits.declare (h : f.Fits vs) {d : LocalDecl} (hd : d.type.IsValue)
    (hnew : ∀ v ∈ vs, v.name ≠ d.name) : (f.declare d).Fits (vs ++ [d]) where
  offset := by simp [Frame.declare, h.offset, hd.size, Nat.add_assoc]
  places i v hv := by
    simp only [Frame.find?, Frame.declare, lookup_cons]
    rw [getElem?_append] at hv
    split at hv
    · have hne : (v == d) = false := by
        simpa using fun h : v = d => hnew v (mem_of_getElem? hv) (h ▸ rfl)
      rw [hne]
      exact h.places i v hv
    · obtain ⟨hlt, rfl⟩ := List.getElem?_eq_some_iff.1 hv
      have hi : i = vs.length := by
        simp only [length_singleton] at hlt
        omega
      simp [hi, h.offset]

theorem Frame.Fits.leave {g : Frame} (hf : f.Fits vs) (hg : g.Fits (vs ++ ws)) :
    Frame.Fits { g with offset := f.offset } vs :=
  ⟨hf.offset, hg.places.left⟩

/-- The environment of a method at `Γ`. -/
structure Env.At (env : Env) (Γ : Site) : Prop where
  sig : Γ.sig = env.package.signature
  params : env.params.map (·.type) = Γ.params

/-! ### Expressions -/

variable {env : Env} {frame : Frame} {Γ : Site} {vs : List LocalDecl} {js : List Opcode}
  {P : MemberId → Int → Prop} {pc : Nat}

theorem Env.At.field {env : Env} (h : env.At Γ) {f : FieldDecl}
    (hf : Γ.sig.field id = some f) : env.package.field? id = some f :=
  (h.sig ▸ hf : env.package.signature.field id = some f)

theorem Env.At.method {env : Env} (h : env.At Γ) (hπ : Γ.sig.method id = some π) :
    ∃ m, env.package.method? id = some m ∧ m.profile = π :=
  map_eq_some_iff.1 (h.sig ▸ hπ : env.package.signature.method id = some π)

theorem isStatic_field (h : env.At Γ) {f : FieldDecl}
    (hf : Γ.sig.field id = some f) : env.isStatic (some (.field id)) = f.isStatic := by
  simp [Env.isStatic, h.field hf]

theorem exists_fieldEntity (h : env.At Γ) {f : FieldDecl}
    (hf : Γ.sig.field id = some f) : ∃ e, env.entity? frame (.field id) = some e := by
  obtain ⟨c, hc, hf⟩ := bind_eq_some_iff.1 (h.field hf)
  simp only [Env.entity?, fieldEntity?, hc, hf, bind, bind_some]
  split
  · exact ⟨_, rfl⟩
  · exact ⟨_, rfl⟩

theorem exists_varEntity (h : env.At Γ) (hfr : frame.Places vs)
    (hb : Γ.Var vs t b) : ∃ e, env.entity? frame b = some e := by
  match b, hb with
  | .param i, hb =>
    simp only [Site.Var, ← h.params, getElem?_map, map_eq_some_iff] at hb
    obtain ⟨d, hd, -⟩ := hb
    simp [Env.entity?, hd]
  | .var d, hb =>
    obtain ⟨i, hi⟩ := getElem?_of_mem hb.1
    simp [Env.entity?, hfr i d hi]
  | .field id, hb =>
    obtain ⟨f, hf, -⟩ := hb
    exact exists_fieldEntity h hf

theorem base_entity {e : Entity} (h : env.entity? frame b = some e) : e.base ∈ bases := by
  cases b with
  | cls index =>
    obtain ⟨c, -, rfl⟩ := map_eq_some_iff.1 h
    exact show Reg.sb ∈ bases by decide
  | field id =>
    obtain ⟨c, -, h⟩ := bind_eq_some_iff.1 h
    obtain ⟨f, -, h⟩ := bind_eq_some_iff.1 h
    split at h
    · cases h
      exact show Reg.sb ∈ bases by decide
    · cases h
      exact show Reg.ob ∈ bases by decide
  | method id =>
    obtain ⟨m, -, rfl⟩ := map_eq_some_iff.1 h
    exact show Reg.cb ∈ bases by decide
  | param index =>
    obtain ⟨d, -, rfl⟩ := map_eq_some_iff.1 h
    exact show Reg.lb ∈ bases by decide
  | var d =>
    obtain ⟨offset, -, rfl⟩ := map_eq_some_iff.1 h
    exact show Reg.lb ∈ bases by decide

theorem sealed_withEntity {p : Package} {use : Entity → Code}
    (hb : ∃ e, env.entity? frame b = some e)
    (huse : ∀ e, e.base ∈ bases → Sealed js p P pc (use e)) :
    Sealed js p P pc (env.withEntity frame span (some b) use) := by
  obtain ⟨e, he⟩ := hb
  simpa only [Env.withEntity, he] using huse e (base_entity he)

theorem sealed_ofInt {p : Package} (h : Typing.fitsWord spelling = true) :
    Sealed js p P pc (ofInt span spelling) := by
  have hle : (Text.natOfDigits spelling.toList : Int) ≤ maxWord := by
    simpa [Typing.fitsWord] using h
  simp only [ofInt, hle, ↓reduceIte]
  exact emits_literal _

theorem exists_binaryPrim {op : Operator} (h : op.Typed u t) : ∃ q, binaryPrim? op = some q := by
  cases op <;> first | exact ⟨_, rfl⟩ | exact h.elim

theorem sealed_ofInvocation {receiver : Code} (hm : env.package.method? id = some m)
    (hid : P id span.line) (hrcv : m.isStatic = false → Sealed js env.package P pc receiver) :
    Sealed js env.package P pc (ofInvocation env span id m receiver) := by
  unfold ofInvocation
  split
  · exact emits_item (.call (by decide) hid hm (by simp))
  · have hstat : m.isStatic = false := by simpa using ‹¬ m.isStatic = true›
    have hrcv := hrcv hstat
    obtain ⟨c, hc, -⟩ := bind_eq_some_iff.1 hm
    split
    · simp only [hc]
      exact hrcv.append (emits_item (.stack (by decide)))
    · exact hrcv.append (emits_item (.call (by decide) hid hm fun _ => hstat))

section

variable (h : env.At Γ) (hfr : frame.Places vs)

include h hfr

mutual

theorem sealed_ofRef (r : Ref) {t : Ty} (hr : r.Typed Γ vs t) (pc : Nat) (hcs : Allows P r.calls) :
    Sealed branches env.package P pc (ofRef env frame pc r) := by
  match r with
  | .this .. => exact emits_item (.access (by decide) (by decide))
  | .id _ _ b _ =>
    obtain ⟨-, b, rfl, hb⟩ := hr
    exact sealed_withEntity (exists_varEntity h hfr hb) fun e he =>
      emits_item (.access (by decide) he)
  | .member base _ _ b isLength _ =>
    obtain ⟨-, hr⟩ := hr
    cases isLength with
    | true =>
      obtain ⟨-, elem, hbase⟩ := hr
      exact (((sealed_ofRef base hbase pc hcs).append (emits_literal _)).append
        (emits_prim _)).append (emits_item (.stack (by decide)))
    | false =>
      obtain ⟨id, f, rfl, hf, -, hbase⟩ := hr
      refine sealed_withEntity (exists_fieldEntity h hf) fun e he => ?_
      split
      · exact emits_item (.access (by decide) he)
      · rename_i hdir
        simp only [isStatic_field h hf, Bool.or_eq_true, not_or] at hdir
        obtain ⟨hstat, -⟩ | ⟨n, -, hbase⟩ := hbase
        · exact absurd hstat hdir.1
        · exact ((sealed_ofRef base hbase pc hcs).append (emits_literal _)).append
            (emits_prim _)
  | .elem base index _ =>
    obtain ⟨hbase, hidx⟩ := forall_mem_append.1 hcs
    exact ((sealed_ofRef base hr.2.1 pc hbase).append
      (sealed_ofExpr index hr.2.2 _ hidx)).append (emits_prim _)

theorem sealed_ofExpr (e : Expr) {t : Ty} (he : e.Typed Γ vs t) (pc : Nat)
    (hcs : Allows P e.calls) : Sealed branches env.package P pc (ofExpr env frame pc e) := by
  match e with
  | .ref r => exact sealed_ofRef r he pc hcs
  | .int .. => exact sealed_ofInt he.2.2
  | .bool .. => exact emits_literal _
  | .unary _ op operand _ => exact (sealed_ofExpr operand he.2.2 pc hcs).append (emits_prim _)
  | .binary op lhs rhs _ =>
    rw [ofExpr]
    obtain ⟨-, u, hlhs, hrhs, hop⟩ := he
    obtain ⟨q, hq⟩ := exists_binaryPrim hop
    obtain ⟨hl, hr⟩ := forall_mem_append.1 hcs
    simp only [hq]
    split
    · exact ((sealed_ofExpr lhs hlhs pc hl).append
        (sealed_ofExpr rhs hrhs _ hr)).append (emits_prim _)
    · exact sealed_decides (sealed_ofExpr lhs hlhs pc hl)
        (sealed_ofExpr rhs hrhs _ hr) fun _ => emits_prim _
  | .newObject _ cls bound _ =>
    obtain ⟨-, -, i, rfl, hi⟩ := he
    rw [h.sig] at hi
    obtain ⟨c, hc, -⟩ := map_eq_some_iff.1 hi
    rw [ofExpr]
    simp only [bind_some, classEntity?, hc, map_some]
    refine Sealed.append (Sealed.append (emits_item (.access (by decide) ?_)) (emits_literal _))
      (emits_prim _)
    exact show Reg.sb ∈ bases by decide
  | .newArray _ _ size _ =>
    rw [Expr.calls] at hcs
    exact (sealed_ofExpr size he.2.2.2 pc hcs).append (emits_prim _)
  | .call c =>
    rw [Expr.calls] at hcs
    exact sealed_ofCall c he pc hcs

theorem sealed_ofCall (c : Call) {t : Ty} (hc : c.Typed Γ vs t) (pc : Nat)
    (hcs : Allows P c.calls) : Sealed branches env.package P pc (ofCall env frame pc c) := by
  match c with
  | .mk method args _ bound _ =>
    obtain ⟨-, id, π, rfl, hπ, -, ha, hmeth⟩ := hc
    obtain ⟨m, hm, rfl⟩ := h.method hπ
    obtain ⟨hcall, hpts⟩ := forall_mem_cons.1 hcs
    obtain ⟨hrcv, hcs⟩ := forall_mem_append.1 hpts
    rw [ofCall]
    simp only [hm]
    split
    · exact (sealed_ofArgs args ha pc hcs).append (emits_prim _)
    · exact (sealed_ofArgsBackward args ha pc hcs).append
        (sealed_ofInvocation hm (hcall id rfl) fun hstat =>
          sealed_ofReceiver method hmeth hstat _ _ hrcv)

theorem sealed_ofReceiver (method : Ref) {id : MemberId} (hmeth : method.Calls Γ vs id π)
    (hπ : π.isStatic = false) (pc : Nat) (line : Int) (hcs : Allows P method.calls) :
    Sealed branches env.package P pc (ofReceiver env frame pc line method) := by
  have ht : Sealed branches env.package P pc (one line .loada 0 .ob 0) :=
    emits_item (.access (by decide) (by decide))
  match method with
  | .member base .. =>
    rw [ofReceiver]
    split
    · exact ht
    · obtain ⟨hstat, -⟩ | ⟨n, -, hbase⟩ := hmeth
      · exact nomatch hπ.symm.trans hstat
      · exact sealed_ofRef base hbase pc hcs
  | .id .. | .this .. | .elem .. =>
    rw [ofReceiver]
    · exact ht
    · intros
      contradiction

theorem sealed_ofArgs (es : List Expr) (hes : Expr.TypedList Γ vs es ts) (pc : Nat)
    (hcs : Allows P (Expr.callsOf es)) :
    Sealed branches env.package P pc (ofArgs env frame pc es) := by
  match es with
  | [] => exact emits_empty
  | e :: es =>
    obtain ⟨u, us, -, he, hes⟩ := hes
    obtain ⟨hfst, hcs⟩ := forall_mem_append.1 hcs
    exact (sealed_ofExpr e he pc hfst).append (sealed_ofArgs es hes _ hcs)

theorem sealed_ofArgsBackward (es : List Expr) (hes : Expr.TypedList Γ vs es ts) (pc : Nat)
    (hcs : Allows P (Expr.callsOf es)) :
    Sealed branches env.package P pc (ofArgsBackward env frame pc es) := by
  match es with
  | [] => exact emits_empty
  | e :: es =>
    obtain ⟨u, us, -, he, hes⟩ := hes
    obtain ⟨hfst, hcs⟩ := forall_mem_append.1 hcs
    exact (sealed_ofArgsBackward es hes pc hcs).append
      (sealed_ofExpr e he _ hfst)

end

end

/-! ### Statements -/

theorem sealed_ofAssign (h : env.At Γ) (hfr : frame.Places vs) {lhs : Ref} {rhs : Expr}
    (hasg : lhs.Assignable) (hlhs : lhs.Typed Γ vs t) (hrhs : rhs.Typed Γ vs t) (pc : Nat)
    (hl : Allows P lhs.calls) (hr : Allows P rhs.calls) :
    Sealed branches env.package P pc (ofAssign env frame pc lhs rhs) := by
  have hsto : ∀ (line : Int) (e : Entity), e.base ∈ bases → Sealed branches env.package P pc
      (ofExpr env frame pc rhs ++ one line .store e.size e.base e.addr) := fun line e he =>
    (sealed_ofExpr h hfr rhs hrhs pc hr).append (emits_item (.access (by decide) he))
  match lhs with
  | .this .. => exact hasg.elim
  | .id .. =>
    obtain ⟨-, b, rfl, hb⟩ := hlhs
    exact sealed_withEntity (exists_varEntity h hfr hb) fun e he => hsto _ e he
  | .member _ _ _ _ true _ => exact hasg.elim
  | .member base _ _ b false _ =>
    obtain ⟨-, id, f, rfl, hf, -, hbase⟩ := hlhs
    unfold ofAssign
    dsimp only
    split
    · exact sealed_withEntity (exists_fieldEntity h hf) fun e he => hsto _ e he
    · rename_i hdir
      simp only [isStatic_field h hf, Bool.or_eq_true, not_or] at hdir
      obtain ⟨hstat, -⟩ | ⟨n, -, hbase⟩ := hbase
      · exact absurd hstat hdir.1
      · exact sealed_withEntity (exists_fieldEntity h hf) fun e _ =>
          (((sealed_ofRef h hfr base hbase pc hl).append (emits_literal _)).append
            (sealed_ofExpr h hfr rhs hrhs _ hr)).append (emits_prim _)
  | .elem base index _ =>
    obtain ⟨hbase, hidx⟩ := forall_mem_append.1 hl
    exact (((sealed_ofRef h hfr base hlhs.2.1 pc hbase).append
      (sealed_ofExpr h hfr index hlhs.2.2 _ hidx)).append
        (sealed_ofExpr h hfr rhs hrhs _ hr)).append (emits_prim _)

mutual

theorem fits_ofStmt (env : Env) {frame : Frame} {vs : List LocalDecl} (hfr : frame.Fits vs)
    (s : Stmt) (hs : s.Typed Γ vs) (pc : Nat) :
    (ofStmt env frame pc s).2.Fits (vs ++ s.declared) := by
  match s with
  | .block _ body =>
    rw [ofStmt]
    simpa [Stmt.declared] using hfr.leave (fits_ofStmts env hfr body hs pc)
  | .decl d init => exact hfr.declare hs.1 hs.2.1
  | .assign .. | .call .. =>
    rw [ofStmt]
    simpa [Stmt.declared] using hfr
  | .ifThen _ cond body | .loop _ cond body =>
    have haft := fits_ofStmt env hfr body hs.2.2 (pc + (ofExpr env frame pc cond).size + 1)
    rw [hs.2.1] at haft
    exact haft
  | .ifElse _ cond body other =>
    obtain ⟨-, ⟨hdecl, hbody⟩, hdecl', hoth⟩ := hs
    have hmid := fits_ofStmt env hfr body hbody (pc + (ofExpr env frame pc cond).size + 1)
    rw [hdecl, append_nil] at hmid
    show Frame.Fits _ (vs ++ [])
    rw [← hdecl']
    exact fits_ofStmt env hmid other hoth _

theorem fits_ofStmts (env : Env) {frame : Frame} {vs : List LocalDecl} (hfr : frame.Fits vs)
    (ss : List Stmt) (hss : Stmt.TypedList Γ vs ss) (pc : Nat) :
    (ofStmts env frame pc ss).2.Fits (vs ++ ss.flatMap (·.declared)) := by
  match ss with
  | [] =>
    rw [ofStmts]
    simpa using hfr
  | s :: ss =>
    have haft := fits_ofStmts env (fits_ofStmt env hfr s hss.1 pc) ss hss.2
      (pc + (ofStmt env frame pc s).1.size)
    rw [ofStmts]
    simpa using haft

end

mutual

theorem sealed_ofStmt (h : env.At Γ) {frame : Frame} {vs : List LocalDecl} (hfr : frame.Fits vs)
    (s : Stmt) (hs : s.Typed Γ vs) (pc : Nat) (hcs : Allows P s.calls) :
    Sealed jumps env.package P pc (ofStmt env frame pc s).1 := by
  match s with
  | .block _ body => exact (sealed_ofStmts h hfr body hs pc hcs).append (emits_popWords _)
  | .decl d init =>
    have hpls := (hfr.declare hs.1 hs.2.1).places.left
    exact (sealed_ofExpr h hpls init hs.2.2 pc hcs).weaken
  | .assign lhs rhs =>
    obtain ⟨hasg, t, hlhs, hrhs⟩ := hs
    obtain ⟨hl, hr⟩ := forall_mem_append.1 hcs
    exact (sealed_ofAssign h hfr.places hasg hlhs hrhs pc hl hr).weaken
  | .call c =>
    obtain ⟨t, hc⟩ := hs
    exact (sealed_ofCall h hfr.places c hc pc hcs).weaken.append (emits_popWords _)
  | .ifThen _ cond body =>
    obtain ⟨hcond, -, hb⟩ := hs
    obtain ⟨ht, hcs⟩ := forall_mem_append.1 hcs
    exact sealed_ifThen (sealed_ofExpr h hfr.places cond hcond pc ht).weaken
      (sealed_ofStmt h hfr body hb _ hcs)
  | .ifElse _ cond body other =>
    obtain ⟨hcond, ⟨hdecl, hb⟩, -, hoth⟩ := hs
    obtain ⟨hbef, hcs⟩ := forall_mem_append.1 hcs
    obtain ⟨ht, hcs'⟩ := forall_mem_append.1 hbef
    have hmid := fits_ofStmt env hfr body hb (pc + (ofExpr env frame pc cond).size + 1)
    rw [hdecl, append_nil] at hmid
    exact sealed_ifElse rfl (sealed_ofExpr h hfr.places cond hcond pc ht).weaken
      (sealed_ofStmt h hfr body hb _ hcs') (sealed_ofStmt h hmid other hoth _ hcs)
  | .loop _ cond body =>
    obtain ⟨hcond, -, hb⟩ := hs
    obtain ⟨ht, hcs⟩ := forall_mem_append.1 hcs
    exact sealed_loop (sealed_ofExpr h hfr.places cond hcond pc ht).weaken
      (sealed_ofStmt h hfr body hb _ hcs)

theorem sealed_ofStmts (h : env.At Γ) {frame : Frame} {vs : List LocalDecl}
    (hfr : frame.Fits vs) (ss : List Stmt) (hss : Stmt.TypedList Γ vs ss) (pc : Nat)
    (hcs : Allows P (Stmt.callsOf ss)) :
    Sealed jumps env.package P pc (ofStmts env frame pc ss).1 := by
  match ss with
  | [] => exact emits_empty
  | s :: ss =>
    obtain ⟨hfst, hcs⟩ := forall_mem_append.1 hcs
    exact (sealed_ofStmt h hfr s hss.1 pc hfst).append
      (sealed_ofStmts h (fits_ofStmt env hfr s hss.1 pc) ss hss.2 _ hcs)

end

/-! ### Packages -/

theorem forall₂_bodies (p : Package) (dynamic : Bool) (pc : Nat) (ms : List MethodDecl) :
    List.Forall₂ (fun m b => b.decl = m ∧
      (b.code, b.frame) = ofMethod ⟨p, dynamic, m.params⟩ .start b.addr m)
      ms (bodies p dynamic pc ms) := by
  induction ms generalizing pc with
  | nil => exact .nil
  | cons m ms ih => exact .cons ⟨rfl, rfl⟩ (ih _)

theorem forall₂_parts (p : Package) (dynamic : Bool) (cls pc : Nat) (cs : List ClassDecl) :
    List.Forall₂ (fun x part => part.decl = x.1 ∧ part.cls = x.2 ∧
      part.bodies = bodies p dynamic (part.start + 1) x.1.methods)
      (cs.zipIdx cls) (parts p dynamic cls pc cs) := by
  induction cs generalizing cls pc with
  | nil => exact .nil
  | cons c cs ih => exact .cons ⟨rfl, rfl, rfl⟩ (ih _ _)

variable {p : Package} {dynamic : Bool}

/-- The jumps of a method lead to its instructions: behind the code of the body and the result there
is always the one that returns. -/
theorem emits_ofMethod (dynamic : Bool) {m : MethodDecl} {cls : Nat} (hm : m.Typed p.signature cls)
    (pc : Nat) (hcs : Allows P m.calls) : ∃ last words,
    (ofMethod ⟨p, dynamic, m.params⟩ .start pc m).1.size = last + 1 ∧
    (ofMethod ⟨p, dynamic, m.params⟩ .start pc m).1.items[last]? =
      some ⟨.make .ret words .zr (paramWords m), m.span.line, none⟩ ∧
    Emits jumps p P pc (pc + last) (ofMethod ⟨p, dynamic, m.params⟩ .start pc m).1 := by
  -- Whatever code there is in front of the last instruction, its jumps stay in it.
  have hl : ∀ (code : Code) (words : Int), Sealed jumps p P pc code →
      ∃ last words', (code ++ one m.span.line .ret words .zr (paramWords m)).size = last + 1 ∧
        (code ++ one m.span.line .ret words .zr (paramWords m)).items[last]? =
          some ⟨.make .ret words' .zr (paramWords m), m.span.line, none⟩ ∧
        Emits jumps p P pc (pc + last) (code ++ one m.span.line .ret words .zr (paramWords m)) := by
    intro code words hc
    refine ⟨code.size, words, by simp, ?_, Emits.append hc (emits_item (.stack (by decide)))⟩
    rw [items_append, size, getElem?_append_right (Nat.le_refl _), Nat.sub_self]
    rfl
  have henv : Env.At ⟨p, dynamic, m.params⟩ (m.site p.signature cls) := ⟨rfl, rfl⟩
  obtain ⟨hb, hres⟩ := hm
  obtain ⟨hstm, hcs⟩ := forall_mem_append.1 hcs
  have hc := sealed_ofStmts henv Frame.fits_start m.body hb pc hstm
  unfold ofMethod
  cases hr : m.result with
  | none => exact hl _ _ (hc.append emits_empty)
  | some e =>
    rw [hr] at hres hcs
    have haft := fits_ofStmts ⟨p, dynamic, m.params⟩ Frame.fits_start m.body hb pc
    exact hl _ _ (hc.append (sealed_ofExpr henv haft.places e hres.2 _ hcs).weaken)

theorem sealed_bodies {cls : Nat} (h : ∀ m ∈ ms, m.Typed p.signature cls) (pc : Nat) :
    Sealed jumps p (fun _ _ => True) pc (join ((bodies p dynamic pc ms).map (·.code))) := by
  induction ms generalizing pc with
  | nil => exact emits_empty
  | cons m ms ih =>
    obtain ⟨hm, hms⟩ := forall_mem_cons.1 h
    obtain ⟨last, -, hsize, -, hcode⟩ := emits_ofMethod dynamic hm pc (allows_all m.calls)
    have hle : pc + last ≤ pc + (ofMethod ⟨p, dynamic, m.params⟩ .start pc m).1.size := by omega
    exact Sealed.append (hcode.mono (Nat.le_refl _) hle) (ih hms _)

theorem sealed_parts {cs : List ClassDecl} (cls pc : Nat)
    (h : ∀ x ∈ cs.zipIdx cls, ∀ m ∈ x.1.methods, m.Typed p.signature x.2) :
    Sealed jumps p (fun _ _ => True) pc (join ((parts p dynamic cls pc cs).map (·.code))) := by
  induction cs generalizing cls pc with
  | nil => exact emits_empty
  | cons c cs ih =>
    obtain ⟨hc, hcs⟩ := forall_mem_cons.1 h
    exact Sealed.append (sealed_part ⟨cls, c, pc, _⟩ (sealed_bodies hc _)) (ih _ _ hcs)

end Code

theorem Package.Typed.exists_entry {p : Package} (hp : p.Typed) {entry : MemberId}
    (hent : p.entry = some entry) : ∃ m, p.method? entry = some m := by
  obtain ⟨id, hid, hprof⟩ := hp.entry
  cases hent.symm.trans hid
  obtain ⟨m, hm, -⟩ := map_eq_some_iff.1 hprof
  exact ⟨m, hm⟩

namespace Assembly

variable {p : Package} (dynamic : Bool) {entry : MemberId}

theorem sealed_ofPackage (hp : p.Typed) (hent : p.entry = some entry) :
    Code.Sealed Code.jumps p (fun _ _ => True) 0 (ofPackage p dynamic entry).code := by
  obtain ⟨main, hmain⟩ := hp.exists_entry hent
  refine Code.Sealed.append (Code.Sealed.append (Code.emits_item (.stack (by decide)))
    (Code.sealed_parts _ _ ?_)) ?_
  · rintro ⟨c, cls⟩ hc m hm
    obtain ⟨i, hi⟩ := getElem?_of_mem hm
    have hc : p.class? cls = some c := mk_mem_zipIdx_iff_getElem?.1 hc
    exact hp.methods ⟨cls, i⟩ m (by simp [Package.method?, hc, hi])
  · exact Code.Emits.append (Code.Emits.append (Code.emits_literal _)
      (Code.emits_item (.call (by decide) trivial hmain (by simp))))
      (Code.emits_item (.stack (by decide)))

theorem exists_body (entry : MemberId) {id : MemberId} (h : p.method? id = some m) :
    ∃ b, (ofPackage p dynamic entry).body? id = some b ∧ b.decl = m ∧
      (b.code, b.frame) = Code.ofMethod ⟨p, dynamic, m.params⟩ .start b.addr m := by
  obtain ⟨c, hc, hm⟩ := bind_eq_some_iff.1 h
  have hc : p.classes[id.cls]? = some c := hc
  have hpts := Code.forall₂_parts p dynamic 0
    (Code.one 0 .push 0 .zr (staticSize p)).size p.classes
  obtain ⟨part, hp, -, -, hbod⟩ := getElem?_of_forall₂ hpts.flip
    (i := id.cls) (y := (c, id.cls)) (by simp [getElem?_zipIdx, hc])
  obtain ⟨b, hb, hdecl, hcode⟩ := getElem?_of_forall₂
    (Code.forall₂_bodies p dynamic (part.start + 1) c.methods).flip hm
  have hp : (ofPackage p dynamic entry).parts[id.cls]? = some part := hp
  refine ⟨b, ?_, hdecl, hcode⟩
  simp [body?, hp, hbod, hb]

end Assembly

end MiniJam
