import MiniJam.Proofs.Simulation.Expr

/-!
# The code of statements follows their execution

A machine that comes to the code of a statement follows its execution and leaves on the stack what
the method's variables are then.  With the code of methods this completes the induction:
`simulates X n` for all depths `n`.
-/

namespace MiniJam

open List Code Stmt

namespace Simulation

open Semantics
open Target (codeAt_append)

variable {X : Target} {top pc cp : Nat} {line : Int}

/-! ### Changes of the variables -/

def Scene.next (S : Scene X) (act : Activation) (frame : Code.Frame)
    (hplaces : frame.Places (act.locals.map (·.1)))
    (harity : act.params.length = S.act.params.length) : Scene X :=
  { S with act := act, frame := frame, places := hplaces, arity := harity.trans S.arity }

def Scene.start (X : Target) (F : Caller) (m : MethodDecl) (cls : Nat) (this : Value)
    {us : List Value} (hus : us.length = m.params.length) : Scene X where
  params := m.params
  site := m.site X.package.signature cls
  frame := .start
  act := ⟨this, us, []⟩
  caller := F
  at_site := ⟨rfl, rfl⟩
  places := Code.Frame.fits_start.places
  arity := by simpa [MethodDecl.site] using hus

section

variable {F : Caller} {act act' : Activation}

theorem depth_le (hloc : act'.locals.length ≤ act.locals.length + k)
    (hpar : act'.params.length = act.params.length) :
    (X.view F act').depth ≤ (X.view F act).depth + k := by
  have h := X.depth_view F act
  have h' := X.depth_view F act'
  simp only [Target.view, Target.viewOf] at h h' ⊢
  omega

theorem config_declare (d : LocalDecl) (v : Value) (cp : Nat) :
    (X.view F { act with locals := act.locals ++ [(d, v)] }).config cp [] =
      (X.view F act).config cp [.val v] := by
  funext s
  simp [Target.view, Target.viewOf, View.config, Caller.words]

theorem arrives_leave {k n : Nat} (hcode : X.CodeAt cp (popWords line n))
    (hn : n = act.locals.length - k) (s : Store) :
    Arrives X ((X.view F act).config cp [] s)
      ((X.view F { act with locals := act.locals.take k }).config
        (cp + (popWords line n).size) [] s) := by
  have hspl : F.words act = (act.locals.drop k).reverse.map (fun x => .val x.2) ++
      F.words { act with locals := act.locals.take k } := by
    simp only [Caller.words, ← append_assoc, ← map_append, ← reverse_append, take_append_drop]
  simp only [Target.view, Target.viewOf, View.config, nil_append, hspl, append_assoc]
  exact arrives_popWords hcode (by simp [hn])

end

namespace Simulates

variable {n : Nat} (S : Scene X)

/-! ### Assignments -/

theorem ofAssign_id {span : Span} {name : String} {b : Binding} {t : Ty} {e : Entity}
    (he : S.env.entity? S.frame b = some e) (rhs : Expr) (pc : Nat) :
    ofAssign S.env S.frame pc (.id span name (some b) t) rhs =
      ofExpr S.env S.frame pc rhs ++ .one ((Ref.id span name (some b) t).span.merge rhs.span).line
        .store e.size e.base e.addr := by
  simp [ofAssign, Code.Env.withEntity, he]

theorem vars_setLocal (act : Activation) (d : LocalDecl) (v : Value) :
    (act.setLocal d v).locals.map (·.1) = act.locals.map (·.1) := by
  simp only [Activation.setLocal, map_map]
  refine map_congr_left fun x _ => ?_
  simp only [Function.comp_apply]
  split
  · exact ‹x.1 = d›.symm
  · rfl

theorem follows_unchanged {α : Type} {C : Store → Config} {x : Eval α}
    (h : Follows X top C x (fun _ => True) fun _ => S.view.config cp []) :
    Follows X top C (x >>= fun _ => pure S.act)
      (fun act => act.locals.map (·.1) = S.vars ∧ act.params.length = S.act.params.length)
      fun act => (X.view S.caller act).config cp [] :=
  h.bind fun _ _ => follows_pure ⟨rfl, rfl⟩ fun _ _ => .refl _

theorem assign_succ (h : Simulates X n) {lhs : Ref} {rhs : Expr} {t : Ty}
    (hasg : lhs.Assignable) (hlhs : lhs.Typed S.site S.vars t) (hrhs : rhs.Typed S.site S.vars t)
    (hc : X.CodeAt pc (ofAssign S.env S.frame pc lhs rhs))
    (hroom : S.view.depth + need (n + 1) ≤ top) :
    Follows X top (S.view.config pc []) (Semantics.stmt X.package (n + 1) S.act (.assign lhs rhs))
      (fun act => act.locals.map (·.1) = S.vars ∧ act.params.length = S.act.params.length)
      fun act => (X.view S.caller act).config
        (pc + (ofAssign S.env S.frame pc lhs rhs).size) [] := by
  have hneed := need_succ n
  have hemp : ([] : List Cell).length + S.view.depth + need n ≤ top := by
    rw [length_nil]
    omega
  match lhs with
  | .this .. => exact hasg.elim
  | .id span name _ _ =>
    obtain ⟨-, b, rfl, hb⟩ := hlhs
    obtain ⟨e, he⟩ := exists_varEntity S.at_site S.places hb
    rw [ofAssign_id S he, codeAt_append] at hc
    rw [ofAssign_id S he, size_append, ← Nat.add_assoc]
    have hval := h.expr S hrhs hc.1 hemp
    match b, hb with
    | .param i, hb =>
      have hi : i < S.act.params.length := S.arity ▸ (List.getElem?_eq_some_iff.1 hb).1
      obtain ⟨d, -, rfl⟩ := Option.map_eq_some_iff.1 he
      refine hval.bind fun v _ => follows_pure ⟨rfl, ?_⟩ fun s _ =>
        arrives_setParam hi hc.2.one v s
      simp [Activation.setParam]
    | .var d, hb =>
      obtain ⟨offset, hoff, rfl⟩ := Option.map_eq_some_iff.1 he
      exact hval.bind fun v _ => follows_pure ⟨vars_setLocal S.act d v, rfl⟩ fun s _ =>
        arrives_setLocal S.places hb.1 hoff hc.2.one v s
    | .field id, ⟨f, hf, _⟩ =>
      exact follows_unchanged S
        (follows_setOwnField hval (S.field hf) he hc.2.one fun _ => .inl rfl)
  | .member base span name b true u => exact hasg.elim
  | .member base span name b false u =>
    obtain ⟨-, id, f, rfl, hf, -, hbase⟩ := hlhs
    obtain ⟨e, he⟩ := S.exists_fieldEntity hf
    have hfld := S.field hf
    simp only [ofAssign, S.isStatic_field hf, Code.Env.withEntity, he] at hc ⊢
    rw [Semantics.stmt]
    show Follows X top _ (setMember X.package id (Semantics.ref X.package n S.act base)
      (Semantics.expr X.package n S.act rhs) >>= fun _ => pure S.act) _ _
    split at hc
    · rename_i hdir
      rw [if_pos hdir, size_append, ← Nat.add_assoc]
      rw [codeAt_append] at hc
      refine follows_unchanged S
        (follows_setOwnField (h.expr S hrhs hc.1 hemp) hfld he hc.2.one fun hf => ?_)
      rw [hf, Bool.false_or] at hdir
      exact ref_of_isDirect hdir n S.act
    · rename_i hdir
      rw [if_neg hdir]
      simp only [Bool.or_eq_true, not_or, Bool.not_eq_true] at hdir
      obtain ⟨n', -, hbase⟩ := hbase.resolve_left (by simp [hdir.1])
      obtain ⟨k, -, haddr, hk⟩ := exists_fieldAt X.typed hfld hdir.1 he
      simp only [codeAt_append, size_append, ← Nat.add_assoc, size_literal, size_prim,
        haddr] at hc ⊢
      obtain ⟨⟨⟨hobj, hlit⟩, hval⟩, hp⟩ := hc
      refine follows_unchanged S ?_
      rw [setMember, hfld]
      refine Follows.ite (fun hstat => by simp [hdir.1] at hstat) fun _ => ?_
      refine (h.ref S hbase hobj hemp).bind fun o _ => ?_
      refine Follows.before ((h.expr S hrhs hval ?_).bind fun v _ =>
        (performs_setField hp.prim hk o v).follows (Nat.zero_le _)) fun s hsize =>
          (grows_low hlit.one).arrives ?_
      · simp only [length_cons, length_nil]
        omega
      · exact S.view.room [.val o] 1 (by rw [length_singleton]; omega) hsize
  | .elem base index _ =>
    simp only [Ref.Typed] at hlhs
    simp only [ofAssign, codeAt_append, size_append, ← Nat.add_assoc, size_prim] at hc ⊢
    obtain ⟨⟨⟨hbase, hidx⟩, hval⟩, hp⟩ := hc
    refine (h.ref S hlhs.2.1 hbase hemp).bind fun o _ => ?_
    refine (h.expr S hlhs.2.2 hidx (by rw [length_singleton]; omega)).bind fun i _ => ?_
    refine (h.expr S hrhs hval (by simp only [length_cons, length_nil]; omega)).bind
      fun v _ => ?_
    exact follows_unchanged S ((performs_setElement hp.prim o i v).follows (Nat.zero_le _))

/-! ### Statements -/

theorem follows_condition (h : Simulates X n) {cond : Expr}
    (hcond : cond.Typed S.site S.vars .boolean)
    (htest : X.CodeAt pc (ofExpr S.env S.frame pc cond)) {target : Nat}
    (hjump : X.CodeAt (pc + (ofExpr S.env S.frame pc cond).size)
      (.one line .jumpif Machine.falseWord .cb target))
    (htgt : target < X.assembly.program.size) (hroom : S.view.depth + need n ≤ top) {α : Type}
    {f : Bool → Eval α} {φ : α → Prop} {C : α → Store → Config}
    (hf : ∀ b, Follows X top (S.view.config
      (if b then pc + (ofExpr S.env S.frame pc cond).size + 1 else target) []) (f b) φ C) :
    Follows X top (S.view.config pc [])
      (Semantics.expr X.package n S.act cond >>= fun v => truth v >>= f) φ C := by
  refine (h.expr S hcond htest (by rw [length_nil]; omega)).bind fun v _ => ?_
  exact (follows_truth hjump.one htgt v).bind fun b _ => hf b

theorem follows_branch (h : Simulates X n) {s : Stmt} (hfits : S.frame.Fits S.vars)
    (hs : s.Typed S.site S.vars) (hdecl : s.declared = [])
    (hcode : X.CodeAt pc (ofStmt S.env S.frame pc s).1) (hroom : S.view.depth + need n ≤ top) :
    Follows X top (S.view.config pc []) (Semantics.stmt X.package n S.act s)
      (fun act => act.locals.map (·.1) = S.vars ∧ act.params.length = S.act.params.length)
      fun act => (X.view S.caller act).config (pc + (ofStmt S.env S.frame pc s).1.size) [] := by
  have hrun := h.stmt S hfits hs hcode hroom
  rwa [hdecl, append_nil] at hrun

theorem stmt_succ (h : Simulates X n) {s : Stmt} (hf : S.frame.Fits S.vars)
    (hs : s.Typed S.site S.vars) (hcode : X.CodeAt pc (ofStmt S.env S.frame pc s).1)
    (hroom : S.view.depth + need (n + 1) ≤ top) :
    Follows X top (S.view.config pc []) (Semantics.stmt X.package (n + 1) S.act s)
      (fun act => act.locals.map (·.1) = S.vars ++ s.declared ∧
        act.params.length = S.act.params.length)
      fun act => (X.view S.caller act).config (pc + (ofStmt S.env S.frame pc s).1.size) [] := by
  have hneed := need_succ n
  match s with
  | .block span body =>
    have haft := (fits_ofStmts S.env hf body hs pc).offset
    simp only [ofStmt, codeAt_append, size_append, ← Nat.add_assoc] at hcode ⊢
    refine (h.stmts S hf hs hcode.1 (by omega)).bind fun act hact => ?_
    have hlen : act.locals.length = S.vars.length + (body.flatMap (·.declared)).length := by
      rw [← length_append, ← hact.1, length_map]
    have hv : S.vars.length = S.act.locals.length := length_map _
    have hoff := hf.offset
    refine follows_pure ⟨?_, hact.2.1⟩ fun s _ => arrives_leave hcode.2 ?_ s
    · rw [map_take, hact.1, ← hv, take_left]
      exact (append_nil _).symm
    · rw [length_append] at haft
      have haft : (ofStmts S.env S.frame pc body).2.offset = _ := haft
      omega
  | .decl d init =>
    have hfr := (hf.declare hs.1 hs.2.1).places.left
    refine (h.expr (S.next S.act _ hfr rfl) hs.2.2 hcode ?_).bind fun v _ => ?_
    · rw [length_nil]
      show 0 + S.view.depth + need n ≤ top
      omega
    refine follows_pure ⟨by simp [Scene.vars, declared], rfl⟩ fun s _ => ?_
    rw [config_declare]
    exact .refl _
  | .assign lhs rhs =>
    obtain ⟨hasg, t, hlhs, hrhs⟩ := hs
    simp only [ofStmt, declared, append_nil] at hcode ⊢
    exact assign_succ S h hasg hlhs hrhs hcode hroom
  | .call c =>
    obtain ⟨t, hc⟩ := hs
    simp only [ofStmt, codeAt_append, size_append, ← Nat.add_assoc, hc.type_eq,
      declared, append_nil] at hcode ⊢
    refine (h.call S hc hcode.1 (by rw [length_nil]; omega)).bind fun r hr => ?_
    exact follows_pure ⟨rfl, rfl⟩ fun s _ =>
      arrives_popWords hcode.2 ((length_append).trans (by simpa using hr))
  | .ifThen span cond body =>
    obtain ⟨hcond, hdecl, hb⟩ := hs
    simp only [ofStmt, codeAt_append, size_append, ← Nat.add_assoc, size_one,
      declared, append_nil] at hcode ⊢
    obtain ⟨⟨ht, hj⟩, hcode⟩ := hcode
    refine follows_condition S h hcond ht hj hcode.lt (by omega) fun b => ?_
    cases b with
    | true => exact follows_branch S h hf hb hdecl hcode (by omega)
    | false => exact follows_pure ⟨rfl, rfl⟩ fun s _ => .refl _
  | .ifElse span cond body other =>
    obtain ⟨hcond, ⟨hdecl, hb⟩, hdecl', hoth⟩ := hs
    simp only [ofStmt, codeAt_append, size_append, ← Nat.add_assoc, size_one,
      declared, append_nil] at hcode ⊢
    obtain ⟨⟨⟨⟨ht, hj⟩, hcode⟩, hskip⟩, hcode'⟩ := hcode
    have hmid := fits_ofStmt S.env hf body hb
      (pc + (ofExpr S.env S.frame pc cond).size + 1)
    rw [hdecl, append_nil] at hmid
    refine follows_condition S h hcond ht hj hskip.lt (by omega) fun b => ?_
    cases b with
    | true =>
      refine (follows_branch S h hf hb hdecl hcode (by omega)).after (fun _ => id) ?_
      exact fun act s _ _ => (steps_jump hskip.one hcode'.lt).arrives
    | false =>
      exact follows_branch (S.next S.act _ hmid.places rfl) h hmid hoth hdecl' hcode'
        (Nat.le_trans (Nat.add_le_add_left (by omega) _) hroom)
  | .loop span cond body =>
    have hloop := hs
    obtain ⟨hcond, hdecl, hb⟩ := hs
    have hwhol := hcode
    have hexit : pc + (ofStmt S.env S.frame pc (.loop span cond body)).1.size =
        pc + (ofExpr S.env S.frame pc cond).size + 1 + (ofStmt S.env S.frame
          (pc + (ofExpr S.env S.frame pc cond).size + 1) body).1.size + 1 := by
      simp only [ofStmt, size_append, ← Nat.add_assoc, size_one]
    simp only [ofStmt, codeAt_append, size_append, ← Nat.add_assoc, size_one,
      declared, append_nil] at hcode ⊢
    obtain ⟨⟨⟨ht, hj⟩, hcode⟩, hback⟩ := hcode
    have hlt : pc < X.assembly.program.size := Nat.lt_of_le_of_lt (Nat.le_add_right _ _) ht.lt
    refine follows_condition S h hcond ht hj hback.lt (by omega) fun b => ?_
    cases b with
    | true =>
      refine Follows.bind ((follows_branch S h hf hb hdecl hcode (by omega)).after
        (fun _ => id) fun act s _ _ => (steps_jump hback.one hlt).arrives) fun act hact => ?_
      -- The loop starts again with the variables that its body left.
      have hpls : S.frame.Places (act.locals.map (·.1)) := hact.1 ▸ S.places
      have hv : (S.next act S.frame hpls hact.2).vars = S.vars := hact.1
      have hdep : (X.view S.caller act).depth ≤ S.view.depth + 0 := by
        refine depth_le (Nat.le_of_eq ?_) hact.2
        simpa [Scene.vars] using congrArg List.length hact.1
      refine (follows_branch (S.next act S.frame hpls hact.2) h (hv.symm ▸ hf)
        (hv.symm ▸ hloop) rfl hwhol ?_).after ?_ ?_
      · show (X.view S.caller act).depth + need n ≤ top
        omega
      · exact fun act' hact' => ⟨hact'.1.trans hv, hact'.2.trans hact.2⟩
      · intro act' s _ _
        rw [← hexit]
        exact .refl _
    | false => exact follows_pure ⟨rfl, rfl⟩ fun s _ => .refl _

theorem length_declared (s : Stmt) : s.declared.length ≤ 1 := by
  cases s <;> simp [declared]

theorem length_flatMap_declared (ss : List Stmt) :
    (ss.flatMap (·.declared)).length ≤ ss.length := by
  induction ss with
  | nil => exact Nat.le_refl _
  | cons s ss ih =>
    have hone := length_declared s
    rw [flatMap_cons, length_append, length_cons]
    omega

theorem stmts_succ (h : Simulates X n) (hf : S.frame.Fits S.vars)
    (hss : Stmt.TypedList S.site S.vars ss) (hc : X.CodeAt pc (ofStmts S.env S.frame pc ss).1)
    (hroom : S.view.depth + need (n + 1) ≤ top) :
    Follows X top (S.view.config pc []) (Semantics.stmts X.package (n + 1) S.act ss)
      (fun act => act.locals.map (·.1) = S.vars ++ ss.flatMap (·.declared) ∧
        act.params.length = S.act.params.length ∧ ss.length ≤ n + 1)
      fun act => (X.view S.caller act).config (pc + (ofStmts S.env S.frame pc ss).1.size) [] := by
  have hneed := need_succ n
  match ss with
  | [] => exact follows_pure ⟨(append_nil _).symm, rfl, Nat.zero_le _⟩ fun s _ => .refl _
  | s :: ss =>
    simp only [ofStmts, codeAt_append, size_append, ← Nat.add_assoc] at hc ⊢
    have haft := fits_ofStmt S.env hf s hss.1 pc
    refine (h.stmt S hf hss.1 hc.1 (by omega)).bind fun act hact => ?_
    have hpls : (ofStmt S.env S.frame pc s).2.Places (act.locals.map (·.1)) :=
      hact.1 ▸ haft.places
    have hv : (S.next act _ hpls hact.2).vars = S.vars ++ s.declared := hact.1
    have hdep : (X.view S.caller act).depth ≤ S.view.depth + 1 := by
      refine depth_le ?_ hact.2
      have hlen := congrArg List.length hact.1
      have hone := length_declared s
      simp only [length_map, length_append, Scene.vars] at hlen
      omega
    refine (h.stmts (S.next act _ hpls hact.2) (hv.symm ▸ haft) (hv.symm ▸ hss.2)
      hc.2 ?_).after ?_ fun _ _ _ _ => .refl _
    · show (X.view S.caller act).depth + need n ≤ top
      omega
    · rintro act' ⟨hnms, hpar, hlen⟩
      refine ⟨?_, hpar.trans hact.2, Nat.succ_le_succ hlen⟩
      rw [hnms, hv, flatMap_cons, append_assoc]

/-! ### Methods -/

theorem invoke_succ (h : Simulates X n) {F : Caller} {id : MemberId} {b : Code.Body}
    {this : Value} {us : List Value} (hm : X.package.method? id = some m)
    (hb : X.assembly.body? id = some b) (hus : us.length = m.params.length)
    (hn : F.next < X.assembly.program.size)
    (hroom : (X.view F ⟨this, us, []⟩).depth + need (n + 1) ≤ top) :
    Follows X top ((X.view F ⟨this, us, []⟩).config b.addr [])
      (Semantics.invoke X.package (n + 1) m this us) (fun r => r.toList.length = m.type.size)
      fun r => X.returned F r := by
  have hneed := need_succ n
  obtain ⟨b', hb', rfl, hcode⟩ := Assembly.exists_body X.dynamic X.entry hm
  cases hb.symm.trans hb'
  let S := Scene.start X F b.decl id.cls this hus
  have hdep : S.view.depth + need n ≤ top := Nat.le_trans (Nat.add_le_add_left (by omega) _) hroom
  have hbody := X.codeAt_body hb
  rw [show b.code = _ from congrArg Prod.fst hcode] at hbody
  obtain ⟨htyp, hres⟩ := X.typed.methods id b.decl hm
  have hf := Code.Frame.fits_start
  have haft := fits_ofStmts S.env hf b.decl.body htyp b.addr
  have hpar := Layout.paramWords_eq X.typed hm
  simp only [ofMethod, hpar] at hbody
  rw [Semantics.invoke]
  cases hr : b.decl.result with
  | none =>
    rw [hr] at hres
    simp only [hr, codeAt_append, size_append, size_empty, Nat.add_zero] at hbody
    refine (h.stmts S hf htyp hbody.1.1 hdep).bind fun act hact => ?_
    refine follows_pure (by rw [hres]; rfl) fun s _ => ?_
    exact arrives_returned (r := none) s hbody.2.one rfl (congrArg Nat.cast (hact.2.1.trans hus).symm)
      hn
  | some e =>
    rw [hr] at hres
    simp only [hr, codeAt_append, size_append, ← Nat.add_assoc] at hbody
    refine (h.stmts S hf htyp hbody.1.1 hdep).bind fun act hact => ?_
    have hpls : (ofStmts S.env .start b.addr b.decl.body).2.Places (act.locals.map (·.1)) :=
      hact.1 ▸ haft.places
    have hv : (S.next act _ hpls hact.2.1).vars = b.decl.body.flatMap (·.declared) := hact.1
    have hdep : (X.view F act).depth ≤ (X.view F ⟨this, us, []⟩).depth + n := by
      refine depth_le ?_ hact.2.1
      have hlen := congrArg List.length hv
      have hle := length_flatMap_declared b.decl.body
      simp only [Scene.vars, Scene.next, length_map] at hlen
      exact Nat.le_trans (hlen ▸ hle) (Nat.le_trans hact.2.2 (Nat.le_add_left _ _))
    refine (h.expr (S.next act _ hpls hact.2.1) (hv.symm ▸ hres.2) hbody.1.2 ?_).bind
      fun v _ => ?_
    · show 0 + (X.view F act).depth + need n ≤ top
      omega
    have hs : b.decl.type.size = 1 := hres.1.size
    rw [hs] at hbody
    refine follows_pure hs.symm fun s _ => ?_
    exact arrives_returned (r := some v) s hbody.2.one rfl (congrArg Nat.cast (hact.2.1.trans hus).symm)
      hn

theorem zero : Simulates X 0 where
  ref _ _ _ _ _ _ _ _ _ := follows_throw ⟨rfl, nofun⟩
  expr _ _ _ _ _ _ _ _ _ := follows_throw ⟨rfl, nofun⟩
  args _ _ _ _ _ _ _ _ _ := follows_throw ⟨rfl, nofun⟩
  receiver _ _ _ _ _ _ _ _ _ _ _ _ := follows_throw ⟨rfl, nofun⟩
  call _ _ _ _ _ _ _ _ _ := follows_throw ⟨rfl, nofun⟩
  invoke _ _ _ _ _ := follows_throw ⟨rfl, nofun⟩
  stmt _ _ _ _ _ _ _ _ := follows_throw ⟨rfl, nofun⟩
  stmts _ _ _ _ _ _ _ _ := follows_throw ⟨rfl, nofun⟩

theorem succ (h : Simulates X n) (hlim : X.limit = none) : Simulates X (n + 1) where
  ref S := ref_succ S h
  expr S := expr_succ S h
  args S := args_succ S h
  receiver S := receiver_succ S h
  call S := call_succ S h hlim
  invoke := invoke_succ h
  stmt S _ hf hs _ _ := stmt_succ S h hf hs
  stmts S _ hf hss _ _ := stmts_succ S h hf hss

end Simulates

theorem simulates (hlim : X.limit = none) (n : Nat) : Simulates X n := by
  induction n with
  | zero => exact .zero
  | succ n ih => exact ih.succ hlim

end Simulation

end MiniJam
