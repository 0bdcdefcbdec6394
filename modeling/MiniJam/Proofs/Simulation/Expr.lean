import MiniJam.Proofs.Simulation.Scene

/-!
# The code of expressions follows their evaluation

A machine that comes to the code of an expression follows the evaluation of the expression and
leaves its value on the stack.  The proof is by induction on the depth of the evaluation:
`Simulates X n` says this of everything that is evaluated to a depth of `n`, also of statements, since
a call runs those of a method.
-/

namespace MiniJam

open List Option Code

namespace Simulation

open Semantics
open Target (codeAt_append)

/-- The words of the stack that an evaluation to a depth may need. -/
def need (n : Nat) : Nat := n * (n + 4)

theorem need_succ (n : Nat) : need (n + 1) = need n + 2 * n + 5 := by
  simp only [need, Nat.mul_add, Nat.add_mul]
  omega

variable {X : Target}

/-- The machine follows a part of a run with code that depends on its address.  The code changes the
stack as `push` says, and needs as much room as an evaluation to a depth of `n`. -/
def Scene.Runs {α : Type} (S : Scene X) (n : Nat) (code : Nat → Code) (x : Eval α) (φ : α → Prop)
    (push : α → List Cell → List Cell) : Prop :=
  ∀ {top pc : Nat} {ts : List Cell}, X.CodeAt pc (code pc) →
    ts.length + S.view.depth + need n ≤ top →
    Follows X top (S.view.config pc ts) x φ fun a => S.view.config (pc + (code pc).size) (push a ts)

/-- The machine follows everything that is evaluated to a depth of `n`. -/
structure Simulates (X : Target) (n : Nat) : Prop where
  ref : ∀ (S : Scene X) {r : Ref} {t : Ty}, r.Typed S.site S.vars t →
    S.Runs n (ofRef S.env S.frame · r) (Semantics.ref X.package n S.act r) (fun _ => True)
      fun v ts => .val v :: ts
  expr : ∀ (S : Scene X) {e : Expr} {t : Ty}, e.Typed S.site S.vars t →
    S.Runs n (ofExpr S.env S.frame · e) (Semantics.expr X.package n S.act e) (fun _ => True)
      fun v ts => .val v :: ts
  args : ∀ (S : Scene X) {es : List Expr} {ts : List Ty}, Expr.TypedList S.site S.vars es ts →
    S.Runs n (ofArgsBackward S.env S.frame · es) (Semantics.args X.package n S.act es)
      (fun us => us.length = ts.length ∧ us.length ≤ n) fun us ts => us.map .val ++ ts
  receiver : ∀ (S : Scene X) {method : Ref} {id : MemberId} {π : Profile} {line : Int},
    method.Calls S.site S.vars id π → π.isStatic = false →
    S.Runs n (ofReceiver S.env S.frame · line method)
      (Semantics.receiver X.package n S.act method) (fun _ => True) fun v ts => .val v :: ts
  call : ∀ (S : Scene X) {c : Call} {t : Ty}, c.Typed S.site S.vars t →
    S.Runs n (ofCall S.env S.frame · c) (Semantics.call X.package n S.act c)
      (fun r => r.toList.length = t.size) fun r ts => r.toList.map .val ++ ts
  invoke : ∀ {top : Nat} {F : Caller} {id : MemberId} {m : MethodDecl} {b : Code.Body}
    {this : Value} {us : List Value}, X.package.method? id = some m →
    X.assembly.body? id = some b → us.length = m.params.length →
    F.next < X.assembly.program.size →
    (X.view F ⟨this, us, []⟩).depth + need n ≤ top →
    Follows X top ((X.view F ⟨this, us, []⟩).config b.addr [])
      (Semantics.invoke X.package n m this us) (fun r => r.toList.length = m.type.size)
      fun r => X.returned F r
  stmt : ∀ (S : Scene X) {s : Stmt}, S.frame.Fits S.vars → s.Typed S.site S.vars →
    ∀ {top pc : Nat}, X.CodeAt pc (ofStmt S.env S.frame pc s).1 →
    S.view.depth + need n ≤ top →
    Follows X top (S.view.config pc []) (Semantics.stmt X.package n S.act s)
      (fun act => act.locals.map (·.1) = S.vars ++ s.declared ∧
        act.params.length = S.act.params.length)
      fun act => (X.view S.caller act).config (pc + (ofStmt S.env S.frame pc s).1.size) []
  stmts : ∀ (S : Scene X) {ss : List Stmt}, S.frame.Fits S.vars → Stmt.TypedList S.site S.vars ss →
    ∀ {top pc : Nat}, X.CodeAt pc (ofStmts S.env S.frame pc ss).1 →
    S.view.depth + need n ≤ top →
    Follows X top (S.view.config pc []) (Semantics.stmts X.package n S.act ss)
      (fun act => act.locals.map (·.1) = S.vars ++ ss.flatMap (·.declared) ∧
        act.params.length = S.act.params.length ∧ ss.length ≤ n)
      fun act => (X.view S.caller act).config (pc + (ofStmts S.env S.frame pc ss).1.size) []

namespace Simulates

variable {n : Nat} (S : Scene X)

theorem ofRef_id {span : Span} {name : String} {b : Binding} {e : Entity}
    (he : S.env.entity? S.frame b = some e) (pc : Nat) :
    ofRef S.env S.frame pc (.id span name (some b) t) =
      .one span.line .load e.size e.base e.addr := by
  simp [ofRef, Code.Env.withEntity, he]

theorem ref_of_isDirect {base : Ref} {span : Span} {name : String} {b : Option Binding}
    (hdir : isDirect (.member base span name b isLength t) = true) (n : Nat) (act : Activation) :
    Semantics.ref X.package n act base = pure act.this ∨
      Semantics.ref X.package n act base = throw .outOfFuel := by
  cases base with
  | this =>
    cases n with
    | zero => exact .inr (by rw [Semantics.ref])
    | succ n => exact .inl (by rw [Semantics.ref])
  | id | member | elem => cases hdir

theorem decides_eq {op : Operator} (hop : decidingWord? op = none) (x : Value) :
    decides op x = pure false := by
  cases op with
  | and | or => cases hop
  | not | eq | ne | lt | le | gt | ge | plus | minus | mul | div => cases x <;> rfl

variable (h : Simulates X n)
include h

theorem ref_succ {r : Ref} (hr : r.Typed S.site S.vars t) :
    S.Runs (n + 1) (ofRef S.env S.frame · r) (Semantics.ref X.package (n + 1) S.act r)
      (fun _ => True) fun v ts => .val v :: ts := by
  intro top pc ts hc hroom
  have hneed := need_succ n
  have hp : ts.length + S.view.depth + 1 ≤ top := by omega
  dsimp only at hc ⊢
  match r with
  | .this .. => exact follows_this hc.one hp
  | .id span _ b _ =>
    obtain ⟨-, b, rfl, hb⟩ := hr
    obtain ⟨e, he⟩ := exists_varEntity S.at_site S.places hb
    rw [ofRef_id S he] at hc ⊢
    match b, hb with
    | .param i, _ =>
      obtain ⟨d, -, rfl⟩ := map_eq_some_iff.1 he
      exact follows_param hc.one hp
    | .var d, hb =>
      obtain ⟨offset, hoff, rfl⟩ := map_eq_some_iff.1 he
      exact follows_local S.places hb.1 hoff hc.one hp
    | .field id, ⟨f, hf, _⟩ => exact follows_ownField (S.field hf) he hc.one (fun _ => .inl rfl) hp
  | .member base span name b true u =>
    obtain ⟨-, -, elem, hbase⟩ := hr
    simp only [ofRef, ↓reduceIte, codeAt_append, size_append, ← Nat.add_assoc,
      size_one, size_literal, size_prim] at hc ⊢
    obtain ⟨⟨⟨hobj, hlit⟩, hsub⟩, hload⟩ := hc
    refine (h.ref S hbase hobj (by omega)).bind fun o _ => ?_
    exact follows_length hlit.one hsub.prim hload.one (by omega) o
  | .member base span name b false u =>
    obtain ⟨-, id, f, rfl, hf, -, hbase⟩ := hr
    obtain ⟨e, he⟩ := S.exists_fieldEntity hf
    have hfld := S.field hf
    simp only [ofRef, Bool.false_eq_true, ↓reduceIte, Code.Env.withEntity, he,
      S.isStatic_field hf] at hc ⊢
    split at hc
    · rename_i hdir
      rw [if_pos hdir]
      refine follows_ownField hfld he hc.one (fun hf => ?_) hp
      rw [hf, Bool.false_or] at hdir
      exact ref_of_isDirect hdir n S.act
    · rename_i hdir
      rw [if_neg hdir]
      simp only [Bool.or_eq_true, not_or, Bool.not_eq_true] at hdir
      obtain ⟨n', -, hbase⟩ := hbase.resolve_left (by simp [hdir.1])
      obtain ⟨k, -, haddr, hk⟩ := exists_fieldAt X.typed hfld hdir.1 he
      simp only [codeAt_append, size_append, ← Nat.add_assoc, size_literal, size_prim,
        haddr] at hc ⊢
      obtain ⟨⟨hobj, hlit⟩, hfiel⟩ := hc
      show Follows X top _ (member X.package id (Semantics.ref X.package n S.act base)) _ _
      rw [member, hfld]
      refine Follows.ite (fun hstat => by simp [hdir.1] at hstat) fun _ => ?_
      refine (h.ref S hbase hobj (by omega)).bind fun o _ => ?_
      refine ((performs_field hfiel.prim hk o).follows (Nat.zero_le _)).before fun s hsize => ?_
      refine (grows_low hlit.one).arrives (S.view.room (.val o :: ts) 1 ?_ hsize)
      rw [length_cons]
      omega
  | .elem base index _ =>
    simp only [Ref.Typed] at hr
    simp only [ofRef, codeAt_append, size_append, ← Nat.add_assoc, size_prim] at hc ⊢
    obtain ⟨⟨hbase, hidx⟩, helem⟩ := hc
    refine (h.ref S hr.2.1 hbase (by omega)).bind fun o _ => ?_
    refine (h.expr S hr.2.2 hidx (by rw [length_cons]; omega)).bind fun i _ => ?_
    exact (performs_element helem.prim o i).follows (Nat.zero_le _)

theorem expr_succ {e : Expr} (he : e.Typed S.site S.vars t) :
    S.Runs (n + 1) (ofExpr S.env S.frame · e) (Semantics.expr X.package (n + 1) S.act e)
      (fun _ => True) fun v ts => .val v :: ts := by
  intro top pc ts hcode hroom
  have hneed := need_succ n
  have hpush : ts.length + S.view.depth + 1 ≤ top := by omega
  dsimp only at hcode ⊢
  match e with
  | .ref r => exact h.ref S he hcode (by omega)
  | .int span spelling _ =>
    have hle : (Text.natOfDigits spelling.toList : Int) ≤ maxWord := by
      simpa [Typing.fitsWord] using he.2.2
    simp only [ofExpr, ofInt, hle, ↓reduceIte] at hcode ⊢
    refine follows_literal hcode.one (fun heap => ⟨trivial, ?_⟩) hpush
    exact Machine.toInt_ofInt_of_mem ⟨by simp only [minWord]; omega, hle⟩
  | .bool _ value _ =>
    exact follows_literal hcode.one (fun heap => ⟨trivial, by cases value <;> rfl⟩) hpush
  | .unary _ op operand _ =>
    simp only [ofExpr, codeAt_append, size_append, ← Nat.add_assoc, size_prim] at hcode ⊢
    refine (h.expr S he.2.2 hcode.1 (by omega)).bind fun v _ => ?_
    exact (performs_unary hcode.2.prim v).follows (Nat.zero_le _)
  | .binary op lhs rhs _ =>
    obtain ⟨-, u, hlhs, hrhs, hop⟩ := he
    obtain ⟨q, hq⟩ := exists_binaryPrim hop
    simp only [ofExpr, hq] at hcode ⊢
    rw [Semantics.expr]
    cases hw : decidingWord? op with
    | none =>
      simp only [hw, codeAt_append, size_append, ← Nat.add_assoc, size_prim] at hcode ⊢
      obtain ⟨⟨hl, hrt⟩, hp⟩ := hcode
      refine (h.expr S hlhs hl (by omega)).bind fun x _ => ?_
      rw [decides_eq hw]
      refine (h.expr S hrhs hrt (by rw [length_cons]; omega)).bind fun y _ => ?_
      exact (performs_binary hq hp.prim x y).follows (Nat.zero_le _)
    | some word =>
      simp only [hw, codeAt_append, size_append, ← Nat.add_assoc, size_prim,
        size_one] at hcode ⊢
      obtain ⟨⟨⟨⟨hl, hcopy⟩, hjump⟩, hrt⟩, hp⟩ := hcode
      refine (h.expr S hlhs hl (by omega)).bind fun x _ => ?_
      refine (follows_decides hw hcopy.one hjump.one hp.lt (by omega) x).bind fun b _ => ?_
      cases b with
      | true => exact follows_pure trivial fun s _ => .refl _
      | false =>
        refine (h.expr S hrhs hrt (by rw [length_cons]; omega)).bind fun y _ => ?_
        exact (performs_binary hq hp.prim x y).follows (Nat.zero_le _)
  | .newObject _ cls bound _ =>
    obtain ⟨-, -, i, rfl, hi⟩ := he
    rw [S.at_site.sig] at hi
    obtain ⟨c, hc, -⟩ := map_eq_some_iff.1 hi
    have hent : Layout.classEntity? S.env.package i = some
        ⟨Layout.instanceWords c, Layout.descriptorAddr X.package i, .sb, none, none⟩ :=
      congrArg (Option.map _) hc
    simp only [ofExpr, bind_some, hent] at hcode ⊢
    rw [Semantics.expr]
    have hdesc := X.descriptorAddr_le i
    have hgrou := S.groundWords_le
    exact follows_newObject hcode.left.left.one hcode.left.right.one hcode.right.prim (by omega)
      (length_values X.typed hc) (by omega)
  | .newArray _ elem size _ =>
    simp only [Expr.Typed] at he
    simp only [ofExpr, codeAt_append, size_append, ← Nat.add_assoc, size_prim] at hcode ⊢
    refine (h.expr S he.2.2.2 hcode.1 (by omega)).bind fun v _ => ?_
    exact (performs_newArray hcode.2.prim elem v).follows hpush
  | .call c =>
    rw [ofExpr] at hcode ⊢
    refine (h.call S he hcode (by omega)).bind fun r _ => ?_
    cases r with
    | none => exact follows_throw ⟨rfl, fun h => by cases h⟩
    | some v => exact follows_pure trivial fun s _ => .refl _

theorem args_succ (hes : Expr.TypedList S.site S.vars es us) :
    S.Runs (n + 1) (ofArgsBackward S.env S.frame · es) (Semantics.args X.package (n + 1) S.act es)
      (fun vs => vs.length = us.length ∧ vs.length ≤ n + 1) fun vs ts => vs.map .val ++ ts := by
  intro top pc ts hc hroom
  have hneed := need_succ n
  match es with
  | [] =>
    obtain rfl : us = [] := hes
    exact follows_pure ⟨rfl, Nat.zero_le _⟩ fun s _ => .refl _
  | e :: es =>
    obtain ⟨u, us, rfl, he, hes⟩ := hes
    simp only [ofArgsBackward, codeAt_append, size_append, ← Nat.add_assoc] at hc ⊢
    refine (h.args S hes hc.1 (by omega)).bind fun vs hvs => ?_
    refine (h.expr S he hc.2 (by simp only [length_append, length_map]; omega)).bind
      fun v _ => ?_
    refine follows_pure ?_ fun s _ => .refl _
    simp only [length_cons]
    omega

theorem receiver_succ {method : Ref} {id : MemberId} {line : Int}
    (hmeth : method.Calls S.site S.vars id π) (hπ : π.isStatic = false) :
    S.Runs (n + 1) (ofReceiver S.env S.frame · line method)
      (Semantics.receiver X.package (n + 1) S.act method) (fun _ => True)
      fun v ts => .val v :: ts := by
  intro top pc ts hc hroom
  have hneed := need_succ n
  have hp : ts.length + S.view.depth + 1 ≤ top := by omega
  match method with
  | .id .. => exact follows_this hc.one hp
  | .member base span name b isLength t =>
    simp only [ofReceiver] at hc ⊢
    rw [Semantics.receiver]
    split at hc
    · rename_i hdir
      rw [if_pos hdir]
      obtain ht | ht := ref_of_isDirect hdir n S.act
      · rw [ht]
        exact follows_this hc.one hp
      · rw [ht]
        exact follows_throw ⟨rfl, nofun⟩
    · rename_i hdir
      rw [if_neg hdir]
      obtain ⟨name, -, hbase⟩ := hmeth.resolve_left (by simp [hπ])
      exact h.ref S hbase hc (by omega)

/-! ### Calls -/

theorem follows_println (hlim : X.limit = none) {args : List Expr}
    (ha : Expr.TypedList S.site S.vars args [.int]) {ts : List Cell} {line : Int}
    (hc : X.CodeAt pc (ofArgs S.env S.frame pc args ++ .prim line .putintnl))
    (hroom : ts.length + S.view.depth + need n ≤ top) :
    Follows X top (S.view.config pc ts) (Semantics.args X.package n S.act args >>= Semantics.print)
      (fun r => r.toList.length = 0)
      fun r => S.view.config (pc + (ofArgs S.env S.frame pc args ++ .prim line .putintnl).size)
        (r.toList.map .val ++ ts) := by
  rw [ofArgs_of_length_eq_one (length_of_typedList ha)] at hc ⊢
  rw [codeAt_append] at hc
  rw [size_append, size_prim, ← Nat.add_assoc]
  refine (h.args S ha hc.1 hroom).bind fun us _ => ?_
  refine (follows_print hlim hc.2.prim us).after (fun r hr => hr ▸ rfl) fun r s hr _ => ?_
  subst hr
  exact .refl _

theorem follows_invocation {id : MemberId} {b : Code.Body}
    (hm : X.package.method? id = some b.decl) (hb : X.assembly.body? id = some b) {method : Ref}
    (hmeth : method.Calls S.site S.vars id b.decl.profile) {us : List Value}
    (hus : us.length = b.decl.params.length) (hle : us.length ≤ n) {ts : List Cell}
    {span : Span} (hcode : X.CodeAt pc (ofInvocation S.env span id b.decl
      (ofReceiver S.env S.frame pc span.line method)))
    (hr : ts.length + S.view.depth + need (n + 1) ≤ top) :
    Follows X top (S.view.config pc (us.map .val ++ ts))
      (if b.decl.isStatic then Semantics.invoke X.package n b.decl .null us
        else do
          let o ← Semantics.receiver X.package n S.act method
          let _ ← object id.cls o
          Semantics.invoke X.package n b.decl o us)
      (fun r => r.toList.length = b.decl.type.size)
      fun r => S.view.config (pc + (ofInvocation S.env span id b.decl
        (ofReceiver S.env S.frame pc span.line method)).size) (r.toList.map .val ++ ts) := by
  have hneed := need_succ n
  have hcall : us.length + ts.length + S.view.depth + 3 ≤ top := by omega
  have ha : (us.map Cell.val ++ ts).length + S.view.depth + need n ≤ top := by
    rw [length_append, length_map]
    omega
  have hinv : ∀ (o : Value) {cp : Nat}, cp + 1 < X.assembly.program.size →
      Follows X top ((X.view (S.asCaller ts cp) ⟨o, us, []⟩).config b.addr [])
        (Semantics.invoke X.package n b.decl o us) (fun r => r.toList.length = b.decl.type.size)
        fun r => S.view.config (cp + 1) (r.toList.map .val ++ ts) := by
    intro o cp hcp
    have hr : (X.view (S.asCaller ts cp) ⟨o, us, []⟩).depth + need n ≤ top := by
      rw [S.depth_asCaller]
      omega
    have hfol := h.invoke hm hb hus hcp hr
    simpa only [S.returned_asCaller] using hfol
  unfold ofInvocation at hcode ⊢
  refine Follows.ite (fun hstat => ?_) fun hstat => ?_
  · rw [if_pos hstat] at hcode ⊢
    exact (hinv .null hcode.lt).before fun s hs =>
      Scene.arrives_called (grows_static (hcode.callOf hb) hb S.lb_le _) hcall hs
  · rw [if_neg hstat] at hcode ⊢
    have hstat : b.decl.isStatic = false := by simpa using hstat
    obtain ⟨c, hc, -⟩ := bind_eq_some_iff.1 hm
    have hc' : S.env.package.class? id.cls = some c := hc
    simp only [hc'] at hcode ⊢
    split at hcode
    · rename_i hdyn
      rw [if_pos hdyn]
      rw [codeAt_append] at hcode
      rw [size_append, ← Nat.add_assoc]
      refine (h.receiver S hmeth hstat hcode.1 ha).bind fun o _ s => ?_
      refine object_bind (ends_vague ⟨rfl, nofun⟩) (fun ho => ?_) fun a fields ho hobj => ?_
      · subst ho
        exact ends_null fun _ => (refused_calld hcode.2.one).meetsNull
      subst ho
      exact (hinv _ hcode.2.lt s).before fun hs =>
        Scene.arrives_called (grows_dynamic hc hcode.2.one hb hstat hobj S.lb_le) hcall hs
    · rename_i hdyn
      rw [if_neg hdyn]
      rw [codeAt_append] at hcode
      rw [size_append, ← Nat.add_assoc]
      refine (h.receiver S hmeth hstat hcode.1 ha).bind fun o _ s => ?_
      refine object_bind (ends_vague ⟨rfl, nofun⟩) (fun ho => ?_) fun a fields ho hobj => ?_
      · subst ho
        -- The call is not checked, so that the machine only comes to it.
        exact ends_null fun _ => meetsNull_of_meets fun m hm =>
          Shows.meets_call hm (hcode.2.callOf hb) rfl (.inl rfl)
      subst ho
      exact (hinv _ hcode.2.lt s).before fun hs =>
        Scene.arrives_called (grows_instance (hcode.2.callOf hb) hb S.lb_le _) hcall hs

theorem call_succ (hlim : X.limit = none) {c : Call}
    (hc : c.Typed S.site S.vars t) :
    S.Runs (n + 1) (ofCall S.env S.frame · c) (Semantics.call X.package (n + 1) S.act c)
      (fun r => r.toList.length = t.size) fun r ts => r.toList.map .val ++ ts := by
  intro top pc ts hcode hroom
  have hneed := need_succ n
  obtain ⟨method, args, close, bound, u⟩ := c
  obtain ⟨-, id, π, rfl, hπ, rfl, ha, hmeth⟩ := hc
  obtain ⟨m, hm, rfl⟩ := S.at_site.method hπ
  have hm' : S.env.package.method? id = some m := hm
  have hm : X.package.method? id = some m := hm
  obtain ⟨b, hb, rfl, -⟩ := Assembly.exists_body X.dynamic X.entry hm
  simp only [ofCall, hm'] at hcode ⊢
  refine follows_expect.bind fun id' hid => ?_
  cases hid
  refine follows_expect.bind fun m hm' => ?_
  cases hm.symm.trans hm'
  have hprn : S.env.package.println = X.package.println := rfl
  rw [hprn] at hcode ⊢
  by_cases hprt : X.package.println = some id
  · simp only [hprt, ↓reduceIte] at hcode ⊢
    obtain ⟨id', hid', hprof⟩ := X.typed.println
    cases hprt.symm.trans hid'
    have hdecl : b.decl.profile = ⟨false, [.int], .void⟩ := by
      simpa [Package.signature, hm] using hprof
    rw [hdecl] at ha ⊢
    exact follows_println S h hlim ha hcode (by omega)
  · simp only [hprt, ↓reduceIte] at hcode ⊢
    rw [codeAt_append] at hcode
    rw [size_append, ← Nat.add_assoc]
    refine (h.args S ha hcode.1 (by omega)).bind fun us hus => ?_
    refine follows_invocation S h hm hb hmeth ?_ hus.2 hcode.2 hroom
    simpa [MethodDecl.profile] using hus.1

end Simulates

end Simulation

end MiniJam
