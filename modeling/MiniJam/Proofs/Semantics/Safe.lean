import MiniJam.Proofs.Related
import MiniJam.Proofs.Semantics.Eval
import MiniJam.Proofs.Typing.Rules

/-!
# Well-typed packages do not get stuck

A run of a well-typed package in which only values are compared is never `Abort.stuck`
(`Semantics.run_safe`).  `Semantics.Safe heap x Q` says that the part `x` of a run, started in a
well-typed store whose heap extends `heap`, does not get stuck, and that if it gives a result then
with `Q` and in a well-typed store whose heap extends the one before.  What is known about values
therefore stays known.
-/

namespace MiniJam

open List Option Package

/-! ### Comparisons -/

mutual

/-- No operand of a comparison by `==` or `!=` is a call without a result. -/
def Ref.comparesValues : Ref → Bool
  | .this .. | .id .. => true
  | .member base .. => base.comparesValues
  | .elem base index _ => base.comparesValues && index.comparesValues

def Expr.comparesValues : Expr → Bool
  | .ref r => r.comparesValues
  | .int .. | .bool .. | .newObject .. => true
  | .unary _ _ operand _ => operand.comparesValues
  | .binary op lhs rhs _ =>
    ((op ≠ .eq ∧ op ≠ .ne) ∨ (lhs.type ≠ .void ∧ rhs.type ≠ .void)) &&
      lhs.comparesValues && rhs.comparesValues
  | .newArray _ _ size _ => size.comparesValues
  | .call c => c.comparesValues

def Call.comparesValues : Call → Bool
  | .mk method args _ _ _ => method.comparesValues && Expr.compareValues args

def Expr.compareValues : List Expr → Bool
  | [] => true
  | e :: es => e.comparesValues && Expr.compareValues es

end

mutual

/-- No operand of a comparison by `==` or `!=` is a call without a result. -/
def Stmt.comparesValues : Stmt → Bool
  | .block _ body => Stmt.compareValues body
  | .decl _ init => init.comparesValues
  | .assign lhs rhs => lhs.comparesValues && rhs.comparesValues
  | .call c => c.comparesValues
  | .ifThen _ cond body => cond.comparesValues && body.comparesValues
  | .ifElse _ cond body other =>
    cond.comparesValues && body.comparesValues && other.comparesValues
  | .loop _ cond body => cond.comparesValues && body.comparesValues

def Stmt.compareValues : List Stmt → Bool
  | [] => true
  | s :: ss => s.comparesValues && Stmt.compareValues ss

end

def MethodDecl.comparesValues (m : MethodDecl) : Bool :=
  Stmt.compareValues m.body && m.result.all (·.comparesValues)

def Package.comparesValues (p : Package) : Bool :=
  p.classes.all fun c => c.methods.all (·.comparesValues)

namespace Semantics

/-! ### Typed stores -/

/-- What stays the same about a block. -/
inductive Kind where
  | object (cls : Nat)
  | array (elem : Ty)
  deriving DecidableEq

/-- What stays the same about a block. -/
def Block.kind : Block → Kind
  | .object cls _ => .object cls
  | .array elem _ => .array elem

def Keeps (heap heap' : List Block) : Prop :=
  ∀ (addr : Nat) (b : Block), heap[addr]? = some b →
    ∃ b' : Block, heap'[addr]? = some b' ∧ b'.kind = b.kind

theorem Keeps.refl (heap : List Block) : Keeps heap heap := fun _ b hb => ⟨b, hb, rfl⟩

theorem Keeps.trans (h₁ : Keeps heap₁ heap₂) (h₂ : Keeps heap₂ heap₃) : Keeps heap₁ heap₃ := by
  intro addr b hb
  obtain ⟨b', hb', hk⟩ := h₁ addr b hb
  obtain ⟨b'', hb'', hk'⟩ := h₂ addr b' hb'
  exact ⟨b'', hb'', hk'.trans hk⟩

theorem keeps_append (heap : List Block) (b : Block) : Keeps heap (heap ++ [b]) := by
  intro addr b' hb'
  exact ⟨b', by rw [getElem?_append_left (List.getElem?_eq_some_iff.1 hb').1, hb'], rfl⟩

section

variable {b : Block} {v x o : Value} {t : Ty} {op : Operator} {id : MemberId} {f : FieldDecl}
  {i cls : Nat} {n : String} {d : LocalDecl}

theorem keeps_set {heap : List Block} {b' : Block} (hb : heap[addr]? = some b)
    (hkind : b'.kind = b.kind) : Keeps heap (heap.set addr b') := by
  intro addr₁ b₁ hb₁
  rw [getElem?_set]
  split
  · obtain rfl := ‹addr = addr₁›
    cases hb.symm.trans hb₁
    rw [if_pos (List.getElem?_eq_some_iff.1 hb).1]
    exact ⟨b', rfl, hkind⟩
  · exact ⟨b₁, hb₁, rfl⟩

def HasType (sig : Signature) (heap : List Block) : Value → Ty → Prop
  | .int _, .int => True
  | .bool _, .boolean => True
  | .null, .cls _ => True
  | .null, .array _ => True
  | .ref addr, .cls n => ∃ b cls, heap[addr]? = some b ∧ b.kind = .object cls ∧
    sig.className cls = some n
  | .ref addr, .array elem => ∃ b, heap[addr]? = some b ∧ b.kind = .array elem
  | _, _ => False

variable {sig : Signature} {heap heap' : List Block}

theorem HasType.keeps (h : HasType sig heap v t) (hk : Keeps heap heap') :
    HasType sig heap' v t := by
  match v, t, h with
  | .int _, .int, _ | .bool _, .boolean, _ | .null, .cls _, _ | .null, .array _, _ => exact trivial
  | .ref addr, .cls n, ⟨b, cls, hb, hkind, hcls⟩ =>
    obtain ⟨b', hb', hkind'⟩ := hk addr b hb
    exact ⟨b', cls, hb', hkind'.trans hkind, hcls⟩
  | .ref addr, .array elem, ⟨b, hb, hkind⟩ =>
    obtain ⟨b', hb', hkind'⟩ := hk addr b hb
    exact ⟨b', hb', hkind'.trans hkind⟩

theorem hasType_initial (h : t.IsValue) : HasType sig heap (initial t) t := by
  cases t <;> trivial

def Block.Typed (sig : Signature) (heap : List Block) : Block → Prop
  | .object cls fields => ∀ k f, sig.field ⟨cls, k⟩ = some f → HasType sig heap (fields k) f.type
  | .array elem elems => ∀ v ∈ elems, HasType sig heap v elem

theorem Block.Typed.keeps (h : b.Typed sig heap) (hk : Keeps heap heap') : b.Typed sig heap' := by
  cases b with
  | object cls fields => exact fun k f hf => (h k f hf).keeps hk
  | array elem elems => exact fun v hv => (h v hv).keeps hk

/-- Everything in a store has its type. -/
structure Store.Typed (sig : Signature) (s : Store) : Prop where
  heap : ∀ b ∈ s.heap, b.Typed sig s.heap
  statics : ∀ id f, sig.field id = some f → HasType sig s.heap (s.statics id) f.type

/-! ### Parts of a run -/

/-- The part `x` of a run, started in a well-typed store whose heap extends `heap`, does not get
stuck, and ends with `Q` of the heap and its result in a well-typed store. -/
def Safe {α : Type} (sig : Signature) (heap : List Block) (x : Eval α)
    (Q : List Block → α → Prop) : Prop :=
  ∀ s, s.Typed sig → Keeps heap s.heap → match x s with
    | .ok a s' => s'.Typed sig ∧ Keeps s.heap s'.heap ∧ Q s'.heap a
    | .error e _ => e ≠ .stuck

/-- The part of a run is safe, and its result has a type. -/
abbrev Yields (sig : Signature) (heap : List Block) (x : Eval Value) (t : Ty) : Prop :=
  Safe sig heap x fun heap v => HasType sig heap v t

section

variable {α β : Type} {x : Eval α} {Q : List Block → α → Prop}

theorem Safe.keeps (h : Safe sig heap x Q) (hk : Keeps heap heap') : Safe sig heap' x Q :=
  fun s hs hk' => h s hs (hk.trans hk')

theorem Safe.bind {f : α → Eval β} (hx : Safe sig heap x Q)
    (hf : ∀ heap' a, Keeps heap heap' → Q heap' a → Safe sig heap' (f a) R) :
    Safe sig heap (x >>= f) R := by
  intro s hs hk
  have hx := hx s hs hk
  simp only [Bind.bind, EStateM.bind]
  cases hxs : x s with
  | error e s' =>
    rw [hxs] at hx
    exact hx
  | ok a s' =>
    rw [hxs] at hx
    have hf := hf s'.heap a (hk.trans hx.2.1) hx.2.2 s' hx.1 (.refl _)
    dsimp only
    cases hfs : f a s' with
    | ok b s'' =>
      rw [hfs] at hf
      exact ⟨hf.1, hx.2.1.trans hf.2.1, hf.2.2⟩
    | error e s'' =>
      rw [hfs] at hf
      exact hf

theorem safe_pure {a : α} (h : ∀ heap', Keeps heap heap' → Q heap' a) : Safe sig heap (pure a) Q :=
  fun s hs hk => ⟨hs, .refl _, h s.heap hk⟩

theorem safe_throw {e : Abort} (h : e ≠ .stuck) : Safe sig heap (throw e : Eval α) Q :=
  fun _ _ _ => h

theorem safe_expect {o : Option α} {a : α} (ho : o = some a)
    (h : ∀ heap', Keeps heap heap' → Q heap' a) : Safe sig heap (expect o) Q := by
  subst ho
  exact safe_pure h

theorem safe_expect_bind {f : α → Eval β} {R : List Block → β → Prop} (hq : q = some a)
    (h : Safe sig heap (f a) R) : Safe sig heap (expect q >>= f) R := by
  subst hq
  exact h

theorem Safe.ite {c : Prop} [Decidable c] (hx : c → Safe sig heap x Q)
    (hy : ¬ c → Safe sig heap y Q) : Safe sig heap (if c then x else y) Q := by
  split
  · exact hx ‹_›
  · exact hy ‹_›

end

/-! ### Numbers and truth values -/

theorem safe_word (x : Int) : Yields sig heap (word x) .int :=
  Safe.ite (fun _ => safe_pure fun _ _ => trivial) fun _ => safe_throw nofun

theorem safe_unary (hv : HasType sig heap v (Typing.unaryType op)) :
    Yields sig heap (unary op v) (Typing.unaryType op) := by
  cases op with
  | not =>
    match v, hv with
    | .bool b, _ => exact safe_pure fun _ _ => trivial
  | or | and | eq | ne | lt | le | gt | ge | plus | minus | mul | div =>
    match v, hv with
    | .int a, _ => exact safe_word _

theorem exists_same (hx : HasType sig heap x t) (hy : HasType sig heap y t) :
    ∃ r, same? x y = some r := by
  cases t <;> cases x <;> cases y <;> first | exact ⟨_, rfl⟩ | exact hx.elim | exact hy.elim

theorem safe_binary (hop : op.Typed u t) (hx : HasType sig heap x u) (hy : HasType sig heap y u) :
    Yields sig heap (binary op x y) t := by
  cases op with
  | not => exact hop.elim
  | eq | ne =>
    obtain rfl := hop
    obtain ⟨r, hr⟩ := exists_same hx hy
    simp only [binary, hr]
    exact safe_pure fun _ _ => trivial
  | and | or =>
    obtain ⟨rfl, rfl⟩ := hop
    match x, y, hx, hy with
    | .bool _, .bool _, _, _ => exact safe_pure fun _ _ => trivial
  | lt | le | gt | ge =>
    obtain ⟨rfl, rfl⟩ := hop
    match x, y, hx, hy with
    | .int _, .int _, _, _ => exact safe_pure fun _ _ => trivial
  | plus | minus | mul =>
    obtain ⟨rfl, rfl⟩ := hop
    match x, y, hx, hy with
    | .int _, .int _, _, _ => exact safe_word _
  | div =>
    obtain ⟨rfl, rfl⟩ := hop
    match x, y, hx, hy with
    | .int _, .int _, _, _ => exact Safe.ite (fun _ => safe_throw nofun) fun _ => safe_word _

theorem safe_decides (hop : op.Typed u t) (hx : HasType sig heap x u) :
    Safe sig heap (decides op x) fun heap b => b = true → HasType sig heap x t := by
  cases op with
  | not => exact hop.elim
  | and | or =>
    obtain ⟨rfl, rfl⟩ := hop
    cases x with
    | bool => exact safe_pure fun _ _ _ => trivial
    | int | null | ref => exact hx.elim
  | eq | ne | lt | le | gt | ge | plus | minus | mul | div =>
    exact safe_pure fun _ _ h => absurd h Bool.false_ne_true

theorem safe_truth (hv : HasType sig heap v .boolean) :
    Safe sig heap (truth v) fun _ _ => True := by
  match v, hv with
  | .bool _, _ => exact safe_pure fun _ _ => trivial

/-! ### Objects and arrays -/

theorem safe_allocate (hb : ∀ heap', Keeps heap heap' → b.Typed sig heap')
    (ht : ∀ heap' addr, heap'[addr]? = some b → HasType sig heap' (.ref addr) t) :
    Yields sig heap (allocate b) t := by
  intro s hs hk
  have hkeep := keeps_append s.heap b
  refine ⟨⟨fun b' hb' => ?_, fun id f hf => (hs.statics id f hf).keeps hkeep⟩, hkeep,
    ht _ _ (by simp)⟩
  obtain hb' | rfl : b' ∈ s.heap ∨ b' = b := by simpa using hb'
  · exact (hs.heap b' hb').keeps hkeep
  · exact hb _ (hk.trans hkeep)

theorem safe_setBlock {b' : Block} (hb : heap[addr]? = some b) (hkind : b'.kind = b.kind)
    (htyp : b'.Typed sig heap) : Safe sig heap (setBlock addr b') fun _ _ => True := by
  intro s hs hk
  obtain ⟨b₁, hb₁, hkind₁⟩ := hk addr b hb
  have hkeep := keeps_set hb₁ (hkind.trans hkind₁.symm)
  refine ⟨⟨fun b₂ hb₂ => ?_, fun id f hf => (hs.statics id f hf).keeps hkeep⟩, hkeep, trivial⟩
  obtain hb₂ | rfl := mem_or_eq_of_mem_set hb₂
  · exact (hs.heap b₂ hb₂).keeps hkeep
  · exact htyp.keeps (hk.trans hkeep)

theorem safe_array (ho : HasType sig heap o (.array t)) :
    Safe sig heap (array o) fun heap r => (∃ b, heap[r.1]? = some b ∧ b.kind = .array t) ∧
      r.2.1 = t ∧ ∀ v ∈ r.2.2, HasType sig heap v t := by
  intro s hs hk
  match o, ho.keeps hk with
  | .null, _ => exact nofun
  | .ref addr, ⟨b, hb, hkind⟩ =>
    cases b with
    | object => cases hkind
    | array elem elems =>
      cases hkind
      simp only [array, get_bind, hb]
      exact ⟨hs, .refl _, ⟨_, hb, rfl⟩, rfl, hs.heap _ (mem_of_getElem? hb)⟩

theorem safe_position {i : Value} (hi : HasType sig heap i .int) :
    Safe sig heap (position elems i) fun _ k => k < elems.length := by
  match i, hi with
  | .int i, _ => exact Safe.ite (fun h => safe_pure fun _ _ => by omega) fun _ => safe_throw nofun

section

variable (ho : HasType sig heap o (.array t))

include ho

theorem safe_element {i : Value} (hi : HasType sig heap i .int) :
    Yields sig heap (element o i) t := by
  refine (safe_array ho).bind fun heap₁ (_, _, elems) hk₁ ⟨_, _, helem⟩ => ?_
  refine (safe_position (hi.keeps hk₁)).bind fun heap₂ k hk₂ hlt => safe_pure fun heap₃ hk₃ => ?_
  have hmem : elems.getD k .null ∈ elems := by
    rw [getD_eq_getElem?_getD, getElem?_eq_getElem hlt]
    exact getElem_mem hlt
  exact ((helem _ hmem).keeps hk₂).keeps hk₃

theorem safe_setElement {i : Value} (hi : HasType sig heap i .int) (hv : HasType sig heap v t) :
    Safe sig heap (setElement o i v) fun _ _ => True := by
  refine (safe_array ho).bind fun heap₁ (addr, elem, elems) hk₁ ⟨⟨b, hb, hkind⟩, ht, helem⟩ => ?_
  obtain rfl : elem = t := ht
  refine (safe_position (hi.keeps hk₁)).bind fun heap₂ k hk₂ hlt => ?_
  obtain ⟨b₂, hb₂, hkind₂⟩ := hk₂ addr b hb
  refine safe_setBlock hb₂ (hkind₂.trans hkind).symm fun w hw => ?_
  obtain hw | rfl := mem_or_eq_of_mem_set hw
  · exact (helem w hw).keeps hk₂
  · exact hv.keeps (hk₁.trans hk₂)

theorem safe_length : Yields sig heap (length o) .int :=
  (safe_array ho).bind fun _ _ _ _ => safe_pure fun _ _ => trivial

end

theorem safe_newArray {elem : Ty} {n : Value} (helem : elem.IsValue)
    (hn : HasType sig heap n .int) :
    Yields sig heap (newArray elem n) (.array elem) := by
  match n, hn with
  | .int n, _ =>
    refine Safe.ite (fun _ => safe_allocate (fun heap' hk v hv => ?_) fun heap' addr hb => ?_)
      fun _ => safe_throw nofun
    · rw [eq_of_mem_replicate hv]
      exact hasType_initial helem
    · exact ⟨_, hb, rfl⟩

theorem safe_setStatic (hf : sig.field id = some f)
    (hv : HasType sig heap v f.type) : Safe sig heap (setStatic id v) fun _ _ => True := by
  intro s hs hk
  refine ⟨⟨hs.heap, fun id' f' hf' => ?_⟩, .refl _, trivial⟩
  dsimp only
  split
  · obtain rfl := ‹id' = id›
    cases hf.symm.trans hf'
    exact hv.keeps hk
  · exact hs.statics id' f' hf'

/-! ### Members -/

variable {p : Package}

section

variable (hp : p.Typed)

include hp

theorem className_injective (hi : p.signature.className i = some n)
    (hj : p.signature.className j = some n) : i = j := by
  simp only [signature, class?, ← getElem?_map] at hi hj
  exact (getElem?_inj (List.getElem?_eq_some_iff.1 hi).1 hp.names).1 (hi.trans hj.symm)

theorem safe_object (hcls : p.signature.className cls = some n) (ho : HasType p.signature heap o (.cls n)) :
    Safe p.signature heap (object cls o) fun heap r =>
      (∃ b, heap[r.1]? = some b ∧ b.kind = .object cls) ∧
        ∀ k f, p.signature.field ⟨cls, k⟩ = some f → HasType p.signature heap (r.2 k) f.type := by
  intro s hs hk
  match o, ho.keeps hk with
  | .null, _ => exact nofun
  | .ref addr, ⟨b, cls', hb, hkind, hcls'⟩ =>
    cases b with
    | array => cases hkind
    | object cls'' fields =>
      cases hkind
      obtain rfl := className_injective hp hcls hcls'
      simp only [object, get_bind, hb, ↓reduceIte]
      exact ⟨hs, .refl _, ⟨_, hb, rfl⟩, hs.heap _ (mem_of_getElem? hb)⟩

theorem safe_field (hf : p.signature.field id = some f) (hcls : p.signature.className id.cls = some n)
    (ho : HasType p.signature heap o (.cls n)) :
    Yields p.signature heap (field id o) f.type :=
  (safe_object hp hcls ho).bind fun _ _ _ h => safe_pure fun _ hk => (h.2 _ f hf).keeps hk

theorem safe_setField (hf : p.signature.field id = some f) (hcls : p.signature.className id.cls = some n)
    (ho : HasType p.signature heap o (.cls n)) (hv : HasType p.signature heap v f.type) :
    Safe p.signature heap (setField id o v) fun _ _ => True := by
  refine (safe_object hp hcls ho).bind fun heap₁ (addr, fields) hk₁ ⟨⟨b, hb, hkind⟩, hflds⟩ => ?_
  refine safe_setBlock hb hkind.symm fun k f' hf' => ?_
  dsimp only
  split
  · obtain rfl := ‹k = id.index›
    cases hf.symm.trans hf'
    exact hv.keeps hk₁
  · exact hflds k f' hf'

theorem safe_newObject (hcls : p.signature.className cls = some n) :
    Yields p.signature heap (newObject p cls) (.cls n) := by
  obtain ⟨c, hc, -⟩ := map_eq_some_iff.1 hcls
  refine safe_expect_bind hc (safe_allocate (fun heap' hk k f hf => ?_) fun heap' addr hb =>
    ⟨_, cls, hb, rfl, hcls⟩)
  have hfld : c.fields[k]? = some f := by
    simpa [signature, field?, hc] using hf
  simp only [hfld, map_some, getD_some]
  exact hasType_initial (hp.proper.field _ f hf)

theorem safe_member {o : Eval Value} (hf : p.signature.field id = some f)
    (ho : f.isStatic = false → ∃ n, p.signature.className id.cls = some n ∧
      Yields p.signature heap o (.cls n)) :
    Yields p.signature heap (member p id o) f.type := by
  refine safe_expect_bind hf (Safe.ite (fun _ => ?_) fun hstat => ?_)
  · exact fun s hs hk => ⟨hs, .refl _, hs.statics id f hf⟩
  · obtain ⟨n, hcls, ho⟩ := ho (by simpa using hstat)
    exact ho.bind fun heap₂ v hk₂ hv => safe_field hp hf hcls hv

theorem safe_setMember {o v : Eval Value} (hf : p.signature.field id = some f)
    (ho : f.isStatic = false → ∃ n, p.signature.className id.cls = some n ∧
      Yields p.signature heap o (.cls n))
    (hv : Yields p.signature heap v f.type) :
    Safe p.signature heap (setMember p id o v) fun _ _ => True := by
  refine safe_expect_bind hf (Safe.ite (fun _ => ?_) fun hstat => ?_)
  · exact hv.bind fun heap₁ v hk₁ hv => safe_setStatic hf hv
  · obtain ⟨n, hcls, ho⟩ := ho (by simpa using hstat)
    refine ho.bind fun heap₁ o hk₁ ho => (hv.keeps hk₁).bind fun heap₂ v hk₂ hv => ?_
    exact safe_setField hp hf hcls (ho.keeps hk₂) hv

end

/-! ### Variables -/

/-- The variables of a method at `Γ` have their types. -/
structure Activation.Typed (Γ : Site) (vs : List LocalDecl) (heap : List Block)
    (act : Activation) : Prop where
  this : Γ.isStatic = false →
    ∃ n, Γ.sig.className Γ.cls = some n ∧ HasType Γ.sig heap act.this (.cls n)
  params : List.Forall₂ (HasType Γ.sig heap) act.params Γ.params
  names : act.locals.map (·.1) = vs
  locals : ∀ x ∈ act.locals, HasType Γ.sig heap x.2 x.1.type

variable {Γ : Site} {vs : List LocalDecl} {act : Activation}

theorem Activation.Typed.keeps (h : act.Typed Γ vs heap) (hk : Keeps heap heap') :
    act.Typed Γ vs heap' where
  this hstat := by
    obtain ⟨n, hn, hthis⟩ := h.this hstat
    exact ⟨n, hn, hthis.keeps hk⟩
  params := h.params.imp fun _ _ hv => hv.keeps hk
  names := h.names
  locals x hx := (h.locals x hx).keeps hk

theorem lookup_of_mem {ls : List (LocalDecl × Value)} (h : d ∈ ls.map (·.1)) :
    ∃ v, ls.lookup d = some v ∧ (d, v) ∈ ls := by
  induction ls with
  | nil => cases h
  | cons x ls ih =>
    obtain ⟨d', v⟩ := x
    by_cases hd : d = d'
    · exact ⟨v, by simp [hd], by simp [hd]⟩
    · have hne : (d == d') = false := by simpa using hd
      obtain ⟨w, hw, hmem⟩ := ih (by simpa [hd] using h)
      exact ⟨w, by simp [lookup_cons, hne, hw], mem_cons_of_mem _ hmem⟩

theorem Activation.Typed.local (h : act.Typed Γ vs heap) (hd : d ∈ vs) :
    ∃ v, act.locals.lookup d = some v ∧ HasType Γ.sig heap v d.type := by
  obtain ⟨v, hv, hmem⟩ := lookup_of_mem (h.names ▸ hd)
  exact ⟨v, hv, h.locals _ hmem⟩

theorem Activation.Typed.param (h : act.Typed Γ vs heap)
    (hi : Γ.params[i]? = some t) : ∃ v, act.params[i]? = some v ∧ HasType Γ.sig heap v t :=
  getElem?_of_forall₂ h.params hi

theorem Activation.Typed.setLocal (h : act.Typed Γ vs heap)
    (hv : HasType Γ.sig heap v d.type) : (act.setLocal d v).Typed Γ vs heap where
  this := h.this
  params := h.params
  names := by
    rw [← h.names]
    simp only [Activation.setLocal, List.map_map]
    refine map_congr_left fun x _ => ?_
    dsimp only [Function.comp]
    split
    · exact ‹x.1 = d›.symm
    · rfl
  locals x hx := by
    obtain ⟨y, hy, rfl⟩ := mem_map.1 hx
    split
    · exact hv
    · exact h.locals y hy

theorem forall₂_set {α β : Type} {R : α → β → Prop} {xs : List α} {ys : List β}
    (h : List.Forall₂ R xs ys) {x : α} {y : β} (hy : ys[i]? = some y) (hxy : R x y) :
    List.Forall₂ R (xs.set i x) ys := by
  induction h generalizing i with
  | nil => exact .nil
  | cons hab hrest ih =>
    cases i with
    | zero =>
      cases hy
      exact .cons hxy hrest
    | succ i => exact .cons hab (ih (by simpa using hy))

theorem Activation.Typed.setParam (h : act.Typed Γ vs heap)
    (hi : Γ.params[i]? = some t) (hv : HasType Γ.sig heap v t) :
    (act.setParam i v).Typed Γ vs heap where
  this := h.this
  params := forall₂_set h.params hi hv
  names := h.names
  locals := h.locals

theorem Activation.Typed.declare (h : act.Typed Γ vs heap) (hv : HasType Γ.sig heap v d.type) :
    Activation.Typed Γ (vs ++ [d]) heap { act with locals := act.locals ++ [(d, v)] } where
  this := h.this
  params := h.params
  names := by simp [h.names]
  locals x hx := by
    obtain hx | rfl : x ∈ act.locals ∨ x = (d, v) := by simpa using hx
    · exact h.locals x hx
    · exact hv

theorem Activation.Typed.leave {after : Activation} (h : act.Typed Γ vs heap)
    (haft : after.Typed Γ (vs ++ ws) heap') :
    Activation.Typed Γ vs heap' { after with locals := after.locals.take act.locals.length } where
  this := haft.this
  params := haft.params
  names := by
    have hlen : act.locals.length = vs.length := by rw [← h.names, length_map]
    rw [map_take, haft.names, hlen, take_left]
  locals x hx := haft.locals x (mem_of_mem_take hx)

/-! ### Evaluation -/

/-- What a method at `Γ` can name is a value. -/
structure Proper (p : Package) (Γ : Site) (vs : List LocalDecl) : Prop where
  sig : Γ.sig = p.signature
  params : ∀ t ∈ Γ.params, t.IsValue
  vars : ∀ d ∈ vs, d.type.IsValue

theorem Proper.isValue (hp : p.Typed) (h : Proper p Γ vs) {r : Ref}
    (hr : r.Typed Γ vs t) : t.IsValue :=
  hr.isValue (h.sig ▸ hp.proper) h.params h.vars

theorem Proper.declared (h : Proper p Γ vs) {s : Stmt} (hs : s.Typed Γ vs) :
    Proper p Γ (vs ++ s.declared) where
  sig := h.sig
  params := h.params
  vars d hd := by
    obtain hd | hd := mem_append.1 hd
    · exact h.vars d hd
    · cases s with
      | decl d' init =>
        obtain rfl := mem_singleton.1 hd
        exact hs.1
      | block | assign | call | ifThen | ifElse | loop => cases hd

theorem Proper.extended (h : Proper p Γ vs) (ss : List Stmt) (hss : Stmt.TypedList Γ vs ss) :
    Proper p Γ (vs ++ ss.flatMap (·.declared)) := by
  induction ss generalizing vs with
  | nil => simpa using h
  | cons s ss ih => simpa using ih (h.declared hss.1) hss.2

theorem safe_this (hΓ : Proper p Γ vs) (hact : act.Typed Γ vs heap) {isStatic : Bool}
    (hreac : Γ.Reaches cls isStatic) (hstat : isStatic = false) :
    ∃ n, p.signature.className cls = some n ∧
      Yields p.signature heap (pure act.this) (.cls n) := by
  obtain hreac | ⟨hcls, hinst⟩ := hreac
  · exact absurd (hstat.symm.trans hreac) Bool.false_ne_true
  · obtain ⟨n, hn, ht⟩ := hact.this hinst
    rw [hΓ.sig] at hn ht
    exact ⟨n, hcls ▸ hn, safe_pure fun heap' hk => ht.keeps hk⟩

def ResultTyped (sig : Signature) (t : Ty) (heap : List Block) : Option Value → Prop
  | some v => HasType sig heap v t
  | none => t = .void

theorem safe_print (hus : List.Forall₂ (HasType sig heap) us [.int]) :
    Safe sig heap (print us) (ResultTyped sig .void) := by
  obtain ⟨u, _, hu, hnil, rfl⟩ := forall₂_cons_right_iff.1 hus
  obtain rfl := forall₂_nil_right_iff.1 hnil
  match u, hu with
  | .int _, _ => exact fun s hs hk => ⟨⟨hs.heap, hs.statics⟩, .refl _, rfl⟩

theorem MethodDecl.comparesValues_of_package (hcmp : p.comparesValues = true)
    (hm : p.method? id = some m) : m.comparesValues = true := by
  obtain ⟨c, hc, hm⟩ := bind_eq_some_iff.1 hm
  have hc := all_eq_true.1 hcmp c (mem_of_getElem? hc)
  exact all_eq_true.1 hc m (mem_of_getElem? hm)

theorem safe_outOfFuel {α : Type} {Q : List Block → α → Prop} :
    Safe sig heap (throw .outOfFuel : Eval α) Q := safe_throw nofun

end

variable {p : Package}

section

variable (hp : p.Typed) (hcmp : p.comparesValues = true)

include hp hcmp

mutual

theorem safe_ref (hΓ : Proper p Γ vs) (n : Nat)
    (hact : Activation.Typed Γ vs heap act) (r : Ref) {t : Ty}
    (hr : r.Typed Γ vs t) (hrcmp : r.comparesValues = true) :
    Yields p.signature heap (ref p n act r) t := by
  match n, r with
  | 0, _ => exact safe_outOfFuel
  | n + 1, .this .. =>
    obtain ⟨-, hstat, n', hn', rfl⟩ := hr
    obtain ⟨n'', hn'', hthis⟩ := hact.this hstat
    cases hn'.symm.trans hn''
    exact safe_pure fun heap' hk => hΓ.sig ▸ hthis.keeps hk
  | n + 1, .id _ _ b _ =>
    obtain ⟨-, b, rfl, hb⟩ := hr
    match b, hb with
    | .var d, ⟨hd, ht⟩ =>
      obtain ⟨v, hv, hty⟩ := hact.local hd
      exact safe_expect hv fun heap' hk => hΓ.sig ▸ ht ▸ hty.keeps hk
    | .param i, hi =>
      obtain ⟨v, hv, hty⟩ := hact.param hi
      exact safe_expect hv fun heap' hk => hΓ.sig ▸ hty.keeps hk
    | .field id, ⟨f, hf, ht, hreac⟩ =>
      subst ht
      rw [hΓ.sig] at hf
      exact safe_member hp hf fun hstat => safe_this hΓ hact hreac hstat
  | n + 1, .member base _ _ b isLength _ =>
    obtain ⟨-, hr⟩ := hr
    cases isLength with
    | true =>
      obtain ⟨rfl, elem, hbase⟩ := hr
      exact (safe_ref hΓ n hact base hbase hrcmp).bind fun heap' v hk hv => safe_length hv
    | false =>
      obtain ⟨id, f, rfl, hf, rfl, hbase⟩ := hr
      rw [hΓ.sig] at hf
      rw [ref, boundField]
      refine safe_member hp hf fun hstat => ?_
      obtain ⟨hbase, -⟩ | ⟨n', hn', hbase⟩ := hbase
      · exact nomatch hstat.symm.trans hbase
      · exact ⟨n', hΓ.sig ▸ hn', safe_ref hΓ n hact base hbase hrcmp⟩
  | n + 1, .elem base index _ =>
    simp only [Ref.Typed] at hr
    simp only [Ref.comparesValues, Bool.and_eq_true] at hrcmp
    refine (safe_ref hΓ n hact base hr.2.1 hrcmp.1).bind fun heap₁ o hk₁ ho => ?_
    refine (safe_expr hΓ n (hact.keeps hk₁) index hr.2.2 nofun hrcmp.2).bind
      fun heap₂ i hk₂ hi => ?_
    exact safe_element (ho.keeps hk₂) hi

theorem safe_expr (hΓ : Proper p Γ vs) (n : Nat)
    (hact : Activation.Typed Γ vs heap act) (e : Expr) {t : Ty}
    (he : e.Typed Γ vs t) (ht : t ≠ .void) (hecmp : e.comparesValues = true) :
    Yields p.signature heap (expr p n act e) t := by
  match n, e with
  | 0, _ => exact safe_outOfFuel
  | n + 1, .ref r => exact safe_ref hΓ n hact r he hecmp
  | n + 1, .int .. => exact safe_pure fun _ _ => he.2.1 ▸ trivial
  | n + 1, .bool .. => exact safe_pure fun _ _ => he.2 ▸ trivial
  | n + 1, .unary _ op operand _ =>
    obtain ⟨-, rfl, he⟩ := he
    exact (safe_expr hΓ n hact operand he ht hecmp).bind fun heap' v hk hv => safe_unary hv
  | n + 1, .binary op lhs rhs _ =>
    simp only [Expr.comparesValues, Bool.and_eq_true, decide_eq_true_eq] at hecmp
    obtain ⟨-, u, hlhs, hrhs, hop⟩ := he
    obtain ⟨⟨hvals, hlcmp⟩, hrcmp⟩ := hecmp
    have hu := hop.ne_void (hvals.imp id fun h => hlhs.type_eq ▸ h.1)
    refine (safe_expr hΓ n hact lhs hlhs hu hlcmp).bind fun heap₁ x hk₁ hx => ?_
    refine (safe_decides hop hx).bind fun heap₂ b hk₂ hb => ?_
    refine Safe.ite (fun hd => safe_pure fun heap' hk => (hb hd).keeps hk) fun _ => ?_
    refine (safe_expr hΓ n (hact.keeps (hk₁.trans hk₂)) rhs hrhs hu hrcmp).bind
      fun heap₃ y hk₃ hy => ?_
    exact safe_binary hop (hx.keeps (hk₂.trans hk₃)) hy
  | n + 1, .newObject _ cls bound _ =>
    obtain ⟨-, rfl, i, rfl, hi⟩ := he
    rw [hΓ.sig] at hi
    exact safe_newObject hp hi
  | n + 1, .newArray _ elem size _ =>
    simp only [Expr.Typed] at he
    simp only [Expr.comparesValues] at hecmp
    obtain ⟨-, rfl, hval, hsize⟩ := he
    exact (safe_expr hΓ n hact size hsize nofun hecmp).bind fun heap' v hk hv =>
      safe_newArray hval.elem hv
  | n + 1, .call c =>
    refine (safe_call hΓ n hact c he hecmp).bind fun heap' r hk hr => ?_
    cases r with
    | none => exact absurd hr ht
    | some v => exact safe_pure fun heap'' hk' => HasType.keeps hr hk'

theorem safe_args (hΓ : Proper p Γ vs) (n : Nat)
    (hact : Activation.Typed Γ vs heap act) (es : List Expr)
    {ts : List Ty} (hes : Expr.TypedList Γ vs es ts) (hts : ∀ t ∈ ts, t.IsValue)
    (hesc : Expr.compareValues es = true) :
    Safe p.signature heap (args p n act es) fun heap us =>
      List.Forall₂ (HasType p.signature heap) us ts := by
  match n, es with
  | 0, _ => exact safe_outOfFuel
  | n + 1, [] =>
    obtain rfl := hes
    exact safe_pure fun _ _ => .nil
  | n + 1, e :: es =>
    simp only [Expr.compareValues, Bool.and_eq_true] at hesc
    obtain ⟨u, us, rfl, he, hes⟩ := hes
    have hu : u ≠ .void := (hts u mem_cons_self).ne_void
    refine (safe_args hΓ n hact es hes (fun t ht => hts t (mem_cons_of_mem _ ht))
      hesc.2).bind fun heap₁ ws hk₁ hws => ?_
    refine (safe_expr hΓ n (hact.keeps hk₁) e he hu hesc.1).bind
      fun heap₂ w hk₂ hw => safe_pure fun heap₃ hk₃ => ?_
    exact .cons (hw.keeps hk₃) (hws.imp fun _ _ h => h.keeps (hk₂.trans hk₃))

theorem safe_receiver (hΓ : Proper p Γ vs) (n : Nat)
    (hact : Activation.Typed Γ vs heap act) (method : Ref)
    {id : MemberId} {π : Profile} (hmeth : method.Calls Γ vs id π) (hπ : π.isStatic = false)
    (hm : method.comparesValues = true) :
    ∃ k, p.signature.className id.cls = some k ∧
      Yields p.signature heap (receiver p n act method) (.cls k) := by
  match n, method with
  | n, .id .. =>
    obtain ⟨k, hk, hthis⟩ := safe_this hΓ hact hmeth hπ
    refine ⟨k, hk, ?_⟩
    cases n with
    | zero => exact safe_outOfFuel
    | succ n => exact hthis
  | n, .member base .. =>
    obtain ⟨hstat, -⟩ | ⟨k, hk, hbase⟩ := hmeth
    · exact nomatch hπ.symm.trans hstat
    · refine ⟨k, hΓ.sig ▸ hk, ?_⟩
      match n with
      | 0 => exact safe_outOfFuel
      | n + 1 => exact safe_ref hΓ n hact base hbase hm

theorem safe_call (hΓ : Proper p Γ vs) (n : Nat)
    (hact : Activation.Typed Γ vs heap act) (c : Call) {t : Ty}
    (hc : c.Typed Γ vs t) (hccmp : c.comparesValues = true) :
    Safe p.signature heap (call p n act c) (ResultTyped p.signature t) := by
  match n, c with
  | 0, _ => exact safe_outOfFuel
  | n + 1, .mk method es _ bound _ =>
    simp only [Call.comparesValues, Bool.and_eq_true] at hccmp
    obtain ⟨-, id, π, rfl, hπ, rfl, hes, hmeth⟩ := hc
    rw [hΓ.sig] at hπ
    obtain ⟨m, hm, rfl⟩ := map_eq_some_iff.1 hπ
    refine safe_expect_bind rfl (safe_expect_bind hm ?_)
    refine (safe_args hΓ n hact es hes (hp.proper.param _ _ hπ) hccmp.2).bind
      fun heap₃ us hk₃ hus => ?_
    refine Safe.ite (fun hprn => ?_) fun _ => Safe.ite (fun hstat => ?_) fun hstat => ?_
    · obtain ⟨k, hk, hprof⟩ := hp.println
      cases hprn.symm.trans hk
      rw [some.inj (hπ.symm.trans hprof)] at hus ⊢
      exact safe_print hus
    · exact safe_invoke n hm (fun hinst => nomatch hinst.symm.trans hstat) hus
    · obtain ⟨k, hk, hrcv⟩ := safe_receiver hΓ n (hact.keeps hk₃) method hmeth
        (by simpa [MethodDecl.profile] using hstat) hccmp.1
      refine hrcv.bind fun heap₄ o hk₄ ho => ?_
      refine (safe_object hp hk ho).bind fun heap₅ _ hk₅ _ => ?_
      exact safe_invoke n hm (fun _ => ⟨k, hk, ho.keeps hk₅⟩)
        (hus.imp fun _ _ h => h.keeps (hk₄.trans hk₅))

theorem safe_invoke (n : Nat) {heap : List Block} {id : MemberId} {m : MethodDecl}
    (hm : p.method? id = some m) {this : Value} {us : List Value}
    (hthis : m.isStatic = false → ∃ k, p.signature.className id.cls = some k ∧
      HasType p.signature heap this (.cls k))
    (hus : List.Forall₂ (HasType p.signature heap) us (m.params.map (·.type))) :
    Safe p.signature heap (invoke p n m this us) (ResultTyped p.signature m.type) := by
  match n with
  | 0 => exact safe_outOfFuel
  | n + 1 =>
    have hmcmp := MethodDecl.comparesValues_of_package hcmp hm
    simp only [MethodDecl.comparesValues, Bool.and_eq_true] at hmcmp
    obtain ⟨hb, hres⟩ := hp.methods id m hm
    have hprof : p.signature.method id = some m.profile := by simp [signature, hm]
    have hΓ : Proper p (m.site p.signature id.cls) [] := ⟨rfl, hp.proper.param id _ hprof, nofun⟩
    have hsta : Activation.Typed (m.site p.signature id.cls) [] heap ⟨this, us, []⟩ :=
      ⟨hthis, hus, rfl, nofun⟩
    refine (safe_stmts hΓ n hsta m.body hb hmcmp.1).bind fun heap₁ act hk₁ hact => ?_
    split
    · rename_i e he
      simp only [he, all_some] at hres hmcmp
      refine (safe_expr (hΓ.extended m.body hb) n hact e hres.2 hres.1.ne_void
        hmcmp.2).bind fun heap₂ v hk₂ hv => ?_
      exact safe_pure fun heap₃ hk₃ => HasType.keeps hv hk₃
    · rename_i he
      simp only [he] at hres
      exact safe_pure fun _ _ => hres

theorem safe_stmt (hΓ : Proper p Γ vs) (n : Nat)
    (hact : Activation.Typed Γ vs heap act) (s : Stmt)
    (hs : s.Typed Γ vs) (hscmp : s.comparesValues = true) :
    Safe p.signature heap (stmt p n act s) fun heap act => act.Typed Γ (vs ++ s.declared) heap := by
  match n, s with
  | 0, _ => exact safe_outOfFuel
  | n + 1, .block _ body =>
    refine (safe_stmts hΓ n hact body hs hscmp).bind fun heap₁ after hk₁ haft => ?_
    refine safe_pure fun heap₂ hk₂ => ?_
    simpa [Stmt.declared] using hact.leave (haft.keeps hk₂)
  | n + 1, .decl d init =>
    refine (safe_expr hΓ n hact init hs.2.2 hs.1.ne_void hscmp).bind
      fun heap₁ v hk₁ hv => safe_pure fun heap₂ hk₂ => ?_
    exact (hact.keeps (hk₁.trans hk₂)).declare (hΓ.sig ▸ hv.keeps hk₂)
  | n + 1, .assign (.this ..) _ => exact hs.1.elim
  | n + 1, .assign (.id _ _ b _) rhs =>
    obtain ⟨-, t, hlhs, hrhs⟩ := hs
    simp only [Stmt.comparesValues, Bool.and_eq_true] at hscmp
    have hval := safe_expr hΓ n hact rhs hrhs (hΓ.isValue hp hlhs).ne_void hscmp.2
    obtain ⟨-, b, rfl, hb⟩ := hlhs
    match b, hb with
    | .var d, ⟨_, ht⟩ =>
      refine hval.bind fun heap₁ v hk₁ hv => safe_pure fun heap₂ hk₂ => ?_
      simpa [Stmt.declared] using (hact.keeps (hk₁.trans hk₂)).setLocal (hΓ.sig ▸ ht ▸ hv.keeps hk₂)
    | .param i, hi =>
      refine hval.bind fun heap₁ v hk₁ hv => safe_pure fun heap₂ hk₂ => ?_
      simpa [Stmt.declared] using (hact.keeps (hk₁.trans hk₂)).setParam hi (hΓ.sig ▸ hv.keeps hk₂)
    | .field id, ⟨f, hf, ht, hreac⟩ =>
      subst ht
      rw [hΓ.sig] at hf
      refine (safe_setMember hp hf (fun hstat => ?_) hval).bind fun heap₁ _ hk₁ _ =>
        safe_pure fun heap₂ hk₂ => ?_
      · exact safe_this hΓ hact hreac hstat
      · simpa [Stmt.declared] using hact.keeps (hk₁.trans hk₂)
  | n + 1, .assign (.member base _ _ b isLength _) rhs =>
    obtain ⟨hasg, t, hlhs, hrhs⟩ := hs
    simp only [Stmt.comparesValues, Ref.comparesValues, Bool.and_eq_true] at hscmp
    have hval := safe_expr hΓ n hact rhs hrhs (hΓ.isValue hp hlhs).ne_void hscmp.2
    cases isLength with
    | true => exact hasg.elim
    | false =>
      obtain ⟨-, id, f, rfl, hf, rfl, hbase⟩ := hlhs
      rw [hΓ.sig] at hf
      rw [stmt, boundField]
      refine (safe_setMember hp hf (fun hstat => ?_) hval).bind fun heap₁ _ hk₁ _ =>
        safe_pure fun heap₂ hk₂ => ?_
      · obtain ⟨hbase, -⟩ | ⟨n', hn', hbase⟩ := hbase
        · exact nomatch hstat.symm.trans hbase
        · exact ⟨n', hΓ.sig ▸ hn', safe_ref hΓ n hact base hbase hscmp.1⟩
      · simpa [Stmt.declared] using hact.keeps (hk₁.trans hk₂)
  | n + 1, .assign (.elem base index _) rhs =>
    obtain ⟨-, t, hlhs, hrhs⟩ := hs
    simp only [Stmt.comparesValues, Ref.comparesValues, Bool.and_eq_true] at hscmp
    have ht := (hΓ.isValue hp hlhs).ne_void
    simp only [Ref.Typed] at hlhs
    refine (safe_ref hΓ n hact base hlhs.2.1 hscmp.1.1).bind fun heap₁ o hk₁ ho => ?_
    have hact := hact.keeps hk₁
    refine (safe_expr hΓ n hact index hlhs.2.2 nofun hscmp.1.2).bind
      fun heap₂ i hk₂ hi => ?_
    have hact := hact.keeps hk₂
    refine (safe_expr hΓ n hact rhs hrhs ht hscmp.2).bind fun heap₃ v hk₃ hv => ?_
    refine (safe_setElement ((ho.keeps hk₂).keeps hk₃) (hi.keeps hk₃) hv).bind
      fun heap₄ _ hk₄ _ => safe_pure fun heap₅ hk₅ => ?_
    simpa [Stmt.declared] using hact.keeps (hk₃.trans (hk₄.trans hk₅))
  | n + 1, .call c =>
    obtain ⟨t, hc⟩ := hs
    refine (safe_call hΓ n hact c hc hscmp).bind fun heap₁ _ hk₁ _ => ?_
    exact safe_pure fun heap₂ hk₂ => by
      simpa [Stmt.declared] using hact.keeps (hk₁.trans hk₂)
  | n + 1, .ifThen _ cond body =>
    simp only [Stmt.comparesValues, Bool.and_eq_true] at hscmp
    obtain ⟨hcond, hdecl, hbody⟩ := hs
    refine (safe_expr hΓ n hact cond hcond nofun hscmp.1).bind fun heap₁ v hk₁ hv => ?_
    refine (safe_truth hv).bind fun heap₂ b hk₂ _ => ?_
    have hact := hact.keeps (hk₁.trans hk₂)
    refine Safe.ite (fun _ => ?_) fun _ => safe_pure fun _ hk => ?_
    · have hsafe := safe_stmt hΓ n hact body hbody hscmp.2
      rwa [hdecl] at hsafe
    · simpa [Stmt.declared] using hact.keeps hk
  | n + 1, .ifElse _ cond body other =>
    simp only [Stmt.comparesValues, Bool.and_eq_true] at hscmp
    obtain ⟨hcond, ⟨hdecl, hbody⟩, hdecl', hoth⟩ := hs
    refine (safe_expr hΓ n hact cond hcond nofun hscmp.1.1).bind fun heap₁ v hk₁ hv => ?_
    refine (safe_truth hv).bind fun heap₂ b hk₂ _ => ?_
    have hact := hact.keeps (hk₁.trans hk₂)
    refine Safe.ite (fun _ => ?_) fun _ => ?_
    · have hsafe := safe_stmt hΓ n hact body hbody hscmp.1.2
      rwa [hdecl] at hsafe
    · have hsafe := safe_stmt hΓ n hact other hoth hscmp.2
      rwa [hdecl'] at hsafe
  | n + 1, .loop span cond body =>
    have hloop := hs
    have hloopcmp := hscmp
    simp only [Stmt.comparesValues, Bool.and_eq_true] at hscmp
    obtain ⟨hcond, hdecl, hbody⟩ := hs
    refine (safe_expr hΓ n hact cond hcond nofun hscmp.1).bind fun heap₁ v hk₁ hv => ?_
    refine (safe_truth hv).bind fun heap₂ b hk₂ _ => ?_
    have hact := hact.keeps (hk₁.trans hk₂)
    refine Safe.ite (fun _ => ?_) fun _ => safe_pure fun _ hk => ?_
    · refine (safe_stmt hΓ n hact body hbody hscmp.2).bind fun heap₃ act' hk₃ hact' => ?_
      rw [hdecl, append_nil] at hact'
      exact safe_stmt hΓ n hact' (.loop span cond body) hloop hloopcmp
    · simpa [Stmt.declared] using hact.keeps hk

theorem safe_stmts (hΓ : Proper p Γ vs) (n : Nat)
    (hact : Activation.Typed Γ vs heap act) (ss : List Stmt)
    (hss : Stmt.TypedList Γ vs ss) (hssc : Stmt.compareValues ss = true) :
    Safe p.signature heap (stmts p n act ss) fun heap act =>
      act.Typed Γ (vs ++ ss.flatMap (·.declared)) heap := by
  match n, ss with
  | 0, _ => exact safe_outOfFuel
  | n + 1, [] => exact safe_pure fun heap' hk => by simpa using hact.keeps hk
  | n + 1, s :: ss =>
    simp only [Stmt.compareValues, Bool.and_eq_true] at hssc
    refine (safe_stmt hΓ n hact s hss.1 hssc.1).bind fun heap₁ act' hk₁ hact' => ?_
    simpa using safe_stmts (hΓ.declared hss.1) n hact' ss hss.2 hssc.2

end

end

theorem typed_start (hp : p.Typed) : (start p).Typed p.signature where
  heap := nofun
  statics id f hf := by
    have hf' : p.field? id = some f := hf
    simp only [start, hf', map_some, getD_some]
    exact hasType_initial (hp.proper.field id f hf)

theorem run_safe (hp : p.Typed) (hcmp : p.comparesValues = true) (n : Nat) (s : Store) :
    run p n ≠ .error .stuck s := by
  obtain ⟨id, hid, hprof⟩ := hp.entry
  obtain ⟨m, hm, hmp⟩ := map_eq_some_iff.1 hprof
  obtain ⟨hstat, hpar, -⟩ := Profile.mk.inj hmp
  have hargs : List.Forall₂ (HasType p.signature (start p).heap) [.null] (m.params.map (·.type)) :=
    hpar ▸ .cons trivial .nil
  have hs : Safe p.signature (start p).heap (invoke p n m .null [.null])
      (ResultTyped p.signature m.type) :=
    safe_invoke hp hcmp n hm (fun hinst => nomatch hinst.symm.trans hstat) hargs
  replace hs := hs (start p) (typed_start hp) (.refl _)
  have hrun : run p n = invoke p n m .null [.null] (start p) := by
    simp only [run, hid, bind_some, hm]
    rfl
  rw [hrun]
  intro h
  rw [h] at hs
  exact hs rfl

end Semantics

end MiniJam
