import MiniJam.Proofs.Code.Heights
import MiniJam.Proofs.Simulation.Start

/-!
# What running programs have on the stack

The words that a compiled program has on the stack while it runs are those that its code is made for.
A configuration is `Sound` if the store is well typed, the method that runs has the words that its
`Assembly.Shape` gives for the address of the next instruction, and the frames below are those of
methods that wait for a result (`Stacked`).  The current object of a method of an instance is one.

`Sound.goes` says that a machine in a sound configuration stops with its next step or comes to a
sound one, unless it calls a method of nothing by its address.
-/

namespace MiniJam

open List

namespace Simulation

open Semantics Machine.Exec

variable {X : Target} {heap heap' : List Block}

theorem exists_of_forall₂_append {α β : Type} {P : α → β → Prop} {as as' : List α} {bs : List β}
    (h : List.Forall₂ P (as ++ as') bs) :
    ∃ cs ds, bs = cs ++ ds ∧ List.Forall₂ P as cs ∧ List.Forall₂ P as' ds := by
  have ht := forall₂_take as.length h
  have hd := forall₂_drop as.length h
  rw [take_left] at ht
  rw [drop_left] at hd
  exact ⟨_, _, (take_append_drop _ _).symm, ht, hd⟩

/-! ### Words -/

/-- The blocks of a heap are in another one, at the same addresses. -/
structure Later (X : Target) (heap heap' : List Block) : Prop where
  keeps : Keeps heap heap'
  grown : X.Extends heap heap'

theorem Later.refl (heap : List Block) : Later X heap heap := ⟨.refl _, prefix_refl _⟩

theorem live_of_hasType {sig : Signature} (h : HasType sig heap v t) : Live heap v := by
  match v, t, h with
  | .int _, .int, _ | .bool _, .boolean, _ | .null, .cls _, _ | .null, .array _, _ => exact trivial
  | .ref _, .cls _, ⟨_, _, hb, _⟩ => exact (List.getElem?_eq_some_iff.1 hb).1
  | .ref _, .array _, ⟨_, hb, _⟩ => exact (List.getElem?_eq_some_iff.1 hb).1

/-- The cell is what is known about a word. -/
inductive Fits (X : Target) (heap : List Block) : Code.Slot → Cell → Prop
  | value {v : Value} {t : Ty} (h : HasType X.package.signature heap v t) :
    Fits X heap (.value t) (.val v)
  | number (n : Int) : Fits X heap (.number n) (.low n)
  | lengthAddr {v : Value} {elem : Ty} (h : HasType X.package.signature heap v (.array elem)) :
    Fits X heap .lengthAddr (.val (.int (.ofInt (X.encode heap v - -Machine.headerSize))))

theorem Fits.later (h : Fits X heap σ cell) (hl : Later X heap heap') : Fits X heap' σ cell := by
  cases h with
  | value h => exact .value (h.keeps hl.keeps)
  | number n => exact .number n
  | lengthAddr h =>
    rw [← hl.grown.encode_eq (live_of_hasType h)]
    exact .lengthAddr (h.keeps hl.keeps)

def Instance (heap : List Block) (cls : Nat) (v : Value) : Prop :=
  ∃ a b, v = .ref a ∧ heap[a]? = some b ∧ b.kind = .object cls

section

variable {cls : Nat} {v : Value} {name : String}

section

variable (h : Instance heap cls v)

include h

theorem Instance.keeps (hk : Keeps heap heap') : Instance heap' cls v := by
  obtain ⟨a, b, rfl, hb, hkind⟩ := h
  obtain ⟨b', hb', hkind'⟩ := hk a b hb
  exact ⟨a, b', rfl, hb', hkind'.trans hkind⟩

theorem Instance.ne_null : v ≠ .null := by
  obtain ⟨a, b, rfl, -⟩ := h
  exact nofun

theorem Instance.hasType (hname : X.package.signature.className cls = some name) :
    HasType X.package.signature heap v (.cls name) := by
  obtain ⟨a, b, rfl, hb, hkind⟩ := h
  exact ⟨b, cls, hb, hkind, hname⟩

theorem Instance.exists_object : ∃ a fields, v = .ref a ∧ heap[a]? = some (.object cls fields) := by
  obtain ⟨a, b, rfl, hb, hk⟩ := h
  cases b with
  | array => cases hk
  | object cls' fields =>
    cases hk
    exact ⟨a, fields, rfl, hb⟩

end

theorem instance_of_hasType (hn : X.package.signature.className cls = some name)
    (h : HasType X.package.signature heap v (.cls name)) (hv : v ≠ .null) :
    Instance heap cls v := by
  match v, h with
  | .null, _ => exact absurd rfl hv
  | .ref a, ⟨b, cls', hb, hkind, hn'⟩ =>
    obtain rfl := className_injective X.typed hn hn'
    exact ⟨a, b, rfl, hb, hkind⟩

end

/-! ### Frames -/

/-- A method and the words that it has on the stack at the addresses of its code. -/
structure Routine (X : Target) where
  id : MemberId
  decl : MethodDecl
  /-- The address of its first instruction. -/
  start : Nat
  last : Nat
  slots : Nat → List Code.Slot
  method : X.package.method? id = some decl
  shape : Assembly.Shape X.package X.entry id decl start last slots
  lt : last + 1 < X.assembly.program.size

/-- The values that a method may be called with. -/
structure Routine.Takes (R : Routine X) (heap : List Block) (this : Value) (us : List Value) :
    Prop where
  args : List.Forall₂ (HasType X.package.signature heap) us (R.decl.params.map (·.type))
  this : R.decl.isStatic = false → Instance heap R.id.cls this

theorem Routine.Takes.keeps {R : Routine X} {this : Value} (h : R.Takes heap this us)
    (hk : Keeps heap heap') : R.Takes heap' this us where
  args := h.args.imp fun _ _ hu => hu.keeps hk
  this hstat := (h.this hstat).keeps hk

/-- The words on the stack above the descriptors, when the method on top goes on at the address
`next` after it got a result of type `t`. -/
inductive Stacked (X : Target) (heap : List Block) : Nat → Nat → Value → Ty → List Cell → Prop
  | bottom : Stacked X heap X.startCode.size 0 .null .void []
  | frame (R : Routine X) {next : Nat} {this : Value} {t : Ty} {σ : List Code.Slot}
    {ops : List Cell} {us : List Value} {next' lb' : Nat} {this' : Value} {rest : List Cell}
    (hnext : R.start ≤ next ∧ next ≤ R.last) (hσ : R.slots next = Code.Slot.ofResult t ++ σ)
    (hops : List.Forall₂ (Fits X heap) σ ops) (htakes : R.Takes heap this us)
    (hrest : Stacked X heap next' lb' this' R.decl.type rest) :
    Stacked X heap next (us.length + rest.length + X.groundWords) this t
      (ops ++ .raw next' :: .raw lb' :: .val this' :: (us.map .val ++ rest))

theorem Stacked.later {next lb : Nat} {this : Value} {words : List Cell}
    (h : Stacked X heap next lb this t words) (hl : Later X heap heap') :
    Stacked X heap' next lb this t words := by
  induction h with
  | bottom => exact .bottom
  | frame R hnext hσ hops htak _ ih =>
    exact .frame R hnext hσ (hops.imp fun _ _ h => h.later hl) (htak.keeps hl.keeps) ih

/-- The view of the machine while a method runs. -/
inductive Runs (X : Target) (heap : List Block) (R : Routine X) : View → Prop
  | mk {this : Value} {us : List Value} {next lb : Nat} {this' : Value} {rest : List Cell}
    (htakes : R.Takes heap this us) (hrest : Stacked X heap next lb this' R.decl.type rest) :
    Runs X heap R (X.viewOf (.raw next :: .raw lb :: .val this' :: (us.map .val ++ rest))
      (us.length + rest.length + X.groundWords) this)

section

variable {R : Routine X} {K : View}

section

variable (h : Runs X heap R K)

include h

theorem Runs.later (hl : Later X heap heap') : Runs X heap' R K := by
  obtain ⟨htak, hrest⟩ := h
  exact .mk (htak.keeps hl.keeps) (hrest.later hl)

theorem Runs.this (hstat : R.decl.isStatic = false) : Instance heap R.id.cls K.this := by
  obtain ⟨htak, -⟩ := h
  exact htak.this hstat

theorem Runs.depth : K.depth = K.lb + 3 := by
  obtain ⟨-, -⟩ := h
  simp only [Target.viewOf, length_cons, length_append, length_map]
  omega

theorem Runs.groundWords_le : X.groundWords ≤ K.depth := by
  obtain ⟨-, -⟩ := h
  exact Nat.le_add_left _ _

theorem Runs.viewOf : ∃ words lb this, K = X.viewOf words lb this := by
  obtain ⟨-, -⟩ := h
  exact ⟨_, _, _, rfl⟩

end

end

/-- A method runs with words on the stack, in a well-typed store. -/
structure At (R : Routine X) (σ : List Code.Slot) (K : View) (ops : List Cell) (s : Store) :
    Prop where
  runs : Runs X s.heap R K
  ops : List.Forall₂ (Fits X s.heap) σ ops
  store : s.Typed X.package.signature

/-- A method runs at an address with the words `σ` on the stack. -/
def Stands (R : Routine X) (x : Nat) (σ : List Code.Slot) (c : Config) : Prop :=
  ∃ K ops s, c = K.config x ops s ∧ At R σ K ops s

/-- A configuration of a program that runs. -/
inductive Sound (X : Target) : Config → Prop
  | running (R : Routine X) {x : Nat} {c : Config} (hx : R.start ≤ x ∧ x ≤ R.last)
    (h : Stands R x (R.slots x) c) : Sound X c
  | done {s : Store} : Sound X ((X.viewOf [] 0 .null).config X.startCode.size [] s)

/-! ### Operations -/

section

variable {R : Routine X} {K : View} {σ : List Code.Slot} {ops rest ts : List Cell} {s : Store}
  {x need : Nat} {t : Ty} {n : Int}

theorem At.later {s' : Store} (h : At R σ K ops s) (hl : Later X s.heap s'.heap)
    (hs : s'.Typed X.package.signature) : At R σ K ops s' :=
  ⟨h.runs.later hl, h.ops.imp fun _ _ hop => hop.later hl, hs⟩

theorem At.push (h : At R σ K ops s) (hcell : Fits X s.heap w cell) :
    Stands R x (w :: σ) (K.config x (cell :: ops) s) :=
  ⟨K, cell :: ops, s, rfl, h.runs, .cons hcell h.ops, h.store⟩

theorem At.pop (h : At R (w :: σ) K ops s) :
    ∃ cell rest, ops = cell :: rest ∧ Fits X s.heap w cell ∧ At R σ K rest s := by
  obtain ⟨cell, rest, hcell, hrest, rfl⟩ := forall₂_cons_left_iff.1 h.ops
  exact ⟨cell, rest, rfl, hcell, h.runs, hrest, h.store⟩

theorem At.pop_value (h : At R (.value t :: σ) K ops s) :
    ∃ v rest, ops = .val v :: rest ∧ HasType X.package.signature s.heap v t ∧ At R σ K rest s := by
  obtain ⟨cell, rest, rfl, hcell, hrest⟩ := h.pop
  obtain ⟨hv⟩ := hcell
  exact ⟨_, rest, rfl, hv, hrest⟩

theorem At.pop_number {d : Int} (h : At R (.number d :: σ) K ops s) :
    ∃ rest, ops = .low d :: rest ∧ At R σ K rest s := by
  obtain ⟨cell, rest, rfl, hcell, hrest⟩ := h.pop
  cases hcell
  exact ⟨rest, rfl, hrest⟩

theorem Performs.goes {α : Type} {f : Eval α} {ts' : α → List Cell} {Q : List Block → α → Prop}
    {P : Config → Prop} (h : Performs X need K x ts f ts')
    (hsafe : Safe X.package.signature s.heap f Q) (hs : s.Typed X.package.signature)
    (hP : ∀ a s', Later X s.heap s'.heap → s'.Typed X.package.signature → Q s'.heap a →
      P (K.config (x + 1) (ts' a) s')) : Goes X (K.config x ts s) P := by
  have h := h s
  have hsafe := hsafe s hs (.refl _)
  cases hf : f s with
  | ok a s' =>
    rw [hf] at h hsafe
    exact h.2.goes_to (hP a s' ⟨hsafe.2.1, h.1⟩ hsafe.1 hsafe.2.2)
  | error e s' =>
    rw [hf] at h hsafe
    obtain ⟨-, hstuc | ⟨-, href⟩ | ⟨why, -, hstop⟩⟩ := h
    · exact absurd hstuc hsafe
    · exact href.goes
    · exact hstop.goes

theorem At.goes_value {f : Eval Value} (h : At R σ K rest s)
    (hper : Performs X need K x ts f fun v => .val v :: rest)
    (hsafe : Yields X.package.signature s.heap f t) :
    Goes X (K.config x ts s) (Stands R (x + 1) (.value t :: σ)) :=
  hper.goes hsafe h.store fun _ _ hl hs hv => (h.later hl hs).push (.value hv)

theorem At.goes_unit {f : Eval Unit} (h : At R σ K rest s)
    (hper : Performs X need K x ts f fun _ => rest)
    (hsafe : Safe X.package.signature s.heap f fun _ _ => True) :
    Goes X (K.config x ts s) (Stands R (x + 1) σ) :=
  hper.goes hsafe h.store fun _ s' hl hs _ => ⟨K, rest, s', rfl, h.later hl hs⟩

/-! ### Variables -/

theorem At.exists_var {i : Nat} (h : At R σ K ops s) (hi : σ.reverse[i]? = some (.value t)) :
    ∃ above v below, ops = above ++ .val v :: below ∧ below.length = i ∧
      HasType X.package.signature s.heap v t ∧
      ∀ u, HasType X.package.signature s.heap u t → At R σ K (above ++ .val u :: below) s := by
  obtain ⟨σ₁, σ₂, hσ, rfl⟩ := split_of_getElem? hi
  obtain rfl : σ = σ₂.reverse ++ .value t :: σ₁.reverse := by
    rw [← reverse_reverse σ, hσ]
    simp
  obtain ⟨above, rest, rfl, habov, hrest⟩ := exists_of_forall₂_append h.ops
  obtain ⟨cell, below, hcell, hbel, rfl⟩ := forall₂_cons_left_iff.1 hrest
  obtain ⟨hv⟩ := hcell
  refine ⟨above, _, below, rfl, ?_, hv, fun u hu => ⟨h.runs, ?_, h.store⟩⟩
  · rw [← hbel.length_eq, length_reverse]
  · exact rel_append habov (.cons (.value hu) hbel)

theorem Runs.exists_param {i : Nat} (h : Runs X heap R K)
    (hi : (R.decl.params.map (·.type))[i]? = some t) :
    ∃ above v below, HasType X.package.signature heap v t ∧
      (below.length + X.groundWords : Int) = K.lb + -((i : Int) + 1) ∧
      (∀ statics, K.under statics = above ++ .val v :: (below ++ (X.ground statics).reverse)) ∧
      ∀ u, HasType X.package.signature heap u t → ∃ K' : View, Runs X heap R K' ∧ K'.lb = K.lb ∧
        K'.this = K.this ∧
        ∀ statics, K'.under statics = above ++ .val u :: (below ++ (X.ground statics).reverse) := by
  obtain @⟨this, us, next, lb, this', rest, htak, hrest⟩ := h
  obtain ⟨v, hv, hvt⟩ := getElem?_of_forall₂ htak.args hi
  obtain ⟨us₁, us₂, rfl, rfl⟩ := split_of_getElem? hv
  have htak' : ∀ u, HasType X.package.signature heap u t → R.Takes heap this (us₁ ++ u :: us₂) := by
    refine fun u hu => ⟨?_, htak.this⟩
    have hset := forall₂_set htak.args hi hu
    simpa using hset
  refine ⟨.raw next :: .raw lb :: .val this' :: us₁.map .val, v, us₂.map .val ++ rest, hvt, ?_, ?_,
    fun u hu => ⟨_, .mk (htak' u hu) hrest, ?_, rfl, ?_⟩⟩
  · simp only [Target.viewOf, length_append, length_map, length_cons]
    omega
  · simp [Target.viewOf]
  · simp [Target.viewOf]
  · simp [Target.viewOf]

theorem exists_className {id : MemberId} {f : FieldDecl} (hf : X.package.field? id = some f) :
    ∃ name, X.package.signature.className id.cls = some name := by
  obtain ⟨c, hc, -⟩ := Option.bind_eq_some_iff.1 hf
  exact ⟨c.name, congrArg (Option.map _) hc⟩

theorem At.instance (h : At R σ K ops s) {id : MemberId} {f : FieldDecl}
    (hreac : (R.decl.site X.package.signature R.id.cls).Reaches id.cls f.isStatic)
    (hstat : f.isStatic = false) : Instance s.heap id.cls K.this := by
  obtain ⟨hcls, hmeth⟩ := hreac.resolve_left (by simp [hstat])
  rw [hcls]
  exact h.runs.this hmeth

theorem At.goes_load {base : Reg} (h : At R σ K ops s)
    (hpl : Code.Place X.package (R.decl.site X.package.signature R.id.cls) σ t base addr)
    (hi : X.InstrAt x (.make .load n base addr)) :
    Goes X (K.config x ops s) (Stands R (x + 1) (.value t :: σ)) := by
  cases hpl with
  | @var i hvar =>
    obtain ⟨above, v, below, rfl, rfl, hv, -⟩ := h.exists_var hvar
    have hdep := h.runs.depth
    have hund := K.length_under s.statics
    refine (grows_load hi fun m hm => ?_).goes_to (h.push (.value hv))
    refine hm.reads_stack above (below ++ K.under s.statics) (by simp) ?_
    have hlb : m.lb = K.lb := hm.lb
    rw [length_append, hund]
    show m.lb + _ = _
    omega
  | @param i hpar =>
    obtain ⟨above, v, below, hv, hlen, hund, -⟩ := h.runs.exists_param hpar
    refine (grows_load hi fun m hm => ?_).goes_to (h.push (.value hv))
    refine hm.reads_stack (ops ++ above) (below ++ (X.ground s.statics).reverse) ?_ ?_
    · simp [hund]
    · rw [length_append, length_reverse, X.length_ground]
      exact (congrArg (· + _) hm.lb).trans hlen.symm
  | @field id f e hf he ht hreac =>
    subst ht
    cases hstat : f.isStatic with
    | true =>
      obtain ⟨k, he', hk⟩ := exists_static X.typed hf hstat
      cases he.symm.trans he'
      obtain ⟨words, lb, this, rfl⟩ := h.runs.viewOf
      exact h.goes_value (performs_static hi hk) fun _ hs _ => ⟨hs, .refl _, hs.statics _ _ hf⟩
    | false =>
      obtain ⟨k, hb, ha, hk⟩ := exists_fieldAt X.typed hf hstat he
      rw [hb, ha] at hi
      have hthis := h.instance hreac hstat
      obtain ⟨name, hn⟩ := exists_className hf
      exact h.goes_value (performs_thisField hi hk hthis.ne_null)
        (safe_field X.typed hf hn (hthis.hasType hn))

theorem At.goes_store {base : Reg} (h : At R (.value t :: σ) K ops s)
    (hpl : Code.Place X.package (R.decl.site X.package.signature R.id.cls) σ t base addr)
    (hi : X.InstrAt x (.make .store n base addr)) :
    Goes X (K.config x ops s) (Stands R (x + 1) σ) := by
  obtain ⟨v, rest, rfl, hv, hr⟩ := h.pop_value
  cases hpl with
  | @var i hvar =>
    obtain ⟨above, old, below, rfl, rfl, -, hset⟩ := hr.exists_var hvar
    have hdep := h.runs.depth
    have hund := K.length_under s.statics
    have hsto : Steps X ⟨x, K.lb, K.this, .val v :: (above ++ .val old :: (below ++
        K.under s.statics)), s.heap, s.printed⟩ ⟨x + 1, K.lb, K.this, above ++ .val v :: (below ++
        K.under s.statics), s.heap, s.printed⟩ := by
      refine steps_storeStack hi fun m hm => ?_
      have hlb : m.lb = K.lb := hm.lb
      rw [length_append, hund]
      show m.lb + _ = _
      omega
    have hold : K.config x (.val v :: (above ++ .val old :: below)) s = ⟨x, K.lb, K.this,
        .val v :: (above ++ .val old :: (below ++ K.under s.statics)), s.heap, s.printed⟩ := by
      simp [View.config]
    rw [hold]
    exact hsto.goes_to ⟨K, _, s, by simp [View.config], hset v hv⟩
  | @param i hpar =>
    obtain ⟨above, old, below, -, hlen, hund, hset⟩ := h.runs.exists_param hpar
    obtain ⟨K', hK', hlb', hthis', hund'⟩ := hset v hv
    have hsto : Steps X ⟨x, K.lb, K.this, .val v :: (rest ++ above ++ .val old :: (below ++
        (X.ground s.statics).reverse)), s.heap, s.printed⟩ ⟨x + 1, K.lb, K.this, rest ++ above ++
        .val v :: (below ++ (X.ground s.statics).reverse), s.heap, s.printed⟩ := by
      refine steps_storeStack hi fun m hm => ?_
      rw [length_append, length_reverse, X.length_ground]
      exact (congrArg (· + _) hm.lb).trans hlen.symm
    have hold : K.config x (.val v :: rest) s = ⟨x, K.lb, K.this, .val v :: (rest ++ above ++
        .val old :: (below ++ (X.ground s.statics).reverse)), s.heap, s.printed⟩ := by
      simp [View.config, hund]
    rw [hold]
    refine hsto.goes_to ⟨K', rest, s, ?_, hK', hr.ops, h.store⟩
    simp [View.config, hund', hlb', hthis']
  | @field id f e hf he ht hreac =>
    subst ht
    cases hstat : f.isStatic with
    | true =>
      obtain ⟨k, he', hk⟩ := exists_static X.typed hf hstat
      cases he.symm.trans he'
      obtain ⟨words, lb, this, rfl⟩ := h.runs.viewOf
      exact hr.goes_unit (performs_setStatic hi hk v) (safe_setStatic hf hv)
    | false =>
      obtain ⟨k, hb, ha, hk⟩ := exists_fieldAt X.typed hf hstat he
      rw [hb, ha] at hi
      have hthis := h.instance hreac hstat
      obtain ⟨name, hn⟩ := exists_className hf
      exact hr.goes_unit (performs_setThisField hi hk hthis.ne_null v)
        (safe_setField X.typed hf hn (hthis.hasType hn) hv)

end

end Simulation

end MiniJam
