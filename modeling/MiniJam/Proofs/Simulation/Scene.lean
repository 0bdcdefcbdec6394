import MiniJam.Proofs.Simulation.Layout

/-!
# Methods that run

The words on the stack while a method runs: above the words that its caller left there lie its
arguments, the link words of the call and the local variables (`Caller.words`).  A `Scene` is a place
in a method that runs, with what the code there depends on; its `view` is that of the machine.  The
variables of the method are found where the code generator looks for them.
-/

namespace MiniJam

open List Layout

namespace Simulation

open Semantics Machine.Exec

/-- What a method goes back to. -/
structure Caller where
  /-- The words on the stack from its arguments down to the descriptors, the one on top first. -/
  below : List Cell
  this : Value
  lb : Nat
  /-- The address of the instruction after the call. -/
  next : Nat

/-- The words on the stack down to the descriptors, the one on top first. -/
def Caller.words (F : Caller) (act : Activation) : List Cell :=
  act.locals.reverse.map (fun x => .val x.2) ++
    .raw F.next :: .raw F.lb :: .val F.this :: (act.params.map .val ++ F.below)

variable {X : Target} {top cp : Nat} {ts : List Cell} {line : Int}

def Target.viewOf (X : Target) (words : List Cell) (lb : Nat) (this : Value) : View where
  lb := lb
  this := this
  under statics := words ++ (X.ground statics).reverse
  depth := words.length + X.groundWords
  length_under statics := by rw [length_append, length_reverse, X.length_ground]

/-! ### Static fields -/

section

variable {words : List Cell} {lb k : Nat} {this : Value} {id : MemberId} {n : Int}

theorem performs_static (hi : X.InstrAt cp (.make .load n .sb k))
    (hk : (staticIds X.package)[k]? = some id) :
    Performs X (ts.length + (X.viewOf words lb this).depth + 1) (X.viewOf words lb this) cp ts
      (do return (← get).statics id) fun v => .val v :: ts := by
  refine fun s => ⟨prefix_refl _, ?_⟩
  obtain ⟨above, below, hbel, hspl, -⟩ := reverse_split (X.getElem?_ground_static hk)
  rw [← View.length_stack _ ts s]
  refine grows_load hi fun m hm => hm.reads_stack (ts ++ words ++ above) below ?_ ?_
  · show ts ++ (words ++ (X.ground s.statics).reverse) = _
    rw [hspl]
    simp
  · exact (Int.zero_add _).trans (congrArg Nat.cast hbel.symm)

theorem performs_setStatic (hi : X.InstrAt cp (.make .store n .sb k))
    (hk : (staticIds X.package)[k]? = some id) (v : Value) :
    Performs X 0 (X.viewOf words lb this) cp (.val v :: ts) (setStatic id v) fun _ => ts := by
  refine fun s => ⟨prefix_refl _, ?_⟩
  obtain ⟨above, below, hbel, hspl, hset⟩ :=
    reverse_split (X.getElem?_ground_static hk : (X.ground s.statics)[k]? = _)
  have hold : ts ++ (words ++ (X.ground s.statics).reverse) =
      (ts ++ words ++ above) ++ .val (s.statics id) :: below := by
    rw [hspl]
    simp
  have hnew : ts ++ (words ++ (X.ground fun id' => if id' = id then v else s.statics id').reverse) =
      (ts ++ words ++ above) ++ .val v :: below := by
    rw [X.ground_update hk, hset]
    simp
  show Grows X 0 ⟨cp, lb, this, .val v :: (ts ++ (words ++ (X.ground s.statics).reverse)), _, _⟩
    ⟨cp + 1, lb, this, ts ++ (words ++ _), _, _⟩
  rw [hold, hnew]
  refine (steps_storeStack hi fun m _ => ?_).grows
  exact (Int.zero_add _).trans (congrArg Nat.cast hbel.symm)

end

/-! ### Calls -/

/-- The configuration at the start of a method that was called from the address `cp`. -/
def View.called (K : View) (cp : Nat) (ts : List Cell) (addr : Nat) (o : Value) (s : Store) : Config :=
  ⟨addr, (ts ++ K.under s.statics).length, o,
    .raw (cp + 1) :: .raw K.lb :: .val K.this :: (ts ++ K.under s.statics), s.heap, s.printed⟩

section

variable {K : View} {id : MemberId} {b : Code.Body} {o : Value} {n : Int}

theorem Target.addr_lt (X : Target) (hb : X.assembly.body? id = some b) :
    b.addr < X.assembly.program.size :=
  Nat.lt_of_le_of_lt (Nat.le_add_right _ _) (X.codeAt_body hb).lt

theorem View.lb_le_stack (hlb : K.lb ≤ K.depth) (ts : List Cell) (s : Store) :
    K.lb ≤ (ts ++ K.under s.statics).length := by
  rw [K.length_stack]
  omega

theorem grows_static (hi : X.InstrAt cp (.make .call n .cb b.addr))
    (hb : X.assembly.body? id = some b) (hlb : K.lb ≤ K.depth) (s : Store) :
    Grows X (ts.length + K.depth + 3) (K.config cp ts s) (K.called cp ts b.addr .null s) := by
  rw [← K.length_stack ts s]
  exact grows_call hi (X.addr_lt hb) (View.lb_le_stack hlb ts s)

theorem grows_instance (hi : X.InstrAt cp (.make .calli n .cb b.addr))
    (hb : X.assembly.body? id = some b) (hlb : K.lb ≤ K.depth) (s : Store) :
    Grows X (ts.length + K.depth + 3) (K.config cp (.val o :: ts) s)
      (K.called cp ts b.addr o s) := by
  rw [← K.length_stack ts s]
  exact grows_calli hi (X.addr_lt hb) (View.lb_le_stack hlb ts s)

/-- The number of methods and the address of one in the descriptor of a class, among the words of the
stack. -/
theorem Target.split_slot (X : Target) {c : ClassDecl} (hc : X.package.class? id.cls = some c)
    (hb : X.assembly.body? id = some b) (hstat : b.decl.isStatic = false) (ts words : List Cell)
    (lb : Nat) (this : Value) (s : Store) : ∃ (count : Nat) (above below above' below' : List Cell),
      methodSlot c id.index < count ∧
      ts ++ (X.viewOf words lb this).under s.statics = above ++ .raw count :: below ∧
      below.length = descriptorAddr X.package id.cls + 2 ∧
      ts ++ (X.viewOf words lb this).under s.statics = above' ++ .raw b.addr :: below' ∧
      below'.length = descriptorAddr X.package id.cls + 3 + methodSlot c id.index := by
  obtain ⟨count, hlt, hgrou⟩ := X.exists_slot hb hc hstat
  obtain ⟨hcnt, hslot⟩ := hgrou s.statics
  obtain ⟨above, below, hbel, hspl, -⟩ := reverse_split hcnt
  obtain ⟨above', below', hbel', hspl', -⟩ := reverse_split hslot
  have hund : ∀ {l r : List Cell} {cell : Cell}, (X.ground s.statics).reverse = l ++ cell :: r →
      ts ++ (X.viewOf words lb this).under s.statics = (ts ++ words ++ l) ++ cell :: r := by
    intro l r cell h
    simp [Target.viewOf, h]
  exact ⟨count, _, below, _, below', hlt, hund hspl, hbel, hund hspl', hbel'⟩

theorem grows_dynamic {words : List Cell} {lb : Nat} {this : Value} {c : ClassDecl} {a : Nat}
    {fields : Nat → Value} {s : Store} (hc : X.package.class? id.cls = some c)
    (hi : X.InstrAt cp (.make .calld n .zr (methodSlot c id.index)))
    (hb : X.assembly.body? id = some b) (hstat : b.decl.isStatic = false)
    (hobj : s.heap[a]? = some (.object id.cls fields)) (hlb : lb ≤ (X.viewOf words lb this).depth) :
    Grows X (ts.length + (X.viewOf words lb this).depth + 3)
      ((X.viewOf words lb this).config cp (.val (.ref a) :: ts) s)
      ((X.viewOf words lb this).called cp ts b.addr (.ref a) s) := by
  obtain ⟨count, _, below, _, below', hlt, hspl, hbel, hspl', hbel'⟩ :=
    X.split_slot hc hb hstat ts words lb this s
  rw [← View.length_stack _ ts s]
  exact grows_calld hi hobj rfl hspl hbel hspl' hbel' hlt (X.addr_lt hb)
    (View.lb_le_stack hlb ts s)

end

/-! ### Local variables and parameters -/

def Target.view (X : Target) (F : Caller) (act : Activation) : View :=
  X.viewOf (F.words act) (act.params.length + F.below.length + X.groundWords) act.this

section

variable {F : Caller} {act : Activation} {n : Int}

theorem Target.depth_view (X : Target) (F : Caller) (act : Activation) : (X.view F act).depth =
    act.locals.length + 3 + (X.view F act).lb := by
  simp only [Target.view, Target.viewOf, Caller.words, length_append, length_map,
    length_reverse, length_cons]
  omega

variable {d : LocalDecl} {v : Value} {i : Nat} {frame : Code.Frame}

theorem under_local {before after : List (LocalDecl × Value)}
    (hloc : act.locals = before ++ (d, v) :: after) (statics : MemberId → Value) :
    ∃ above below, (X.view F act).under statics = above ++ .val v :: below ∧
      below.length = (X.view F act).lb + (3 + before.length) ∧
      ∀ v', (X.view F { act with locals := before ++ (d, v') :: after }).under statics =
        above ++ .val v' :: below := by
  refine ⟨after.reverse.map fun x => .val x.2, before.reverse.map (fun x => .val x.2) ++
    .raw F.next :: .raw F.lb :: .val F.this :: (act.params.map .val ++ F.below) ++
      (X.ground statics).reverse, ?_, ?_, fun v' => ?_⟩
  · simp [Target.view, Target.viewOf, Caller.words, hloc]
  · simp [Target.view, Target.viewOf, X.length_ground]
    omega
  · simp [Target.view, Target.viewOf, Caller.words]

theorem under_param (hi : act.params[i]? = some v) (statics : MemberId → Value) :
    ∃ above below, (X.view F act).under statics = above ++ .val v :: below ∧
      (below.length : Int) = (X.view F act).lb + -((i : Int) + 1) ∧
      ∀ v', (X.view F (act.setParam i v')).under statics = above ++ .val v' :: below := by
  obtain ⟨before, after, hpar, rfl⟩ := split_of_getElem? hi
  refine ⟨act.locals.reverse.map (fun x => .val x.2) ++
    .raw F.next :: .raw F.lb :: .val F.this :: before.map .val, after.map .val ++ F.below ++
      (X.ground statics).reverse, ?_, ?_, fun v' => ?_⟩
  · simp [Target.view, Target.viewOf, Caller.words, hpar]
  · simp [Target.view, Target.viewOf, X.length_ground, hpar]
    omega
  · simp [Target.view, Target.viewOf, Caller.words, hpar, Activation.setParam]

theorem Places.nodup (h : frame.Places vs) : vs.Nodup := by
  refine nodup_iff_getElem?_ne_getElem?.2 fun i j hij hj heq => ?_
  have hget : vs[j]? = some vs[j] := getElem?_eq_getElem hj
  have hi := h i _ (heq.trans hget)
  rw [h j _ hget] at hi
  have := Option.some.inj hi
  omega

theorem exists_local (hfr : frame.Places (act.locals.map (·.1))) (hd : d ∈ act.locals.map (·.1)) :
    ∃ before v after, act.locals = before ++ (d, v) :: after ∧
      (∀ x ∈ before ++ after, x.1 ≠ d) ∧ frame.find? d = some (3 + before.length) := by
  obtain ⟨⟨d, v⟩, hmem, rfl⟩ := mem_map.1 hd
  obtain ⟨before, after, hloc⟩ := append_of_mem hmem
  have hnd := Places.nodup hfr
  rw [hloc, map_append, map_cons, nodup_middle, ← map_append, nodup_cons] at hnd
  refine ⟨before, v, after, hloc, fun x hx heq => ?_, hfr before.length d (by simp [hloc])⟩
  exact hnd.1 (mem_map.2 ⟨x, hx, heq⟩)

theorem setLocal_eq {before after : List (LocalDecl × Value)}
    (hloc : act.locals = before ++ (d, v) :: after) (hne : ∀ x ∈ before ++ after, x.1 ≠ d)
    (v' : Value) : act.setLocal d v' = { act with locals := before ++ (d, v') :: after } := by
  have hk : ∀ l : List (LocalDecl × Value), (∀ x ∈ l, x.1 ≠ d) →
      l.map (fun x => if x.1 = d then (d, v') else x) = l := by
    intro l hl
    conv_rhs => rw [← map_id l]
    exact map_congr_left fun x hx => if_neg (hl x hx)
  simp only [Activation.setLocal, hloc, map_append, map_cons, ↓reduceIte,
    hk before fun x hx => hne x (mem_append_left _ hx),
    hk after fun x hx => hne x (mem_append_right _ hx)]

theorem follows_local (hfr : frame.Places (act.locals.map (·.1))) (hd : d ∈ act.locals.map (·.1)) {offset : Nat}
    (hoff : frame.find? d = some offset) (hi : X.InstrAt cp (.make .load n .lb offset))
    (hroom : ts.length + (X.view F act).depth + 1 ≤ top) :
    Follows X top ((X.view F act).config cp ts) (expect (act.locals.lookup d)) (fun _ => True)
      fun v => (X.view F act).config (cp + 1) (.val v :: ts) := by
  obtain ⟨before, v, after, hloc, hne, hfind⟩ := exists_local hfr hd
  cases hoff.symm.trans hfind
  have hlook : act.locals.lookup d = some v :=
    lookup_eq_some_iff.2 ⟨before, after, hloc, fun x hx => by
      simpa using Ne.symm (hne x (mem_append_left _ hx))⟩
  rw [hlook]
  refine follows_pure trivial fun s hsize => ?_
  obtain ⟨above, below, hund, hbel, -⟩ := under_local (X := X) (F := F) hloc s.statics
  refine (grows_load hi fun m hm => ?_).arrives (View.room _ ts 1 hroom hsize)
  refine hm.reads_stack (ts ++ above) below ?_ ?_
  · exact (congrArg (ts ++ ·) hund).trans (append_assoc _ _ _).symm
  · have hlb : m.lb = (X.view F act).lb := hm.lb
    show m.lb + _ = _
    omega

theorem arrives_setLocal (hfr : frame.Places (act.locals.map (·.1))) (hd : d ∈ act.locals.map (·.1)) {offset : Nat}
    (hoff : frame.find? d = some offset) (hi : X.InstrAt cp (.make .store n .lb offset))
    (v : Value) (s : Store) :
    Arrives X ((X.view F act).config cp (.val v :: ts) s)
      ((X.view F (act.setLocal d v)).config (cp + 1) ts s) := by
  obtain ⟨before, old, after, hloc, hne, hfind⟩ := exists_local hfr hd
  cases hoff.symm.trans hfind
  obtain ⟨above, below, hund, hbel, hset⟩ := under_local hloc s.statics
  rw [setLocal_eq hloc hne]
  show Arrives X ⟨cp, _, _, .val v :: (ts ++ (X.view F act).under s.statics), _, _⟩
    ⟨cp + 1, (X.view F act).lb, act.this, ts ++ (X.view F _).under s.statics, _, _⟩
  rw [hund, hset, ← append_assoc, ← append_assoc]
  refine (steps_storeStack hi fun m hm => ?_).arrives
  have hlb : m.lb = (X.view F act).lb := hm.lb
  show m.lb + _ = _
  omega

theorem follows_param (hi : X.InstrAt cp (.make .load n .lb (-((i : Int) + 1))))
    (hroom : ts.length + (X.view F act).depth + 1 ≤ top) :
    Follows X top ((X.view F act).config cp ts) (expect act.params[i]?) (fun _ => True)
      fun v => (X.view F act).config (cp + 1) (.val v :: ts) := by
  refine follows_expect.after (fun _ _ => trivial) fun v s hv hsize => ?_
  obtain ⟨above, below, hund, hbel, -⟩ := under_param hv s.statics
  refine (grows_load hi fun m hm => ?_).arrives (View.room _ ts 1 hroom hsize)
  refine hm.reads_stack (ts ++ above) below ?_ ?_
  · exact (congrArg (ts ++ ·) hund).trans (append_assoc _ _ _).symm
  · exact (congrArg (· + _) hm.lb).trans hbel.symm

theorem arrives_setParam (hlt : i < act.params.length)
    (hi : X.InstrAt cp (.make .store n .lb (-((i : Int) + 1)))) (v : Value) (s : Store) :
    Arrives X ((X.view F act).config cp (.val v :: ts) s)
      ((X.view F (act.setParam i v)).config (cp + 1) ts s) := by
  obtain ⟨above, below, hund, hbel, hset⟩ := under_param (getElem?_eq_getElem hlt) s.statics
  have hlb : (X.view F (act.setParam i v)).lb = (X.view F act).lb := by
    simp [Target.view, Target.viewOf, Activation.setParam]
  show Arrives X ⟨cp, _, _, .val v :: (ts ++ (X.view F act).under s.statics), _, _⟩
    ⟨cp + 1, (X.view F (act.setParam i v)).lb, act.this, ts ++ (X.view F _).under s.statics, _, _⟩
  rw [hund, hset, hlb, ← append_assoc, ← append_assoc]
  exact (steps_storeStack hi fun m hm => (congrArg (· + _) hm.lb).trans hbel.symm).arrives

/-! ### Fields -/

variable {id : MemberId} {f : FieldDecl} {e : Entity} {o : Eval Value}

theorem follows_ownField (hf : X.package.field? id = some f)
    (he : fieldEntity? X.package id = some e) (hi : X.InstrAt cp (.make .load n e.base e.addr))
    (ho : f.isStatic = false → o = pure act.this ∨ o = throw .outOfFuel)
    (hr : ts.length + (X.view F act).depth + 1 ≤ top) :
    Follows X top ((X.view F act).config cp ts) (member X.package id o) (fun _ => True)
      fun v => (X.view F act).config (cp + 1) (.val v :: ts) := by
  rw [member, hf]
  refine Follows.ite (fun hstat => ?_) fun hstat => ?_
  · obtain ⟨k, he', hk⟩ := exists_static X.typed hf hstat
    cases he.symm.trans he'
    exact (performs_static hi hk).follows hr
  · have hstat : f.isStatic = false := by simpa using hstat
    obtain ⟨k, hb, ha, hk⟩ := exists_fieldAt X.typed hf hstat he
    rw [hb, ha] at hi
    obtain rfl | rfl := ho hstat
    · by_cases ht : act.this = .null
      · rw [ht]
        exact fun s => ends_null fun _ => meetsNull_own hi (.inl rfl) ht s
      · exact (performs_thisField hi hk ht).follows hr
    · exact follows_throw ⟨rfl, nofun⟩

theorem follows_setOwnField {C : Store → Config} {v : Eval Value}
    (hv : Follows X top C v (fun _ => True) fun v => (X.view F act).config cp (.val v :: ts))
    (hf : X.package.field? id = some f) (he : fieldEntity? X.package id = some e)
    (hi : X.InstrAt cp (.make .store n e.base e.addr))
    (ho : f.isStatic = false → o = pure act.this ∨ o = throw .outOfFuel) :
    Follows X top C (setMember X.package id o v) (fun _ => True)
      fun _ => (X.view F act).config (cp + 1) ts := by
  rw [setMember, hf]
  refine Follows.ite (fun hstat => ?_) fun hstat => ?_
  · obtain ⟨k, he', hk⟩ := exists_static X.typed hf hstat
    cases he.symm.trans he'
    exact hv.bind fun v _ => (performs_setStatic hi hk v).follows (Nat.zero_le _)
  · have hstat : f.isStatic = false := by simpa using hstat
    obtain ⟨k, hb, ha, hk⟩ := exists_fieldAt X.typed hf hstat he
    rw [hb, ha] at hi
    obtain rfl | rfl := ho hstat
    · refine hv.bind fun v _ => ?_
      by_cases ht : act.this = .null
      · rw [ht]
        exact fun s => ends_null fun _ => meetsNull_own hi (.inr rfl) ht s
      · exact (performs_setThisField hi hk ht v).follows (Nat.zero_le _)
    · exact follows_throw ⟨rfl, nofun⟩

end

/-! ### Scenes -/

def Target.env (X : Target) (params : List ParamDecl) : Code.Env := ⟨X.package, X.dynamic, params⟩

/-- A place in a method that runs. -/
structure Scene (X : Target) where
  params : List ParamDecl
  site : Site
  /-- The places of the local variables. -/
  frame : Code.Frame
  act : Activation
  caller : Caller
  at_site : (X.env params).At site
  places : frame.Places (act.locals.map (·.1))
  arity : act.params.length = site.params.length

namespace Scene

variable (S : Scene X)

def env : Code.Env := X.env S.params

def vars : List LocalDecl := S.act.locals.map (·.1)

def view : View := X.view S.caller S.act

theorem groundWords_le : X.groundWords ≤ S.view.depth := Nat.le_add_left _ _

theorem lb_le : S.view.lb ≤ S.view.depth := by
  have := X.depth_view S.caller S.act
  exact Nat.le_trans (Nat.le_add_left _ _) (Nat.le_of_eq this.symm)

variable {S} {id : MemberId} {f : FieldDecl}

section

variable (hf : S.site.sig.field id = some f)

include hf

theorem field : X.package.field? id = some f := S.at_site.field hf

theorem isStatic_field : S.env.isStatic (some (.field id)) = f.isStatic :=
  Code.isStatic_field S.at_site hf

theorem exists_fieldEntity : ∃ e, S.env.entity? S.frame (.field id) = some e :=
  Code.exists_fieldEntity S.at_site hf

end

end Scene

/-! ### Calls of a scene -/

def Target.returned (X : Target) (F : Caller) (r : Option Value) (s : Store) : Config :=
  ⟨F.next, F.lb, F.this, r.toList.map .val ++ (F.below ++ (X.ground s.statics).reverse), s.heap,
    s.printed⟩

theorem arrives_returned {F : Caller} {act : Activation} {r : Option Value} {n d : Int} (s : Store)
    (hi : X.InstrAt cp (.make .ret n .zr d)) (hn : n = r.toList.length)
    (hd : d = act.params.length) (hnext : F.next < X.assembly.program.size) :
    Arrives X ((X.view F act).config cp (r.toList.map .val) s) (X.returned F r s) := by
  have hlen : r.toList.length ≤ 1 := by cases r <;> simp
  have hstep : Steps X ⟨cp, (act.params.map Cell.val ++ (F.below ++
        (X.ground s.statics).reverse)).length, act.this, r.toList.map .val ++
        (act.locals.reverse.map fun x => .val x.2) ++ .raw F.next :: .raw F.lb :: .val F.this ::
          (act.params.map .val ++ (F.below ++ (X.ground s.statics).reverse)), s.heap, s.printed⟩
      ⟨F.next, F.lb, F.this, r.toList.map .val ++ (F.below ++ (X.ground s.statics).reverse), s.heap,
        s.printed⟩ :=
    steps_return hi (by rw [length_map]; exact hn) (by rwa [length_map])
      (by rw [length_map]; exact hd) hnext rfl
  simp only [Target.view, Target.viewOf, View.config, Caller.words, Target.returned]
  simp only [append_assoc, cons_append, length_append, length_map,
    length_reverse, X.length_ground, Nat.add_assoc] at hstep ⊢
  exact hstep.arrives

namespace Scene

def asCaller (S : Scene X) (ts : List Cell) (cp : Nat) : Caller :=
  ⟨ts ++ S.caller.words S.act, S.act.this, S.view.lb, cp + 1⟩

variable (S : Scene X) (us : List Value) (o : Value)

theorem config_asCaller (addr : Nat) (s : Store) :
    (X.view (S.asCaller ts cp) ⟨o, us, []⟩).config addr [] s =
      S.view.called cp (us.map .val ++ ts) addr o s := by
  simp [Target.view, Target.viewOf, View.config, View.called, Scene.view, Scene.asCaller,
    Caller.words, X.length_ground]
  omega

theorem depth_asCaller : (X.view (S.asCaller ts cp) ⟨o, us, []⟩).depth =
    us.length + ts.length + S.view.depth + 3 := by
  simp [Target.view, Target.viewOf, Scene.view, Scene.asCaller, Caller.words]
  omega

theorem returned_asCaller (r : Option Value) :
    X.returned (S.asCaller ts cp) r = S.view.config (cp + 1) (r.toList.map .val ++ ts) := by
  funext s
  simp [Target.returned, View.config, Scene.view, Target.view, Target.viewOf, Scene.asCaller]

variable {S us o} {id : MemberId} {b : Code.Body} {s : Store}

theorem arrives_called {c : Config} (h : Grows X ((us.map Cell.val ++ ts).length +
      S.view.depth + 3) c (S.view.called cp (us.map .val ++ ts) addr o s))
    (hroom : us.length + ts.length + S.view.depth + 3 ≤ top) (hsize : top + X.used s ≤ X.size) :
    Arrives X c ((X.view (S.asCaller ts cp) ⟨o, us, []⟩).config addr [] s) := by
  rw [config_asCaller]
  rw [length_append, length_map] at h
  exact h.arrives (Nat.le_trans (Nat.add_le_add_right hroom _) hsize)

end Scene

end Simulation

end MiniJam
