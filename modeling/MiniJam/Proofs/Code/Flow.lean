import MiniJam.Proofs.Code.Sealed
import MiniJam.Proofs.Semantics.Safe

/-!
# What lies on the stack

The words that a method has above the link words of its frame are known for every instruction of its
code: they are values of known types, and a few numbers that only the machine uses.  A list of
`Slot`s, the one on top first, says what they are.  `Turns p Γ item σ τ` is the rule for one
instruction of a method at `Γ`: it finds the words `σ` and leaves `τ`.  `Flow` puts these rules
together: there are words for every address of a piece of code such that each instruction turns
those at its address into those at the next one, and jumps go to addresses with the same words.

`flow_ofMethod` says that the code of a well-typed method in which only values are compared has a
flow.  The methods of instances are called by their addresses here.
-/

namespace MiniJam

open List Option Layout

theorem Layout.total_sizes {α : Type} {l : List α} {type : α → Ty} (h : ∀ x ∈ l, (type x).IsValue) :
    total (l.map fun x => (type x).size) = l.length := by
  induction l with
  | nil => rfl
  | cons x l ih =>
    have hx := (h x mem_cons_self).size
    have ih := ih fun x hx => h x (mem_cons_of_mem _ hx)
    simp only [map_cons, total, hx, length_cons] at ih ⊢
    omega

theorem Layout.paramWords_eq {p : Package} (hp : p.Typed) {id : MemberId} {m : MethodDecl}
    (hm : p.method? id = some m) :
    paramWords m = m.params.length := by
  refine total_sizes fun d hd => ?_
  have hπ : p.signature.method id = some m.profile := congrArg (Option.map _) hm
  exact hp.proper.param id _ hπ d.type (mem_map_of_mem hd)

namespace Code

/-! ### Instructions -/

/-- What is known about a word on the stack. -/
inductive Slot where
  | value (t : Ty)
  | number (n : Int)
  /-- The address of the word in front of an array that holds its length. -/
  | lengthAddr

/-- What a call with a result of type `t` leaves on the stack. -/
def Slot.ofResult (t : Ty) : List Slot := List.replicate t.size (.value t)

@[simp] theorem Slot.length_ofResult (t : Ty) : (Slot.ofResult t).length = t.size := by
  simp [Slot.ofResult]

theorem Slot.ofResult_eq {t : Ty} (h : t.IsValue) : Slot.ofResult t = [.value t] := by
  simp [Slot.ofResult, h.size]

def Slot.ofParams (m : MethodDecl) : List Slot := m.params.map fun d => .value d.type

/-- A variable of type `t` lives at `addr[base]`, when the words `σ` are on the stack. -/
inductive Place (p : Package) (Γ : Site) (σ : List Slot) (t : Ty) : Reg → Int → Prop
  | var {i : Nat} (h : σ.reverse[i]? = some (.value t)) : Place p Γ σ t .lb (3 + i : Nat)
  | param {i : Nat} (h : Γ.params[i]? = some t) : Place p Γ σ t .lb (-(i + 1))
  | field {id : MemberId} {f : FieldDecl} {e : Entity} (hf : p.field? id = some f)
    (he : fieldEntity? p id = some e) (ht : f.type = t) (h : Γ.Reaches id.cls f.isStatic) :
    Place p Γ σ t e.base e.addr

/-- An instruction of a method at `Γ` turns the words on the stack into others. -/
inductive Turns (p : Package) (Γ : Site) : Item → List Slot → List Slot → Prop
  | int {line n : Int} {σ : List Slot} (h : minWord ≤ n ∧ n ≤ maxWord) :
    Turns p Γ ⟨.make .loadl 0 .zr n, line, none⟩ σ (.value .int :: σ)
  | bool {line : Int} {σ : List Slot} (b : Bool) :
    Turns p Γ ⟨.make .loadl 0 .zr (if b then Machine.trueWord else Machine.falseWord), line, none⟩ σ
      (.value .boolean :: σ)
  | number {line n : Int} {σ : List Slot} :
    Turns p Γ ⟨.make .loadl 0 .zr n, line, none⟩ σ (.number n :: σ)
  | this {line : Int} {σ : List Slot} {name : String} (hstatic : Γ.isStatic = false)
    (hname : p.signature.className Γ.cls = some name) :
    Turns p Γ ⟨.make .loada 0 .ob 0, line, none⟩ σ (.value (.cls name) :: σ)
  | descriptor {line : Int} {σ : List Slot} (cls : Nat) :
    Turns p Γ ⟨.make .loada 0 .sb (descriptorAddr p cls), line, none⟩ σ
      (.number (descriptorAddr p cls) :: σ)
  | load {line : Int} {σ : List Slot} {t : Ty} {n : Nat} {base : Reg} {addr : Int}
    (h : Place p Γ σ t base addr) :
    Turns p Γ ⟨.make .load n base addr, line, none⟩ σ (.value t :: σ)
  | store {line : Int} {σ : List Slot} {t : Ty} {n : Nat} {base : Reg} {addr : Int}
    (h : Place p Γ σ t base addr) :
    Turns p Γ ⟨.make .store n base addr, line, none⟩ (.value t :: σ) σ
  | copy {line : Int} {σ : List Slot} {s : Slot} :
    Turns p Γ ⟨.make .load 1 .st (-1), line, none⟩ (s :: σ) (s :: s :: σ)
  | unary {line : Int} {σ : List Slot} (op : Operator) :
    Turns p Γ ⟨.ofPrim (unaryPrim op), line, none⟩ (.value (Typing.unaryType op) :: σ)
      (.value (Typing.unaryType op) :: σ)
  | binary {line : Int} {σ : List Slot} {op : Operator} {q : Prim} {u t : Ty}
    (hq : binaryPrim? op = some q) (hop : op.Typed u t) :
    Turns p Γ ⟨.ofPrim q, line, none⟩ (.value u :: .value u :: σ) (.value t :: σ)
  | newObject {line : Int} {σ : List Slot} {cls : Nat} {c : ClassDecl}
    (hc : p.class? cls = some c) :
    Turns p Γ ⟨.ofPrim .newobj, line, none⟩
      (.number (instanceWords c) :: .number (descriptorAddr p cls) :: σ)
      (.value (.cls c.name) :: σ)
  | newArray {line : Int} {σ : List Slot} {elem : Ty} (h : (Ty.array elem).IsValue) :
    Turns p Γ ⟨.ofPrim .newarr, line, none⟩ (.value .int :: σ) (.value (.array elem) :: σ)
  | lengthAddr {line : Int} {σ : List Slot} {elem : Ty} :
    Turns p Γ ⟨.ofPrim .sub, line, none⟩
      (.number (-Machine.headerSize) :: .value (.array elem) :: σ) (.lengthAddr :: σ)
  | length {line : Int} {σ : List Slot} :
    Turns p Γ ⟨.make .loadi 1 .zr 0, line, none⟩ (.lengthAddr :: σ) (.value .int :: σ)
  | element {line : Int} {σ : List Slot} {t : Ty} :
    Turns p Γ ⟨.ofPrim .arrayref, line, none⟩ (.value .int :: .value (.array t) :: σ)
      (.value t :: σ)
  | setElement {line : Int} {σ : List Slot} {t : Ty} :
    Turns p Γ ⟨.ofPrim .arrayupd, line, none⟩ (.value t :: .value .int :: .value (.array t) :: σ) σ
  | field {line : Int} {σ : List Slot} {id : MemberId} {f : FieldDecl} {e : Entity} {name : String}
    (hf : p.field? id = some f) (hstatic : f.isStatic = false)
    (he : fieldEntity? p id = some e) (hname : p.signature.className id.cls = some name) :
    Turns p Γ ⟨.ofPrim .fieldref, line, none⟩ (.number e.addr :: .value (.cls name) :: σ)
      (.value f.type :: σ)
  | setField {line : Int} {σ : List Slot} {id : MemberId} {f : FieldDecl} {e : Entity}
    {name : String} (hf : p.field? id = some f) (hstatic : f.isStatic = false)
    (he : fieldEntity? p id = some e) (hname : p.signature.className id.cls = some name) :
    Turns p Γ ⟨.ofPrim .fieldupd, line, none⟩
      (.value f.type :: .number e.addr :: .value (.cls name) :: σ) σ
  | print {line : Int} {σ : List Slot} :
    Turns p Γ ⟨.ofPrim .putintnl, line, none⟩ (.value .int :: σ) σ
  | pop {line : Int} {σ : List Slot} (gone : List Slot) :
    Turns p Γ ⟨.make .pop 0 .zr gone.length, line, none⟩ (gone ++ σ) σ
  | call {line : Int} {σ : List Slot} {id : MemberId} {m : MethodDecl} (hm : p.method? id = some m)
    (hstatic : m.isStatic = true) :
    Turns p Γ ⟨.make .call 0 .cb 0, line, some id⟩ (Slot.ofParams m ++ σ)
      (Slot.ofResult m.type ++ σ)
  | invoke {line : Int} {σ : List Slot} {id : MemberId} {m : MethodDecl} {name : String}
    (hm : p.method? id = some m) (hstatic : m.isStatic = false)
    (hname : p.signature.className id.cls = some name) :
    Turns p Γ ⟨.make .calli 0 .cb 0, line, some id⟩ (.value (.cls name) :: (Slot.ofParams m ++ σ))
      (Slot.ofResult m.type ++ σ)

/-- An instruction may follow the words `σ` when the next one follows `τ`; it may jump where `lands`
allows it. -/
inductive Moves (p : Package) (Γ : Site) (lands : Nat → List Slot → Prop) (σ τ : List Slot) :
    Item → Prop
  | turn {item : Item} (h : Turns p Γ item σ τ) : Moves p Γ lands σ τ item
  | jump {line : Int} {y : Nat} (h : lands y σ) :
    Moves p Γ lands σ τ ⟨.make .jump 0 .cb y, line, none⟩
  | branch {line n : Int} {y : Nat} (hσ : σ = .value .boolean :: τ) (h : lands y τ) :
    Moves p Γ lands σ τ ⟨.make .jumpif n .cb y, line, none⟩

variable {item : Item} {id : MemberId} {m : MethodDecl}

theorem Moves.mono {Γ : Site} (h : Moves p Γ lands σ τ item)
    (hlan : ∀ y ρ, lands y ρ → lands' y ρ) : Moves p Γ lands' σ τ item := by
  cases h with
  | turn h => exact .turn h
  | jump h => exact .jump (hlan _ _ h)
  | branch hσ h => exact .branch hσ (hlan _ _ h)

/-! ### Pieces of code -/

/-- A jump to an address between `lo` and `hi` finds the words that `S` gives for it; other jumps
are those that `exits` allows. -/
def Lands (exits : Nat → List Slot → Prop) (S : Nat → List Slot) (lo hi y : Nat) (σ : List Slot) :
    Prop :=
  lo ≤ y ∧ y ≤ hi ∧ S y = σ ∨ exits y σ

/-- The code at the address `pc` turns the words `σ` into `τ` if it is run to its end.  The local
variables in `vars` start where the height of the stack is their place. -/
def Flow (p : Package) (Γ : Site) (exits : Nat → List Slot → Prop) (pc : Nat) (code : Code)
    (vars : List (LocalDecl × Nat × Nat)) (σ τ : List Slot) : Prop :=
  ∃ S : Nat → List Slot, S pc = σ ∧ S (pc + code.size) = τ ∧ (∀ k item, code.items[k]? = some item →
      Moves p Γ (Lands exits S pc (pc + code.size)) (S (pc + k)) (S (pc + k + 1)) item) ∧
    ∀ x ∈ vars, pc ≤ x.2.1 ∧ x.2.1 ≤ pc + code.size ∧ 3 + (S x.2.1).length = x.2.2

variable {p : Package} {Γ : Site} {exits exits' : Nat → List Slot → Prop} {pc : Nat} {a b : Code}
  {vars vars' : List (LocalDecl × Nat × Nat)} {σ ρ τ : List Slot}

theorem flow_empty : Flow p Γ exits pc empty [] σ σ := ⟨fun _ => σ, rfl, rfl, nofun, nofun⟩

theorem flow_one (h : ∀ S : Nat → List Slot, S pc = σ → S (pc + 1) = τ →
      Moves p Γ (Lands exits S pc (pc + 1)) σ τ item) :
    Flow p Γ exits pc ⟨[item], []⟩ [] σ τ := by
  let S : Nat → List Slot := fun x => if x = pc then σ else τ
  have hpc : S pc = σ := if_pos rfl
  have hn : S (pc + 1) = τ := if_neg (by omega)
  refine ⟨S, hpc, hn, fun k item' hk => ?_, nofun⟩
  obtain ⟨rfl, rfl⟩ : k = 0 ∧ item = item' := by
    cases k with
    | zero => exact ⟨rfl, by simpa using hk⟩
    | succ k => simp at hk
  rw [Nat.add_zero, hpc, hn]
  exact h S hpc hn

theorem flow_turn (h : Turns p Γ item σ τ) : Flow p Γ exits pc ⟨[item], []⟩ [] σ τ :=
  flow_one fun _ _ _ => .turn h

theorem flow_jump (line : Int) (h : exits y σ) :
    Flow p Γ exits pc (one line .jump 0 .cb y) [] σ τ :=
  flow_one fun _ _ _ => .jump (.inr h)

theorem flow_branch (line n : Int) (h : exits y σ) :
    Flow p Γ exits pc (one line .jumpif n .cb y) [] (.value .boolean :: σ) σ :=
  flow_one fun _ _ _ => .branch rfl (.inr h)

theorem Flow.close (h : Flow p Γ exits' pc a vars σ τ)
    (hexits : ∀ y ρ, exits' y ρ → exits y ρ ∨ y = pc ∧ ρ = σ ∨ y = pc + a.size ∧ ρ = τ) :
    Flow p Γ exits pc a vars σ τ := by
  obtain ⟨S, hsta, hend, hmov, hvars⟩ := h
  refine ⟨S, hsta, hend, fun k item hk => (hmov k item hk).mono ?_, hvars⟩
  rintro y ρ (hin | he)
  · exact .inl hin
  obtain he | ⟨rfl, rfl⟩ | ⟨rfl, rfl⟩ := hexits y ρ he
  · exact .inr he
  · exact .inl ⟨Nat.le_refl _, Nat.le_add_right _ _, hsta⟩
  · exact .inl ⟨Nat.le_add_right _ _, Nat.le_refl _, hend⟩

theorem Flow.meet (ha : Flow p Γ exits' pc a vars σ ρ)
    (hb : Flow p Γ exits' (pc + a.size) b vars' ρ τ)
    (hexits : ∀ y ρ', exits' y ρ' → exits y ρ' ∨ y = pc + a.size ∧ ρ' = ρ) :
    Flow p Γ exits pc (a ++ b) (vars ++ vars') σ τ := by
  obtain ⟨S, hsta, hend, hmov, hv⟩ := ha
  obtain ⟨S', hsta', hend', hmov', hv'⟩ := hb
  -- The words are those of the first piece up to the place where the second one starts.
  let T : Nat → List Slot := fun x => if x < pc + a.size then S x else S' x
  have hl : ∀ x, x ≤ pc + a.size → T x = S x := by
    intro x hx
    by_cases hlt : x < pc + a.size
    · exact if_pos hlt
    · obtain rfl : x = pc + a.size := by omega
      exact (if_neg hlt).trans (hsta'.trans hend.symm)
  have hrt : ∀ x, pc + a.size ≤ x → T x = S' x := fun x hx => if_neg (Nat.not_lt.2 hx)
  have hmeet : T (pc + a.size) = ρ := (hrt _ (Nat.le_refl _)).trans hsta'
  rw [Nat.add_assoc] at hend' hmov' hv'
  have hlan : ∀ {lo hi : Nat} {R : Nat → List Slot}, pc ≤ lo → hi ≤ pc + (a.size + b.size) →
      (∀ x, lo ≤ x → x ≤ hi → T x = R x) → ∀ y ρ', Lands exits' R lo hi y ρ' →
      Lands exits T pc (pc + (a.size + b.size)) y ρ' := by
    rintro lo hi R hlo hhi hR y ρ' (⟨hly, hyh, rfl⟩ | he)
    · exact .inl ⟨by omega, by omega, hR y hly hyh⟩
    obtain he | ⟨rfl, rfl⟩ := hexits y ρ' he
    · exact .inr he
    · exact .inl ⟨by omega, by omega, hmeet⟩
  refine ⟨T, (hl pc (by omega)).trans hsta, ?_, fun k item hk => ?_, fun x hx => ?_⟩
  · rw [size_append, hrt _ (by omega), hend']
  · rw [size_append]
    rw [items_append, getElem?_append] at hk
    split at hk
    · have hlt : k < a.size := by assumption
      rw [hl _ (by omega), hl _ (by omega)]
      exact (hmov k item hk).mono (hlan (Nat.le_refl _) (by omega) fun x _ hx => hl x hx)
    · have hle : a.size ≤ k := Nat.not_lt.1 ‹¬ k < a.items.length›
      have hm := hmov' (k - a.size) item hk
      rw [show pc + a.size + (k - a.size) = pc + k by omega] at hm
      rw [hrt _ (by omega), hrt _ (by omega)]
      exact hm.mono (hlan (Nat.le_add_right _ _) (Nat.le_refl _) fun x hx _ => hrt x hx)
  · rw [size_append]
    obtain hx | hx := mem_append.1 hx
    · obtain ⟨hlo, hhi, hht⟩ := hv x hx
      exact ⟨hlo, by omega, by rw [hl _ hhi]; exact hht⟩
    · obtain ⟨hlo, hhi, hht⟩ := hv' x hx
      exact ⟨by omega, hhi, by rw [hrt _ hlo]; exact hht⟩

theorem Flow.append (ha : Flow p Γ exits pc a vars σ ρ)
    (hb : Flow p Γ exits (pc + a.size) b vars' ρ τ) :
    Flow p Γ exits pc (a ++ b) (vars ++ vars') σ τ :=
  ha.meet hb fun _ _ => .inl

/-! ### Jumps -/

section

variable {line n : Int} {start done y : Nat} {test code other : Code}

theorem flow_closed (hy : y = pc + a.size)
    (h : Flow p Γ (fun z ρ => exits z ρ ∨ z = y ∧ ρ = τ) pc a vars σ τ) :
    Flow p Γ exits pc a vars σ τ := by
  refine h.close ?_
  rintro z ρ (hexit | ⟨rfl, rfl⟩)
  · exact .inl hexit
  · exact .inr (.inr ⟨hy, rfl⟩)

theorem flow_tested (line n : Int) (hy : exits y ρ)
    (htest : Flow p Γ exits pc test [] σ (.value .boolean :: ρ))
    (hcode : Flow p Γ exits (pc + test.size + 1) code vars ρ τ) :
    Flow p Γ exits pc (test ++ one line .jumpif n .cb y ++ code) vars σ τ := by
  refine (htest.append (flow_branch line n hy)).append ?_
  rw [size_append, size_one, ← Nat.add_assoc]
  exact hcode

theorem flow_decides (hdone : done = pc + test.size + 2 + code.size + 1)
    (htest : ∀ exits, Flow p Γ exits pc test [] σ (.value .boolean :: σ))
    (hcode : ∀ exits, Flow p Γ exits (pc + test.size + 2) code [] (.value .boolean :: σ)
      (.value .boolean :: .value .boolean :: σ))
    (hq : Turns p Γ ⟨.ofPrim q, line, none⟩ (.value .boolean :: .value .boolean :: σ)
      (.value .boolean :: σ)) :
    Flow p Γ exits pc (test ++ one line .load 1 .st (-1) ++ one line .jumpif n .cb done ++ code ++
      prim line q) [] σ (.value .boolean :: σ) := by
  let out : Nat → List Slot → Prop := fun y ρ => exits y ρ ∨ y = done ∧ ρ = .value .boolean :: σ
  have hcode : Flow p Γ out (pc + (test ++ one line .load 1 .st (-1)).size + 1) code []
      (.value .boolean :: σ) (.value .boolean :: .value .boolean :: σ) := by
    rw [size_append, size_one]
    exact hcode out
  refine flow_closed ?_ ((flow_tested line n (.inr ⟨rfl, rfl⟩)
    ((htest out).append (flow_turn .copy)) hcode).append (flow_turn hq))
  simp only [hdone, size_append, size_one, size_prim]
  omega

section

variable (htest : ∀ exits, Flow p Γ exits pc test [] σ (.value .boolean :: σ))
  (hcode : ∀ exits, Flow p Γ exits (pc + test.size + 1) code vars σ σ)

include htest hcode

theorem flow_ifThen (hdone : done = pc + test.size + 1 + code.size) :
    Flow p Γ exits pc (test ++ one line .jumpif n .cb done ++ code) vars σ σ := by
  refine flow_closed ?_ (flow_tested line n (.inr ⟨rfl, rfl⟩) (htest _) (hcode _))
  rw [hdone, size_append, size_append, size_one, ← Nat.add_assoc, ← Nat.add_assoc]

theorem flow_ifElse (hsta : start = pc + test.size + 1 + code.size + 1)
    (hdone : done = start + other.size) (hoth : ∀ exits, Flow p Γ exits start other vars' σ σ) :
    Flow p Γ exits pc (test ++ one line .jumpif n .cb start ++ code ++ one line .jump 0 .cb done ++
      other) (vars ++ vars') σ σ := by
  let both : Nat → List Slot → Prop := fun y ρ =>
    (exits y ρ ∨ y = done ∧ ρ = σ) ∨ y = start ∧ ρ = σ
  have hfst := (flow_tested line n (.inr ⟨rfl, rfl⟩) (htest both) (hcode both)).append
    (flow_jump line (.inl (.inr ⟨rfl, rfl⟩)) : Flow p Γ both _ (one line .jump 0 .cb done) [] σ σ)
  have hm : pc + (test ++ one line .jumpif n .cb start ++ code ++
      one line .jump 0 .cb done).size = start := by
    simp only [hsta, size_append, size_one, Nat.add_assoc]
  rw [append_nil] at hfst
  refine flow_closed (y := done) ?_ (hfst.meet (by rw [hm]; exact hoth both) ?_)
  · rw [size_append, ← Nat.add_assoc, hm, hdone]
  · rintro y ρ (hexit | ⟨rfl, rfl⟩)
    · exact .inl hexit
    · exact .inr ⟨hm.symm, rfl⟩

theorem flow_loop (hdone : done = pc + test.size + 1 + code.size + 1) :
    Flow p Γ exits pc (test ++ one line .jumpif n .cb done ++ code ++ one line .jump 0 .cb pc)
      vars σ σ := by
  let out : Nat → List Slot → Prop := fun y ρ => exits y ρ ∨ y = pc ∧ ρ = σ ∨ y = done ∧ ρ = σ
  have hf := (flow_tested line n (.inr (.inr ⟨rfl, rfl⟩)) (htest out) (hcode out)).append
    (flow_jump line (.inr (.inl ⟨rfl, rfl⟩)) : Flow p Γ out _ (one line .jump 0 .cb pc) [] σ σ)
  rw [append_nil] at hf
  refine hf.close ?_
  rintro y ρ (hexit | ⟨rfl, rfl⟩ | ⟨rfl, rfl⟩)
  · exact .inl hexit
  · exact .inr (.inl ⟨rfl, rfl⟩)
  · refine .inr (.inr ⟨?_, rfl⟩)
    simp only [hdone, size_append, size_one, Nat.add_assoc]

end

end

/-! ### Expressions -/

open Semantics (Proper)

def Covers (vs : List LocalDecl) (σ : List Slot) : Prop :=
  ∀ (i : Nat) (d : LocalDecl), vs[i]? = some d → σ.reverse[i]? = some (Slot.value d.type)

theorem Covers.append (h : Covers vs σ) (above : List Slot) : Covers vs (above ++ σ) := by
  intro i d hd
  have hi := h i d hd
  rw [reverse_append, getElem?_append_left (List.getElem?_eq_some_iff.1 hi).1, hi]

theorem Covers.cons (h : Covers vs σ) (s : Slot) : Covers vs (s :: σ) :=
  h.append [s]

/-- A method of the package whose calls go by addresses, and its local variables. -/
structure Env.Flows (env : Env) (Γ : Site) (frame : Frame) (vs : List LocalDecl) : Prop where
  typed : env.package.Typed
  at_site : env.At Γ
  static : env.dynamic = false
  proper : Proper env.package Γ vs
  places : frame.Places vs

section

variable {env : Env} {frame : Frame} {vs : List LocalDecl}

variable {name : String} {t : Ty} {span : Span}

theorem Env.Flows.className (h : env.Flows Γ frame vs) {cls : Nat}
    (hname : Γ.sig.className cls = some name) :
    env.package.signature.className cls = some name := h.at_site.sig ▸ hname

theorem Env.Flows.place (h : env.Flows Γ frame vs) {b : Binding} (hb : Γ.Var vs t b)
    {e : Entity} (he : env.entity? frame b = some e) (hσ : Covers vs σ) :
    Place env.package Γ σ t e.base e.addr := by
  match b, hb with
  | .param i, hi =>
    obtain ⟨d, -, rfl⟩ := map_eq_some_iff.1 he
    exact .param hi
  | .var d, ⟨hd, ht⟩ =>
    obtain ⟨i, hi⟩ := getElem?_of_mem hd
    obtain ⟨offset, hoff, rfl⟩ := map_eq_some_iff.1 he
    cases (h.places i d hi).symm.trans hoff
    exact .var (ht ▸ hσ i d hi)
  | .field id, ⟨f, hf, ht, hreac⟩ => exact .field (h.at_site.field hf) he ht hreac

theorem flow_withEntity {b : Binding} {use : Entity → Code} (hb : ∃ e, env.entity? frame b = some e)
    (huse : ∀ e, env.entity? frame b = some e → Flow p Γ exits pc (use e) [] σ τ) :
    Flow p Γ exits pc (env.withEntity frame span (some b) use) [] σ τ := by
  obtain ⟨e, he⟩ := hb
  simpa only [Env.withEntity, he] using huse e he

theorem Env.Flows.cls_eq (h : env.Flows Γ frame vs) {cls : Nat}
    (hn : Γ.sig.className cls = some name) (hthis : (Ref.this span u).Typed Γ vs (.cls name)) :
    cls = Γ.cls ∧ Γ.isStatic = false := by
  obtain ⟨-, hstat, name', hn', hcls⟩ := hthis
  cases hcls
  exact ⟨Semantics.className_injective h.typed (h.className hn) (h.className hn'), hstat⟩

theorem Env.Flows.reaches (h : env.Flows Γ frame vs) {base : Ref}
    {id : MemberId} {f : FieldDecl} (hf : Γ.sig.field id = some f)
    (hdir : (env.isStatic (some (.field id)) ||
      isDirect (.member base span name (some (.field id)) false u)) = true)
    (hb : f.isStatic = true ∧ base.NamesClass ∨
      ∃ n, Γ.sig.className id.cls = some n ∧ base.Typed Γ vs (.cls n)) :
    Γ.Reaches id.cls f.isStatic := by
  obtain ⟨hstat, -⟩ | ⟨n, hn, hb⟩ := hb
  · exact .inl hstat
  rw [isStatic_field h.at_site hf, Bool.or_eq_true] at hdir
  obtain hstat | hdir := hdir
  · exact .inl hstat
  cases base with
  | this => exact .inr (h.cls_eq hn hb)
  | id | member | elem => cases hdir

theorem flow_ofInt {spelling : String} (h : Typing.fitsWord spelling = true) :
    Flow p Γ exits pc (ofInt span spelling) [] σ (.value .int :: σ) := by
  have hle : (Text.natOfDigits spelling.toList : Int) ≤ maxWord := by
    simpa [Typing.fitsWord] using h
  simp only [ofInt, hle, ↓reduceIte]
  refine flow_turn (.int ⟨?_, hle⟩)
  simp only [minWord]
  omega

theorem flow_ofInvocation (h : env.Flows Γ frame vs) {id : MemberId}
    (hm : env.package.method? id = some m) {receiver : Code}
    (hrcv : m.isStatic = false → ∃ name, env.package.signature.className id.cls = some name ∧
      Flow env.package Γ exits pc receiver [] (Slot.ofParams m ++ σ)
        (.value (.cls name) :: (Slot.ofParams m ++ σ))) :
    Flow env.package Γ exits pc (ofInvocation env span id m receiver) []
      (Slot.ofParams m ++ σ) (Slot.ofResult m.type ++ σ) := by
  unfold ofInvocation
  rw [h.static]
  by_cases hstat : m.isStatic = true
  · rw [if_pos hstat]
    exact flow_turn (.call hm hstat)
  · rw [if_neg hstat, if_neg Bool.false_ne_true]
    have hstat : m.isStatic = false := by simpa using hstat
    obtain ⟨name, hname, hrcv⟩ := hrcv hstat
    exact hrcv.append (flow_turn (.invoke hm hstat hname))

theorem Env.Flows.isMember (h : env.Flows Γ frame vs) {c : Call} (hc : c.Typed Γ vs t) :
    t.IsMember := by
  obtain ⟨method, args, close, bound, u⟩ := c
  obtain ⟨-, id, π, -, hπ, rfl, -, -⟩ := hc
  exact h.typed.proper.result id π (h.at_site.sig ▸ hπ)

theorem length_of_typedList {es : List Expr} (h : Expr.TypedList Γ vs es ts) :
    es.length = ts.length := by
  induction es generalizing ts with
  | nil =>
    obtain rfl : ts = [] := h
    rfl
  | cons e es ih =>
    obtain ⟨u, us, rfl, -, hes⟩ := h
    rw [length_cons, length_cons, ih hes]

theorem ofArgs_of_length_eq_one {es : List Expr} (h : es.length = 1) :
    ofArgs env frame pc es = ofArgsBackward env frame pc es := by
  obtain ⟨e, rfl⟩ := length_eq_one_iff.1 h
  have hleft : ∀ c : Code, c ++ empty = c := fun c => by
    cases c
    exact congrArg₂ mk (append_nil _) (append_nil _)
  simp only [ofArgs, ofArgsBackward, hleft]
  rfl

section

variable (h : env.Flows Γ frame vs)

include h

mutual

theorem flow_ofRef (r : Ref) {t : Ty} (hr : r.Typed Γ vs t) (hcmp : r.comparesValues = true)
    (exits : Nat → List Slot → Prop) (pc : Nat) {σ : List Slot} (hσ : Covers vs σ) :
    Flow env.package Γ exits pc (ofRef env frame pc r) [] σ (.value t :: σ) := by
  match r with
  | .this .. =>
    obtain ⟨-, hstat, name, hname, rfl⟩ := hr
    exact flow_turn (.this hstat (h.className hname))
  | .id .. =>
    obtain ⟨-, b, rfl, hb⟩ := hr
    refine flow_withEntity (exists_varEntity h.at_site h.places hb) fun e he => ?_
    exact flow_turn (.load (h.place hb he hσ))
  | .member base s name b isLength u =>
    obtain ⟨-, hr⟩ := hr
    rw [ofRef]
    cases isLength with
    | true =>
      obtain ⟨rfl, elem, hbase⟩ := hr
      exact (((flow_ofRef base hbase hcmp exits pc hσ).append (flow_turn .number)).append
        (flow_turn .lengthAddr)).append (flow_turn .length)
    | false =>
      obtain ⟨id, f, rfl, hf, rfl, hbase⟩ := hr
      rw [if_neg Bool.false_ne_true]
      refine flow_withEntity (exists_fieldEntity h.at_site hf) fun e he => ?_
      by_cases hdir : (env.isStatic (some (.field id)) ||
          isDirect (.member base s name (some (.field id)) false u)) = true
      · rw [if_pos hdir]
        exact flow_turn (.load (.field (h.at_site.field hf) he rfl (h.reaches hf hdir hbase)))
      · rw [if_neg hdir]
        rw [isStatic_field h.at_site hf, Bool.or_eq_true, not_or, Bool.not_eq_true] at hdir
        obtain ⟨hstat, -⟩ | ⟨n, hn, hbase⟩ := hbase
        · exact nomatch hdir.1.symm.trans hstat
        · exact ((flow_ofRef base hbase hcmp exits pc hσ).append (flow_turn .number)).append
            (flow_turn (.field (h.at_site.field hf) hdir.1 he (h.className hn)))
  | .elem base index _ =>
    simp only [Ref.comparesValues, Bool.and_eq_true] at hcmp
    exact ((flow_ofRef base hr.2.1 hcmp.1 exits pc hσ).append
      (flow_ofExpr index hr.2.2 nofun hcmp.2 exits _ (hσ.cons _))).append (flow_turn .element)

theorem flow_ofExpr (e : Expr) {t : Ty} (he : e.Typed Γ vs t) (ht : t ≠ .void)
    (hcmp : e.comparesValues = true) (exits : Nat → List Slot → Prop) (pc : Nat) {σ : List Slot}
    (hσ : Covers vs σ) :
    Flow env.package Γ exits pc (ofExpr env frame pc e) [] σ (.value t :: σ) := by
  match e with
  | .ref r => exact flow_ofRef r he hcmp exits pc hσ
  | .int .. =>
    obtain ⟨-, rfl, hfits⟩ := he
    exact flow_ofInt hfits
  | .bool _ value _ =>
    obtain ⟨-, rfl⟩ := he
    exact flow_turn (.bool value)
  | .unary _ op operand _ =>
    obtain ⟨-, rfl, he⟩ := he
    exact (flow_ofExpr operand he ht hcmp exits pc hσ).append (flow_turn (.unary op))
  | .binary op lhs rhs _ =>
    simp only [Expr.comparesValues, Bool.and_eq_true, decide_eq_true_eq] at hcmp
    obtain ⟨-, u, hlhs, hrhs, hop⟩ := he
    obtain ⟨⟨hvals, hl⟩, hr⟩ := hcmp
    have hu := hop.ne_void (hvals.imp id fun h => hlhs.type_eq ▸ h.1)
    obtain ⟨q, hq⟩ := exists_binaryPrim hop
    rw [ofExpr]
    simp only [hq]
    cases hword : decidingWord? op with
    | none =>
      exact ((flow_ofExpr lhs hlhs hu hl exits pc hσ).append
        (flow_ofExpr rhs hrhs hu hr exits _ (hσ.cons _))).append (flow_turn (.binary hq hop))
    | some word =>
      obtain ⟨rfl, rfl⟩ : u = .boolean ∧ t = .boolean := by
        cases op <;> first | exact hop | cases hword
      exact flow_decides rfl (fun exits => flow_ofExpr lhs hlhs hu hl exits pc hσ)
        (fun exits => flow_ofExpr rhs hrhs hu hr exits _ (hσ.cons _)) (.binary hq hop)
  | .newObject _ cls bound _ =>
    obtain ⟨-, rfl, i, rfl, hi⟩ := he
    obtain ⟨c, hc, rfl⟩ := map_eq_some_iff.1 (h.className hi)
    rw [ofExpr]
    simp only [bind_some, classEntity?, hc, map_some]
    exact ((flow_turn (.descriptor i)).append (flow_turn .number)).append
      (flow_turn (.newObject hc))
  | .newArray _ elem size _ =>
    simp only [Expr.Typed] at he
    simp only [Expr.comparesValues] at hcmp
    obtain ⟨-, rfl, hval, hsize⟩ := he
    exact (flow_ofExpr size hsize nofun hcmp exits pc hσ).append (flow_turn (.newArray hval))
  | .call c =>
    rw [ofExpr]
    have hc := flow_ofCall c he hcmp exits pc hσ
    rwa [Slot.ofResult_eq ((h.isMember he).resolve_left ht)] at hc

theorem flow_ofCall (c : Call) {t : Ty} (hc : c.Typed Γ vs t) (hcmp : c.comparesValues = true)
    (exits : Nat → List Slot → Prop) (pc : Nat) {σ : List Slot} (hσ : Covers vs σ) :
    Flow env.package Γ exits pc (ofCall env frame pc c) [] σ (Slot.ofResult t ++ σ) := by
  match c with
  | .mk method args _ bound _ =>
    simp only [Call.comparesValues, Bool.and_eq_true] at hcmp
    obtain ⟨-, id, π, rfl, hπ, rfl, ha, hmeth⟩ := hc
    obtain ⟨m, hm, rfl⟩ := h.at_site.method hπ
    have hvals := h.typed.proper.param id _ (h.at_site.sig ▸ hπ)
    rw [ofCall]
    simp only [hm]
    by_cases hprn : env.package.println = some id
    · rw [if_pos hprn]
      obtain ⟨id', hid', hprof⟩ := h.typed.println
      cases hprn.symm.trans hid'
      rw [← h.at_site.sig, hπ] at hprof
      have hprof := some.inj hprof
      rw [hprof] at ha hvals ⊢
      rw [ofArgs_of_length_eq_one (length_of_typedList ha)]
      exact (flow_ofArgsBackward args ha hvals hcmp.2 exits pc hσ).append (flow_turn .print)
    · rw [if_neg hprn]
      have hpus := flow_ofArgsBackward args ha hvals hcmp.2 exits pc hσ
      have hpar : m.profile.params.map Slot.value = Slot.ofParams m := by
        simp [MethodDecl.profile, Slot.ofParams]
      rw [hpar] at hpus
      refine hpus.append (flow_ofInvocation h hm fun hstat => ?_)
      exact flow_ofReceiver method hmeth hstat ⟨m, hm⟩ hcmp.1 exits _ _ (hσ.append _)

theorem flow_ofReceiver (method : Ref) {id : MemberId} {π : Profile}
    (hmeth : method.Calls Γ vs id π) (hπ : π.isStatic = false)
    (hm : ∃ m, env.package.method? id = some m) (hcmp : method.comparesValues = true)
    (exits : Nat → List Slot → Prop) (pc : Nat) (line : Int) {σ : List Slot} (hσ : Covers vs σ) :
    ∃ name, env.package.signature.className id.cls = some name ∧
      Flow env.package Γ exits pc (ofReceiver env frame pc line method) [] σ
        (.value (.cls name) :: σ) := by
  obtain ⟨m, hm⟩ := hm
  obtain ⟨c, hc, -⟩ := bind_eq_some_iff.1 hm
  match method with
  | .member base span member b isLength u =>
    obtain ⟨hstat, -⟩ | ⟨name, hn, hb⟩ := hmeth
    · exact nomatch hπ.symm.trans hstat
    refine ⟨name, h.className hn, ?_⟩
    rw [ofReceiver]
    by_cases hdir : isDirect (.member base span member b isLength u) = true
    · rw [if_pos hdir]
      cases base with
      | this =>
        obtain ⟨hcls, hi⟩ := h.cls_eq hn hb
        exact flow_turn (.this hi (h.className (hcls ▸ hn)))
      | id | member | elem => cases hdir
    · rw [if_neg hdir]
      exact flow_ofRef base hb hcmp exits pc hσ
  | .id .. =>
    obtain hstat | ⟨hcls, hi⟩ := hmeth
    · exact nomatch hπ.symm.trans hstat
    have hn : env.package.signature.className id.cls = some c.name := by
      simp [Package.signature, hc]
    refine ⟨c.name, hn, ?_⟩
    rw [ofReceiver]
    · exact flow_turn (.this hi (hcls ▸ hn))
    · intros
      contradiction
  | .this .. | .elem .. =>
    simp only [Ref.Calls] at hmeth

theorem flow_ofArgsBackward (es : List Expr) {ts : List Ty} (hes : Expr.TypedList Γ vs es ts)
    (hts : ∀ t ∈ ts, t.IsValue) (hcmp : Expr.compareValues es = true)
    (exits : Nat → List Slot → Prop) (pc : Nat) {σ : List Slot} (hσ : Covers vs σ) :
    Flow env.package Γ exits pc (ofArgsBackward env frame pc es) [] σ (ts.map Slot.value ++ σ) := by
  match es with
  | [] =>
    obtain rfl := hes
    exact flow_empty
  | e :: es =>
    simp only [Expr.compareValues, Bool.and_eq_true] at hcmp
    obtain ⟨u, us, rfl, he, hes⟩ := hes
    have hu := (hts u mem_cons_self).ne_void
    exact (flow_ofArgsBackward es hes (fun t ht => hts t (mem_cons_of_mem _ ht)) hcmp.2
      exits pc hσ).append (flow_ofExpr e he hu hcmp.1 exits _ (hσ.append _))

end

end

/-! ### Statements -/

theorem flow_ofAssign (h : env.Flows Γ frame vs) {lhs : Ref} {rhs : Expr}
    (hasg : lhs.Assignable) (hlhs : lhs.Typed Γ vs t) (hrhs : rhs.Typed Γ vs t)
    (hl : lhs.comparesValues = true) (hr : rhs.comparesValues = true)
    (exits : Nat → List Slot → Prop) (pc : Nat) (hσ : Covers vs σ) :
    Flow env.package Γ exits pc (ofAssign env frame pc lhs rhs) [] σ σ := by
  have ht : t ≠ .void := (h.proper.isValue h.typed hlhs).ne_void
  have hsto : ∀ (line : Int) (e : Entity), Place env.package Γ σ t e.base e.addr →
      Flow env.package Γ exits pc (ofExpr env frame pc rhs ++ one line .store e.size e.base e.addr)
        [] σ σ := fun line e he =>
    (flow_ofExpr h rhs hrhs ht hr exits pc hσ).append (flow_turn (.store he))
  match lhs with
  | .this .. => exact hasg.elim
  | .id .. =>
    obtain ⟨-, b, rfl, hb⟩ := hlhs
    exact flow_withEntity (exists_varEntity h.at_site h.places hb) fun e he =>
      hsto _ e (h.place hb he hσ)
  | .member _ _ _ _ true _ => exact hasg.elim
  | .member base s name b false u =>
    obtain ⟨-, id, f, rfl, hf, rfl, hbase⟩ := hlhs
    unfold ofAssign
    dsimp only
    by_cases hdir : (env.isStatic (some (.field id)) ||
        isDirect (.member base s name (some (.field id)) false u)) = true
    · rw [if_pos hdir]
      exact flow_withEntity (exists_fieldEntity h.at_site hf) fun e he =>
        hsto _ e (.field (h.at_site.field hf) he rfl (h.reaches hf hdir hbase))
    · rw [if_neg hdir]
      rw [isStatic_field h.at_site hf, Bool.or_eq_true, not_or, Bool.not_eq_true] at hdir
      obtain ⟨hstat, -⟩ | ⟨n, hn, hbase⟩ := hbase
      · exact nomatch hdir.1.symm.trans hstat
      · refine flow_withEntity (exists_fieldEntity h.at_site hf) fun e he => ?_
        exact (((flow_ofRef h base hbase hl exits pc hσ).append (flow_turn .number)).append
          (flow_ofExpr h rhs hrhs ht hr exits _ ((hσ.cons _).cons _))).append
            (flow_turn (.setField (h.at_site.field hf) hdir.1 he (h.className hn)))
  | .elem base index _ =>
    simp only [Ref.comparesValues, Bool.and_eq_true] at hl
    exact (((flow_ofRef h base hlhs.2.1 hl.1 exits pc hσ).append
      (flow_ofExpr h index hlhs.2.2 nofun hl.2 exits _ (hσ.cons _))).append
        (flow_ofExpr h rhs hrhs ht hr exits _ ((hσ.cons _).cons _))).append
          (flow_turn .setElement)

end

def Slot.ofVars (vs : List LocalDecl) : List Slot := (vs.map fun d => .value d.type).reverse

@[simp] theorem Slot.length_ofVars (vs : List LocalDecl) : (Slot.ofVars vs).length = vs.length := by
  simp [Slot.ofVars]

theorem Slot.ofVars_append (vs ws : List LocalDecl) :
    Slot.ofVars (vs ++ ws) = Slot.ofVars ws ++ Slot.ofVars vs := by
  simp [Slot.ofVars]

theorem covers_ofVars (vs : List LocalDecl) : Covers vs (Slot.ofVars vs) := by
  intro i d hd
  simp [Slot.ofVars, hd]

theorem flow_popWords (line : Int) (gone : List Slot) :
    Flow p Γ exits pc (popWords line gone.length) [] (gone ++ σ) σ := by
  cases gone with
  | nil => exact flow_empty
  | cons s gone => exact flow_turn (.pop (s :: gone))

theorem Flow.declare {d : LocalDecl} {offset : Nat} (h : Flow p Γ exits pc a [] σ τ)
    (hoff : offset = 3 + σ.length) : Flow p Γ exits pc a [(d, pc, offset)] σ τ := by
  obtain ⟨S, hsta, hend, hmov, -⟩ := h
  refine ⟨S, hsta, hend, hmov, fun x hx => ?_⟩
  obtain rfl := mem_singleton.1 hx
  exact ⟨Nat.le_refl _, Nat.le_add_right _ _, by rw [hsta, hoff]⟩

section

variable (env : Env)

mutual

/-- The local variables that a statement declares, in their order, each with the address where the
code of its first value starts and its place. -/
def initialisers (frame : Frame) (pc : Nat) (s : Stmt) : List (LocalDecl × Nat × Nat) :=
  match s with
  | .block _ body => initialisersOf frame pc body
  | .decl d _ => [(d, pc, frame.offset)]
  | .assign .. | .call _ => []
  | .ifThen _ cond body | .loop _ cond body =>
    initialisers frame (pc + (ofExpr env frame pc cond).size + 1) body
  | .ifElse _ cond body other =>
    let start := pc + (ofExpr env frame pc cond).size + 1
    let (code, middle) := ofStmt env frame start body
    initialisers frame start body ++ initialisers middle (start + code.size + 1) other

def initialisersOf (frame : Frame) (pc : Nat) (ss : List Stmt) : List (LocalDecl × Nat × Nat) :=
  match ss with
  | [] => []
  | s :: ss =>
    let (code, after) := ofStmt env frame pc s
    initialisers frame pc s ++ initialisersOf after (pc + code.size) ss

end

mutual

theorem slots_ofStmt (frame : Frame) (pc : Nat) (s : Stmt) : (ofStmt env frame pc s).2.slots =
    ((initialisers env frame pc s).map fun x => (x.1, x.2.2)).reverse ++ frame.slots := by
  match s with
  | .block _ body =>
    rw [ofStmt, initialisers]
    exact slots_ofStmts frame pc body
  | .decl .. | .assign .. | .call _ =>
    rw [ofStmt, initialisers]
    rfl
  | .ifThen _ _ body | .loop _ _ body =>
    rw [ofStmt, initialisers]
    exact slots_ofStmt frame _ body
  | .ifElse _ _ body other =>
    rw [ofStmt, initialisers]
    rw [slots_ofStmt _ _ other, slots_ofStmt frame _ body]
    simp

theorem slots_ofStmts (frame : Frame) (pc : Nat) (ss : List Stmt) :
    (ofStmts env frame pc ss).2.slots =
      ((initialisersOf env frame pc ss).map fun x => (x.1, x.2.2)).reverse ++ frame.slots := by
  match ss with
  | [] =>
    rw [ofStmts, initialisersOf]
    rfl
  | s :: ss =>
    rw [ofStmts, initialisersOf]
    rw [slots_ofStmts _ _ ss, slots_ofStmt frame pc s]
    simp

end

end

section

variable {env : Env}

mutual

theorem flow_ofStmt {frame : Frame} (h : env.Flows Γ frame vs) (hfr : frame.Fits vs) (s : Stmt)
    (hs : s.Typed Γ vs) (hcmp : s.comparesValues = true) (exits : Nat → List Slot → Prop)
    (pc : Nat) :
    Flow env.package Γ exits pc (ofStmt env frame pc s).1 (initialisers env frame pc s)
      (Slot.ofVars vs) (Slot.ofVars (vs ++ s.declared)) := by
  have hcov := covers_ofVars vs
  match s with
  | .block span body =>
    have haft := fits_ofStmts env hfr body hs pc
    have hb := flow_ofStmts h hfr body hs hcmp exits pc
    have hoff : (ofStmts env frame pc body).2.offset - frame.offset =
        (Slot.ofVars (body.flatMap (·.declared))).length := by
      rw [haft.offset, hfr.offset, Slot.length_ofVars, length_append]
      omega
    rw [Slot.ofVars_append] at hb
    have hf := hb.append (flow_popWords span.line (Slot.ofVars (body.flatMap (·.declared))))
    rw [append_nil, ← hoff] at hf
    rw [ofStmt, initialisers, show (Stmt.block span body).declared = [] from rfl, append_nil]
    exact hf
  | .decl d init =>
    obtain ⟨hd, hnew, hinit⟩ := hs
    have hpls := (hfr.declare hd hnew).places.left
    have hcode := flow_ofExpr { h with places := hpls } init hinit hd.ne_void hcmp exits pc
      hcov
    rw [ofStmt, initialisers]
    refine Flow.declare ?_ (by rw [hfr.offset, Slot.length_ofVars])
    rw [Slot.ofVars_append]
    exact hcode
  | .assign lhs rhs =>
    obtain ⟨hasg, t, hlhs, hrhs⟩ := hs
    simp only [Stmt.comparesValues, Bool.and_eq_true] at hcmp
    rw [ofStmt, initialisers]
    simpa [Stmt.declared] using flow_ofAssign h hasg hlhs hrhs hcmp.1 hcmp.2 exits pc hcov
  | .call c =>
    obtain ⟨t, hc⟩ := hs
    have hcode := flow_ofCall h c hc hcmp exits pc hcov
    rw [ofStmt, initialisers, hc.type_eq, ← Slot.length_ofResult]
    simpa [Stmt.declared] using hcode.append (flow_popWords c.span.line _)
  | .ifThen _ cond body | .loop _ cond body =>
    obtain ⟨hcond, hdecl, hb⟩ := hs
    simp only [Stmt.comparesValues, Bool.and_eq_true] at hcmp
    have hcond := fun exits => flow_ofExpr h cond hcond nofun hcmp.1 exits pc hcov
    have hb := fun exits => flow_ofStmt h hfr body hb hcmp.2 exits
      (pc + (ofExpr env frame pc cond).size + 1)
    simp only [hdecl, append_nil] at hb
    simp only [ofStmt, initialisers, Stmt.declared, append_nil]
    first | exact flow_ifThen hcond hb rfl | exact flow_loop hcond hb rfl
  | .ifElse _ cond body other =>
    obtain ⟨hcond, ⟨hdecl, hb⟩, hdecl', hoth⟩ := hs
    simp only [Stmt.comparesValues, Bool.and_eq_true] at hcmp
    have hmid := fits_ofStmt env hfr body hb (pc + (ofExpr env frame pc cond).size + 1)
    rw [hdecl, append_nil] at hmid
    have hb := fun exits => flow_ofStmt h hfr body hb hcmp.1.2 exits
      (pc + (ofExpr env frame pc cond).size + 1)
    simp only [hdecl, append_nil] at hb
    have hoth := fun exits pc =>
      flow_ofStmt { h with places := hmid.places } hmid other hoth hcmp.2 exits pc
    simp only [hdecl', append_nil] at hoth
    rw [ofStmt, initialisers, show (Stmt.ifElse _ cond body other).declared = [] from rfl, append_nil]
    exact flow_ifElse (fun exits => flow_ofExpr h cond hcond nofun hcmp.1.1 exits pc hcov) hb
      rfl rfl fun exits => hoth exits _

theorem flow_ofStmts {frame : Frame} (h : env.Flows Γ frame vs) (hfr : frame.Fits vs)
    (ss : List Stmt) (hss : Stmt.TypedList Γ vs ss) (hcmp : Stmt.compareValues ss = true)
    (exits : Nat → List Slot → Prop) (pc : Nat) :
    Flow env.package Γ exits pc (ofStmts env frame pc ss).1 (initialisersOf env frame pc ss)
      (Slot.ofVars vs) (Slot.ofVars (vs ++ ss.flatMap (·.declared))) := by
  match ss with
  | [] =>
    rw [ofStmts, initialisersOf]
    simpa using flow_empty
  | s :: ss =>
    simp only [Stmt.compareValues, Bool.and_eq_true] at hcmp
    have haft := fits_ofStmt env hfr s hss.1 pc
    have hs := flow_ofStmt h hfr s hss.1 hcmp.1 exits pc
    have hr := flow_ofStmts
      { h with places := haft.places, proper := h.proper.declared hss.1 } haft ss hss.2 hcmp.2
      exits (pc + (ofStmt env frame pc s).1.size)
    rw [append_assoc] at hr
    rw [ofStmts, initialisersOf, flatMap_cons]
    exact hs.append hr

end

/-- The words at the end of a method: its result lies above its local variables. -/
def Slot.atEnd (m : MethodDecl) : List Slot :=
  Slot.ofResult m.type ++ Slot.ofVars (m.body.flatMap (·.declared))

end

theorem flows_start (hp : p.Typed) (hm : p.method? id = some m) :
    Env.Flows ⟨p, false, m.params⟩ (m.site p.signature id.cls) .start [] where
  typed := hp
  at_site := ⟨rfl, rfl⟩
  static := rfl
  proper := by
    have hπ : p.signature.method id = some m.profile := by simp [Package.signature, hm]
    exact ⟨rfl, hp.proper.param id _ hπ, forall_mem_nil _⟩
  places := Frame.fits_start.places

theorem flows_result (hp : p.Typed) (hm : p.method? id = some m)
    (pc : Nat) : Env.Flows ⟨p, false, m.params⟩ (m.site p.signature id.cls)
      (ofStmts ⟨p, false, m.params⟩ .start pc m.body).2 (m.body.flatMap (·.declared)) := by
  have hsta := flows_start hp hm
  have htyp := (hp.methods id m hm).1
  have haft := fits_ofStmts ⟨p, false, m.params⟩ Frame.fits_start m.body htyp pc
  have hprop := hsta.proper.extended m.body htyp
  exact { hsta with places := haft.places, proper := hprop }

theorem flow_ofMethod (hp : p.Typed) (hm : p.method? id = some m)
    (hcmp : m.comparesValues = true) (pc : Nat) :
    ∃ code, (ofMethod ⟨p, false, m.params⟩ .start pc m).1 =
        code ++ one m.span.line .ret m.type.size .zr m.params.length ∧
      Flow p (m.site p.signature id.cls) (fun _ _ => False) pc code
        (initialisersOf ⟨p, false, m.params⟩ .start pc m.body) [] (Slot.atEnd m) := by
  obtain ⟨htyp, hres⟩ := hp.methods id m hm
  simp only [MethodDecl.comparesValues, Bool.and_eq_true] at hcmp
  have hb := flow_ofStmts (flows_start hp hm) Frame.fits_start m.body htyp hcmp.1
    (fun _ _ => False) pc
  rw [← paramWords_eq hp hm]
  unfold ofMethod
  cases hr : m.result with
  | none =>
    rw [hr] at hres
    have hs : m.type.size = 0 := by rw [hres, Ty.size]
    rw [hs, Slot.atEnd, Slot.ofResult, hs]
    refine ⟨_, rfl, ?_⟩
    have hf := hb.append (flow_empty (Γ := m.site p.signature id.cls))
    rw [append_nil] at hf
    exact hf
  | some e =>
    rw [hr] at hres hcmp
    obtain ⟨hval, he⟩ := hres
    refine ⟨_, rfl, ?_⟩
    rw [Slot.atEnd, Slot.ofResult_eq hval]
    have hf := hb.append (flow_ofExpr (flows_result hp hm pc) e he hval.ne_void
      (by simpa using hcmp.2) _ _ (covers_ofVars _))
    rw [append_nil] at hf
    exact hf

end Code

end MiniJam
