import MiniJam.Proofs.Simulation.Lockstep
import MiniJam.Proofs.Simulation.Program

/-!
# References to nothing are noticed

A compiled program that follows the reference to nothing stops before anything is written
(`Underway.catches`), unless it calls a method of nothing by its address.  A field of the current object
is never one of nothing before such a call, since methods of instances run with an instance.

If the run of a package ends with the reference to nothing, a machine with enough room comes to the
instruction that follows it (`Compiler.null_caught`).
-/

namespace MiniJam

open Assembly Option Instr

namespace Machine

variable {m n : Machine} {a a' : Access}

theorem Meets.unique (h : m.Meets a) (h' : m.Meets a') : a = a' :=
  some.inj (h.access.symm.trans h'.access)

theorem CallsNull.meets (h : m.CallsNull) (hrun : m.state = .running) :
    m.Meets .call ∨ m.Meets .dispatch := by
  obtain ⟨htop, i, hi, hop⟩ := h
  have hacc : ∀ op : Opcode, i.op = op.code → (op = .calli → i.access? = some .call) ∧
      (op = .calld → i.access? = some .dispatch) := by
    intro op hop
    constructor
    all_goals
      rintro rfl
      simp [access?, hop, Opcode.ofCode?_code]
  rcases hop with hop | hop
  · exact .inl ⟨hrun, by rw [hi]; exact (hacc _ hop).1 rfl, htop⟩
  · exact .inr ⟨hrun, by rw [hi]; exact (hacc _ hop).2 rfl, htop⟩

/-- The programs of two machines are the same but for the way in which methods of instances are
called. -/
def Redirects (m n : Machine) : Prop :=
  ∀ (x : Nat) (i : Instr), m.program[x]? = some i → n.program[x]? = some i ∨
    i.access? = some .call ∧ ∃ i', n.program[x]? = some i' ∧ i'.access? = some .dispatch

theorem Alike.reference (h : Alike O m n) (a : Access) : n.reference a = m.reference a := by
  cases a <;> simp only [Machine.reference, h.peek, h.st, h.ob]

theorem Alike.exists_meets (h : Alike O m n) (hprog : Redirects m n) :
    (∃ a, m.Meets a) ↔ ∃ a, n.Meets a := by
  have hnone : m.instrAt? m.cp = none → n.instrAt? n.cp = none := by
    have hct : (n.program.size : Int) = m.program.size := h.ct
    intro hi
    rw [h.cp]
    unfold instrAt? at hi ⊢
    split
    · rfl
    · rw [if_neg ‹_›, Array.getElem?_eq_none_iff] at hi
      exact Array.getElem?_eq_none_iff.2 (by omega)
  have hs : ∀ i, m.instrAt? m.cp = some i → n.instrAt? n.cp = some i ∨
      i.access? = some .call ∧ ∃ i', n.instrAt? n.cp = some i' ∧ i'.access? = some .dispatch := by
    intro i hi
    rw [h.cp]
    unfold instrAt? at hi ⊢
    split at hi
    · cases hi
    · rw [if_neg ‹_›]
      exact hprog _ i hi
  constructor
  · rintro ⟨a, hrun, hacc, hn⟩
    obtain ⟨i, hi, hia⟩ := bind_eq_some_iff.1 hacc
    rcases hs i hi with hi' | ⟨hc, i', hi', hdisp⟩
    · exact ⟨a, h.state.trans hrun, by rw [hi']; exact hia, (h.reference a).trans hn⟩
    · cases hia.symm.trans hc
      exact ⟨.dispatch, h.state.trans hrun, by rw [hi']; exact hdisp,
        (h.reference .dispatch).trans hn⟩
  · rintro ⟨a, hrun, hacc, hn⟩
    cases hi : m.instrAt? m.cp with
    | none =>
      rw [hnone hi] at hacc
      cases hacc
    | some i =>
      rcases hs i hi with hi' | ⟨hc, i', hi', hdisp⟩
      · rw [hi'] at hacc
        exact ⟨a, h.state ▸ hrun, by rw [hi]; exact hacc, (h.reference a).symm.trans hn⟩
      · rw [hi'] at hacc
        cases hacc.symm.trans hdisp
        exact ⟨.call, h.state ▸ hrun, by rw [hi]; exact hc, (h.reference .dispatch).symm.trans hn⟩

end Machine

namespace Simulation

open Semantics Machine.Exec

variable {X : Target} {m : Machine} {c : Config} {a : Access}

/-! ### Single instructions -/

def Target.Notices (X : Target) (m : Machine) (a : Access) : Prop :=
  a = .call ∧ X.dynamic = false ∨ m.Catches a

theorem Refused.notices (h : Refused X c) (hX : X.Callable) (hm : Shows X m c) (hmeet : m.Meets a) :
    X.Notices m a := by
  obtain ⟨a', h⟩ := h
  obtain ⟨hmeet', hcat⟩ := h m hm
  obtain rfl := hmeet.unique hmeet'
  exact .inr (hcat.resolve_right fun hstr => hstr.2 hX)

theorem Shows.access_eq (hm : Shows X m c) (hi : X.InstrAt c.cp i) (hmeet : m.Meets a) :
    i.access? = some a := by
  have hacc := hmeet.access
  rwa [hm.instrAt? hi.get] at hacc

theorem Shows.encode_ne (hm : Shows X m c) (b : Nat) :
    X.encode c.heap (.ref b) ≠ Machine.nullWord :=
  Int.ne_of_gt (X.encode_ref_pos hm.heapWords_le b)

section

variable {R : Routine X} {K : View} {σ τ : List Code.Slot} {ops ts : List Cell} {s : Store} {x : Nat}
  {t : Ty} {o : Value}

theorem Shows.notices_word (above : List Cell) (hX : X.Callable)
    (hq : (ofPrim q).access? = some (.word above.length)) (hi : X.InstrAt x (.ofPrim q))
    (ho : o = .null ∨ ∃ b, o = .ref b) (hm : Shows X m (K.config x (above ++ .val o :: ts) s))
    (hmeet : m.Meets a) : X.Notices m a := by
  have hstk : (K.config x (above ++ .val o :: ts) s).stack =
    above ++ .val o :: (ts ++ K.under s.statics) := by simp [View.config]
  rcases ho with rfl | ⟨b, rfl⟩
  · have href : Refused X ⟨x, K.lb, K.this, above ++ .val .null :: (ts ++ K.under s.statics),
        s.heap, s.printed⟩ := refused_word above hi hq
    rw [← hstk] at href
    exact href.notices hX hm hmeet
  · cases hq.symm.trans (hm.access_eq hi hmeet)
    exact absurd ((hm.peek_under above hstk).symm.trans hmeet.reference) (hm.encode_ne b)

theorem null_or_ref {heap : List Block} (h : HasType X.package.signature heap o t)
    (ht : (∃ name, t = .cls name) ∨ ∃ elem, t = .array elem) : o = .null ∨ ∃ b, o = .ref b := by
  match o, t, h with
  | .int _, .int, _ | .bool _, .boolean, _ => simp at ht
  | .null, _, _ => exact .inl rfl
  | .ref b, _, _ => exact .inr ⟨b, rfl⟩

theorem At.this_of_place {base : Reg} (h : At R σ K ops s)
    (hpl : Code.Place X.package (R.decl.site X.package.signature R.id.cls) τ t base addr)
    (hb : base = .ob) : ∃ b, K.this = .ref b := by
  cases hpl with
  | var | param => cases hb
  | @field id f e hf he _ hreac =>
    cases hstat : f.isStatic with
    | true =>
      obtain ⟨k, he', -⟩ := exists_static X.typed hf hstat
      cases he.symm.trans he'
      cases hb
    | false =>
      obtain ⟨b, -, hthis, -⟩ := h.instance hreac hstat
      exact ⟨b, hthis⟩

theorem At.not_meets_place {op : Opcode} {n : Int} {base : Reg} (h : At R σ K ops s)
    (hpl : Code.Place X.package (R.decl.site X.package.signature R.id.cls) τ t base addr)
    (hop : op = .load ∨ op = .store) (hi : X.InstrAt x (.make op n base addr))
    (hm : Shows X m (K.config x ops s)) : ¬ m.Meets a := by
  intro hmeet
  have hacc := hm.access_eq hi hmeet
  by_cases hb : base = .ob
  · obtain ⟨b, hthis⟩ := h.this_of_place hpl hb
    have hown : (make op n base addr).access? = some .own := by
      subst hb
      rcases hop with rfl | rfl <;> rfl
    cases hown.symm.trans hacc
    have hob : m.ob = X.encode s.heap (.ref b) := hthis ▸ hm.ob
    exact hm.encode_ne b (hob.symm.trans hmeet.reference)
  · have hnone : (make op n base addr).access? = none := by
      rcases hop with rfl | rfl <;> cases base <;> first | rfl | exact absurd rfl hb
    exact nomatch hnone.symm.trans hacc

theorem access?_unaryPrim (op : Operator) : (ofPrim (Code.unaryPrim op)).access? = none := by
  cases op <;> rfl

theorem access?_binaryPrim {op : Operator} (h : Code.binaryPrim? op = some q) :
    (ofPrim q).access? = none := by
  cases op <;> cases h <;> rfl

theorem At.notices_length {n : Int} (h : At R (.lengthAddr :: σ) K ops s) (hX : X.Callable)
    (hi : X.InstrAt x (.make .loadi n .zr 0)) (hm : Shows X m (K.config x ops s))
    (hmeet : m.Meets a) : X.Notices m a := by
  obtain ⟨cell, rest, rfl, hcell, -⟩ := h.pop
  cases hcell with
  | @lengthAddr v elem hv =>
    rcases null_or_ref hv (.inr ⟨elem, rfl⟩) with rfl | ⟨b, rfl⟩
    · exact (refused_length hi).notices hX hm hmeet
    · cases hm.access_eq hi hmeet
      have htop : m.peek (m.st - 1) = _ := hm.peek_top rfl
      have hword := X.lengthAddr_mem (live_of_hasType hv) hm.heapWords_le
      have haddr := htop.trans (Machine.toInt_ofInt_of_mem hword)
      have hnull : m.peek (m.st - 1) - Machine.headerSize = Machine.nullWord := hmeet.reference
      have hne : X.encode s.heap (.ref b) ≠ Machine.nullWord := hm.encode_ne b
      omega

theorem At.notices_turns (h : At R σ K ops s) (hX : X.Callable)
    (htur : Code.Turns X.package (R.decl.site X.package.signature R.id.cls) item σ τ)
    (hi : X.InstrAt x (instrOf X.package X.dynamic X.entry item))
    (hm : Shows X m (K.config x ops s)) (hmeet : m.Meets a) : X.Notices m a := by
  have hacc := hm.access_eq hi hmeet
  cases htur with
  | int | bool | number | this | descriptor | copy | newObject | newArray | lengthAddr | print | pop =>
    rw [instrOf_none] at hacc
    exact nomatch hacc
  | unary op =>
    rw [instrOf_none, access?_unaryPrim] at hacc
    exact nomatch hacc
  | binary hq =>
    rw [instrOf_none, access?_binaryPrim hq] at hacc
    exact nomatch hacc
  | load hpl =>
    rw [instrOf_none] at hi
    exact absurd hmeet (h.not_meets_place hpl (.inl rfl) hi hm)
  | store hpl =>
    rw [instrOf_none] at hi
    exact absurd hmeet (h.not_meets_place hpl (.inr rfl) hi hm)
  | length =>
    rw [instrOf_none] at hi
    exact h.notices_length hX hi hm hmeet
  | element =>
    rw [instrOf_none] at hi
    obtain ⟨i, _, rfl, -, h₁⟩ := h.pop_value
    obtain ⟨o, rest, rfl, ho, -⟩ := h₁.pop_value
    exact Shows.notices_word [_] hX rfl hi (null_or_ref ho (.inr ⟨_, rfl⟩)) hm hmeet
  | setElement =>
    rw [instrOf_none] at hi
    obtain ⟨v, _, rfl, -, h₁⟩ := h.pop_value
    obtain ⟨i, _, rfl, -, h₂⟩ := h₁.pop_value
    obtain ⟨o, rest, rfl, ho, -⟩ := h₂.pop_value
    exact Shows.notices_word [_, _] hX rfl hi (null_or_ref ho (.inr ⟨_, rfl⟩)) hm hmeet
  | field =>
    rw [instrOf_none] at hi
    obtain ⟨_, rfl, h₁⟩ := h.pop_number
    obtain ⟨o, rest, rfl, ho, -⟩ := h₁.pop_value
    exact Shows.notices_word [_] hX rfl hi (null_or_ref ho (.inl ⟨_, rfl⟩)) hm hmeet
  | setField =>
    rw [instrOf_none] at hi
    obtain ⟨v, _, rfl, -, h₁⟩ := h.pop_value
    obtain ⟨_, rfl, h₂⟩ := h₁.pop_number
    obtain ⟨o, rest, rfl, ho, -⟩ := h₂.pop_value
    exact Shows.notices_word [_, _] hX rfl hi (null_or_ref ho (.inl ⟨_, rfl⟩)) hm hmeet
  | call hd =>
    obtain ⟨b, hb, -⟩ := exists_body false X.entry hd
    rw [instrOf_call hb, access?_callOf] at hacc
    exact nomatch hacc
  | invoke hd =>
    obtain ⟨b, hb, -⟩ := exists_body false X.entry hd
    obtain ⟨d, hc, -⟩ := bind_eq_some_iff.1 hd
    obtain ⟨o, rest, rfl, ho, -⟩ := h.pop_value
    rw [instrOf_calli hb hc] at hi hacc
    cases hdyn : X.dynamic with
    | false =>
      rw [hdyn] at hacc
      exact .inl ⟨(some.inj hacc).symm, hdyn⟩
    | true =>
      rw [hdyn] at hi hacc
      rcases null_or_ref ho (.inl ⟨_, rfl⟩) with rfl | ⟨b, rfl⟩
      · exact Refused.notices (refused_calld hi) hX hm hmeet
      · cases hacc
        exact absurd ((hm.peek_top rfl).symm.trans hmeet.reference) (hm.encode_ne b)

end

/-! ### Runs -/

theorem Sound.notices (h : Sound X c) (hX : X.Callable) (hm : Shows X m c) (hmeet : m.Meets a) :
    X.Notices m a := by
  cases h with
  | done =>
    have hacc := hmeet.access
    rw [hm.instrAt? X.halt_start] at hacc
    exact nomatch hacc
  | @running R x _ hx h =>
    obtain ⟨K, ops, s, rfl, hat⟩ := h
    obtain hlt | rfl := Nat.lt_or_eq_of_le hx.2
    · obtain ⟨item, hitem, hmov⟩ := R.shape.moves x hx.1 hlt
      have hi := R.instrAt hx.2 hitem
      cases hmov with
      | turn htur => exact hat.notices_turns hX htur hi hm hmeet
      | jump | branch =>
        rw [instrOf_none] at hi
        exact nomatch hm.access_eq hi hmeet
    · obtain ⟨line, hitem⟩ := R.shape.ret
      have hi := R.instrAt hx.2 hitem
      rw [instrOf_none] at hi
      exact nomatch hm.access_eq hi hmeet

theorem Underway.notices (h : Underway X m) (hX : X.Callable) (hmeet : m.Meets a) :
    X.Notices m a := by
  cases h with
  | fresh hm => exact nomatch hm.access_eq X.codeAt_start.left.left.one hmeet
  | started top hm hpath hsnd =>
    cases hpath with
    | refl => exact hsnd.notices hX hm hmeet
    | step hi hop => exact nomatch hop.symm.trans (hm.access_eq hi hmeet)

theorem Underway.after (hsiz : X.Sized) (hcmp : X.package.comparesValues = true) (hX : X.Callable)
    (h : Underway X m) (k : Nat) (hn : ∀ j < k, ¬ (m.after j).Meets .call)
    (hrun : (m.after k).state = .running) : Underway X (m.after k) := by
  induction k with
  | zero => exact h
  | succ k ih =>
    have hrun' := Machine.running_of_after (Nat.le_succ k) hrun
    have hk := ih (fun j hj => hn j (Nat.lt_succ_of_lt hj)) hrun'
    refine hk.step hsiz hcmp (fun hcs => ?_) hrun
    rcases hcs.meets hrun' with hc | hdisp
    · exact hn k (Nat.lt_succ_self k) hc
    -- A call through the descriptor of nothing would have stopped the machine.
    · rcases hk.notices hX hdisp with ⟨hc, -⟩ | hcat
      · cases hc
      · exact hcat.state_ne hrun

theorem Underway.not_meets_call (hsiz : X.Sized) (hcmp : X.package.comparesValues = true)
    (hX : X.Callable) (hdyn : X.dynamic = true) (h : Underway X m) (k : Nat) :
    ¬ (m.after k).Meets .call := by
  induction k using Nat.strongRecOn with
  | ind k ih =>
    intro hmeet
    rcases (h.after hsiz hcmp hX k ih hmeet.state).notices hX hmeet with ⟨-, hstat⟩ | hcat
    · exact nomatch hdyn.symm.trans hstat
    · exact hcat

theorem Underway.meets_first (hsiz : X.Sized) (hcmp : X.package.comparesValues = true)
    (hX : X.Callable) (hdyn : X.dynamic = true) (h : Underway X m)
    (hrun : (m.after k).state = .running) (hj : j < k) (b : Access) : ¬ (m.after j).Meets b := by
  intro hmeet
  have hcs : ∀ i < j, ¬ (m.after i).Meets .call := fun i _ =>
    h.not_meets_call hsiz hcmp hX hdyn i
  rcases (h.after hsiz hcmp hX j hcs hmeet.state).notices hX hmeet with
    ⟨-, hstat⟩ | hcat
  · exact nomatch hdyn.symm.trans hstat
  · exact hcat.state_ne (Machine.running_of_after (Nat.succ_le_of_lt hj) hrun)

theorem redirects_dynamic {n : Machine} (hX : X.dynamic = false) (hm : m.program = X.assembly.program)
    (hn : n.program = (ofPackage X.package true X.entry).program) : m.Redirects n := by
  intro x i hi
  rw [hm, Target.assembly, hX] at hi
  rw [hn]
  rcases differs_dynamic X.typed X.entry_eq hi with hi' | ⟨id, k, addr, -, rfl, hi', -⟩
  · exact .inl hi'
  · exact .inr ⟨rfl, _, hi', rfl⟩

/-- A machine that calls methods by their addresses comes to the reference to nothing with the one that
calls them through descriptors. -/
theorem Underway.meets_alike {n : Machine} (hsiz : X.Sized)
    (hcmp : X.package.comparesValues = true) (hX : X.dynamic = false) (h : Underway X m)
    (hal : Machine.Alike Eq m n) (hm : m.program = X.assembly.program)
    (hn : n.program = (ofPackage X.package true X.entry).program) {a : Access}
    (hfst : ∀ j < k, ∀ b, ¬ (n.after j).Meets b) (hmeet : (n.after k).Meets a) :
    (∀ j < k, ∀ b, ¬ (m.after j).Meets b) ∧ (∃ b, (m.after k).Meets b) ∧
      Machine.Alike Eq (m.after k) (n.after k) := by
  have hprog : ∀ j, (m.after j).Redirects (n.after j) := fun j => redirects_dynamic hX
    ((congrArg Machine.Setting.program (m.setting_after j)).trans hm)
    ((congrArg Machine.Setting.program (n.setting_after j)).trans hn)
  -- As long as the machines are alike, neither of them meets nothing, so that they stay alike.
  have hnull : ∀ j < k, ¬ (m.after j).CallsNull := by
    intro j
    induction j using Nat.strongRecOn with
    | ind j ih =>
      intro hj hcs
      have hj' := (h.after_alike hX hsiz hcmp hal hn j fun i hi => ih i hi (by omega)).1
      have hrun := hj'.state ▸ Machine.running_of_after (Nat.le_of_lt hj) hmeet.state
      obtain ⟨b, hb⟩ := (hj'.exists_meets (hprog j)).1
        ((hcs.meets hrun).elim (fun h => ⟨_, h⟩) fun h => ⟨_, h⟩)
      exact hfst j hj b hb
  have halik : ∀ j ≤ k, Machine.Alike Eq (m.after j) (n.after j) := fun j hj =>
    (h.after_alike hX hsiz hcmp hal hn j fun i hi => hnull i (by omega)).1
  refine ⟨fun j hj b hb => ?_, ?_, halik k (Nat.le_refl k)⟩
  · obtain ⟨b', hb'⟩ := ((halik j (Nat.le_of_lt hj)).exists_meets (hprog j)).1 ⟨b, hb⟩
    exact hfst j hj b' hb'
  · exact ((halik k (Nat.le_refl k)).exists_meets (hprog k)).2 ⟨a, hmeet⟩

theorem exists_first (hsiz : X.Sized) (hcmp : X.package.comparesValues = true) (hX : X.Callable)
    (hdyn : X.dynamic = true) (hlim : X.limit = none)
    (h : Shows X m ⟨0, 0, .null, [], [], []⟩) (hz : ∀ x, m.peek x = 0) {n : Nat}
    (hrun : Semantics.run X.package n = .error .nullReference s)
    (hroom : X.stackWords n + X.used s ≤ X.size) :
    ∃ k a, (∀ j < k, ∀ b, ¬ (m.after j).Meets b) ∧ (m.after k).Meets a ∧
      (m.after k).output.text = X.text ++ lines s.printed := by
  obtain ⟨k, ⟨a, hmeet⟩, hout⟩ := leads_null hX hlim h hz hrun hroom
  exact ⟨k, a, fun j hj b => (Underway.fresh h hz).meets_first hsiz hcmp hX hdyn hmeet.state
    hj b, hmeet, hout⟩

end Simulation

open Simulation in
/-- Every reference to nothing is noticed.  When the program of a source follows it, the machine stops
before anything is written: for a field, an element or a call through the descriptor of the class the
heap reference fails, and for the length of an array the address does.  A method that is called by its
address is not checked for, so that nothing is said about what follows such a call.  A machine with
enough room comes to the first reference to nothing that the run of the checked package meets. -/
theorem Compiler.null_caught {c : Compiler} {name : String} {source : List UInt8} {object : Object}
    (h : c.compile name source = .ok object) :
    ∃ p, Package.checked? (Path.base name) source = some p ∧
      (p.comparesValues = true → Program.InWords object.program →
        ∀ (machine : String) (o : Machine.Options) (input : Input) (output : Output) (m : Machine),
        o.dataStore.getD Machine.defaultDataStore ≤ maxWord →
        o.capacity.getD Machine.defaultCapacity + Prim.count ≤ maxInt64 →
        Machine.load machine object o input output = .ok m →
        (∀ k a, (∀ j < k, ¬ (m.after j).Meets .call) → (m.after k).Meets a →
          a = .call ∧ c.dynamic = false ∨ (m.after k).Catches a) ∧
        ∀ n s, Semantics.run p n = .error .nullReference s → output.limit = none →
          wordsFor object p n s ≤ o.dataStore.getD Machine.defaultDataStore →
          ∃ k a, (∀ j < k, ∀ b, ¬ (m.after j).Meets b) ∧ (m.after k).Meets a ∧
            (m.after k).output.text = output.text ++ lines s.printed) := by
  obtain ⟨p, entry, hchecked, hp, hentry, hprogram, -⟩ := Compiler.exists_checked h
  refine ⟨p, hchecked, fun hcmp hwords machine o input output m hstore hcapacity hload => ?_⟩
  have hcapacity' : o.capacity.getD Machine.defaultCapacity ≤ maxInt64 := by
    simp only [Prim.count] at hcapacity
    omega
  obtain ⟨X, rfl, rfl, hdynamic, hsize, hXcapacity, htext, hXlimit, hshows, hzero⟩ :=
    exists_target hp hentry hprogram hload hstore hcapacity' hwords.size_le
  have hcallable : X.Callable := by
    rw [Target.Callable, hXcapacity]
    exact hcapacity
  have hsized : X.Sized := X.sized_of_inWords (by
    rw [Target.assembly, hdynamic, ← hprogram]
    exact hwords)
  have hfresh : Underway X m := .fresh hshows hzero
  refine ⟨fun k a hcalls hmeets => ?_, fun n s hrun hlimit hroom => ?_⟩
  · have hnotices := (hfresh.after hsized hcmp hcallable k hcalls hmeets.state).notices hcallable hmeets
    rwa [Target.Notices, hdynamic] at hnotices
  rw [← htext]
  cases hcalls : c.dynamic with
  | true =>
    exact exists_first hsized hcmp hcallable (hdynamic.trans hcalls) (hXlimit.trans hlimit) hshows hzero
      hrun (room_of_wordsFor hsize hroom)
  | false =>
    -- The machine of the other program is alike until then.
    have hX : X.dynamic = false := hdynamic.trans hcalls
    have hlength : (Assembly.ofPackage X.package true X.entry).program.size = object.program.size := by
      rw [hprogram, hcalls, Assembly.size_dynamic]
    obtain ⟨n', hload', hn', halike⟩ := Machine.load_alike
      (D := ⟨(Assembly.ofPackage X.package true X.entry).program, object.symbols⟩) hlength rfl hload
    obtain ⟨Y, hpackage, hentry', hdynamic', hsize', hcapacity', htext', hlimit', hshows', hzero'⟩ :=
      exists_target hp hentry rfl hload' hstore hcapacity' (hlength ▸ hwords.size_le)
    have hsized' : Y.Sized := by
      rw [Target.Sized, hpackage]
      exact hsized
    have hcallable' : Y.Callable := by
      rw [Target.Callable, hcapacity']
      exact hcapacity
    rw [← hpackage] at hcmp hrun hroom
    obtain ⟨k, a, hfirst, hmeets, hout⟩ := exists_first hsized' hcmp hcallable' hdynamic'
      (hlimit'.trans hlimit) hshows' hzero' hrun (room_of_wordsFor hsize' hroom)
    rw [hpackage] at hcmp
    obtain ⟨hfirst', ⟨b, hb⟩, hk⟩ := hfresh.meets_alike hsized hcmp hX halike hshows.program hn' hfirst
      hmeets
    refine ⟨k, b, hfirst', hb, ?_⟩
    rw [hk.output, hout, htext', htext]

/-- A program that asks for the length of an array that is not there. -/
def readsLength : List UInt8 :=
  "class M{public static void main(String[]a){int n=a.length;}}".toUTF8.toList

def readsLengthCode : List Instr :=
  [.make .push 0 .zr 1,
    .make .jump 0 .cb 2, .make .loadl 0 .zr (-1), .make .loadl 0 .zr 0, .make .loadl 0 .zr 0,
    .make .jump 0 .cb 7, .make .ret 0 .zr 1,
    .make .loadl 0 .zr (-1), .make .loadl 0 .zr 0, .make .loadl 0 .zr 1, .make .loadl 0 .zr 6,
    .make .jump 0 .cb 12, .make .loadl 0 .zr (-1), .make .loadl 0 .zr 0, .make .loadl 0 .zr 0,
    .make .jump 0 .cb 21,
    .make .load 1 .lb (-1), .make .loadl 0 .zr 1, .ofPrim .sub, .make .loadi 1 .zr 0,
    .make .ret 0 .zr 1,
    .make .loadl 0 .zr (-1), .make .loadl 0 .zr 0, .make .loadl 0 .zr 0,
    .make .loadl 0 .zr 0, .make .call 0 .cb 16, .make .halt 0 .zr 0]

theorem readsLength_evaluated : ∃ p object, Package.checked? "M" readsLength = some p ∧
    p.comparesValues = true ∧ Compiler.default.object p = .ok object ∧
    object.program.toList = readsLengthCode := by
  have h : (Package.checked? "M" readsLength).elim False fun p => p.comparesValues = true ∧
      (Compiler.default.object p).toOption.elim False fun object =>
        object.program.toList = readsLengthCode := by
    cbv
  obtain ⟨p, hp, hcmp, h⟩ := exists_some_of_elim h
  obtain ⟨object, hobj, hcode⟩ := exists_ok_of_elim h
  exact ⟨p, object, hp, hcmp, hobj, hcode⟩

theorem readsLength_runs (symbols : Option Symbols) : ∃ m,
    Machine.load "M" ⟨readsLengthCode.toArray, symbols⟩ ⟨some 40, none, true, false, []⟩ .empty .empty =
      .ok m ∧ (∀ j < 23, ¬ (m.after j).Meets .call) ∧ (m.after 23).Meets .length ∧
      (m.after 24).state = .failed (.dataAddress (-1) 40) := by
  have h : ((Machine.load "M" ⟨readsLengthCode.toArray, none⟩ ⟨some 40, none, true, false, []⟩
      .empty .empty).toOption.any fun m =>
        (List.range 23).all (fun j => decide (¬ (m.after j).Meets .call)) &&
          decide ((m.after 23).Meets .length) &&
          decide ((m.after 24).state = .failed (.dataAddress (-1) 40))) = true := by
    decide +kernel
  obtain ⟨m, hm, h⟩ := (any_eq_true _ _).1 h
  simp only [Bool.and_eq_true, decide_eq_true_eq, List.all_eq_true, List.mem_range] at h
  obtain ⟨⟨hcs, hmeet⟩, hsta⟩ := h
  exact ⟨m, eq_ok_of_toOption hm, hcs, hmeet, hsta⟩

/-- The machine notices the length of an array that is not there, and writes nothing. -/
theorem Compiler.null_caught_readsLength : ∃ object m,
    Compiler.default.compile "M" readsLength = .ok object ∧
    Machine.load "M" object ⟨some 40, none, true, false, []⟩ .empty .empty = .ok m ∧
    (m.after 23).Meets .length ∧ (m.after 23).Catches .length := by
  obtain ⟨p, ⟨program, symbols⟩, hp, hcompare, hobject, hcode⟩ := readsLength_evaluated
  obtain rfl : program = readsLengthCode.toArray := Array.toList_inj.1 hcode
  have hwords : Program.InWords readsLengthCode.toArray := ⟨by decide, by decide⟩
  obtain ⟨m, hm, hcalls, hmeets, -⟩ := readsLength_runs symbols
  have hcompile := (Compiler.compile_of_checked "M" hp).trans hobject
  obtain ⟨q, hq, hcaught⟩ := Compiler.null_caught hcompile
  cases hp.symm.trans hq
  obtain ⟨hcatches, -⟩ := hcaught hcompare hwords "M" _ .empty .empty m (by decide) (by decide) hm
  refine ⟨_, m, hcompile, hm, hmeets, (hcatches 23 .length hcalls hmeets).resolve_left nofun⟩

/-- The condition of the machine then is not the one for references into the heap. -/
theorem Compiler.length_not_heapRef : ∃ object m why,
    Compiler.default.compile "M" readsLength = .ok object ∧
    Machine.load "M" object ⟨some 40, none, true, false, []⟩ .empty .empty = .ok m ∧
    (m.after 23).Meets .length ∧ (m.after 24).state = .failed why ∧
    why.condition = .invalidInstruction ∧ why.condition ≠ .heapRef := by
  obtain ⟨p, ⟨program, symbols⟩, hp, -, hobject, hcode⟩ := readsLength_evaluated
  obtain rfl : program = readsLengthCode.toArray := Array.toList_inj.1 hcode
  obtain ⟨m, hm, -, hmeets, hstate⟩ := readsLength_runs symbols
  exact ⟨_, m, _, (Compiler.compile_of_checked "M" hp).trans hobject, hm, hmeets, hstate, rfl, nofun⟩

end MiniJam
