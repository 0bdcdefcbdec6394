import MiniJam.Proofs.Simulation.Steps

/-!
# Primitive routines between configurations

What the primitive routines that compiled code calls do to a configuration.
-/

namespace MiniJam

open Machine List Exec

namespace Simulation

open Semantics Machine.Exec

variable {X : Target}

variable {m : Machine} {c : Config}

theorem ensures_callPrim {stop : Machine.Stop → Machine → Prop} (hX : X.Callable)
    (hm : Shows X m c) (q : Prim) (next : Int) :
    Ensures (operation .call (.make .call 0 .pb q.code) next) m ok stop ↔
      Ensures (primitive q) m (fun _ m' => ok next m') stop := by
  have haddrs : Addresses X.assembly.program.size m.capacity := by
    rw [hm.capacity]
    exact ⟨X.fits, hX⟩
  exact ensures_primitive (Int.natCast_nonneg _) haddrs q

theorem wrap64_of_gt (h : maxInt64 < x) (h' : x ≤ maxInt64 + Prim.count) :
    wrap64 x = x - 18446744073709551616 := by
  simp only [maxInt64, Prim.count] at h h'
  simp only [wrap64, minInt64, maxInt64, Int.bmod]
  omega

/-- A code segment that ends with the largest numbers leaves no addresses for the primitive
routines: they are those of no instruction and of no routine. -/
theorem Target.prim_out (hX : ¬ X.Callable) (hm : Shows X m c) (q : Prim) :
    ¬ (m.pb ≤ wrap64 (X.capacity + q.code) ∧ wrap64 (X.capacity + q.code) < m.pt) ∧
      ¬ (0 ≤ wrap64 (X.capacity + q.code) ∧ wrap64 (X.capacity + q.code) < m.ct) := by
  have hcode : 0 ≤ q.code ∧ q.code < Prim.count := by cases q <;> decide
  have hfits := X.fits
  have hle := X.capacity_le
  have hct : m.ct = X.assembly.program.size := congrArg (fun p : Program => (p.size : Int)) hm.program
  have hpb : m.pb = X.capacity := hm.capacity
  have hpt : m.pt = X.capacity + Prim.count - 18446744073709551616 :=
    (congrArg (fun n => wrap64 (n + Prim.count)) hm.capacity).trans
      (wrap64_of_gt (Int.not_le.1 hX) (Int.add_le_add_right hle _))
  -- The address of the routine may be the last number or may have wrapped around.
  by_cases hmax : X.capacity + q.code ≤ maxInt64
  · have hmem : minInt64 ≤ X.capacity + q.code ∧ X.capacity + q.code ≤ maxInt64 := by
      simp only [minInt64] at *
      omega
    rw [wrap64_of_mem hmem]
    simp only [maxInt64, Prim.count] at *
    omega
  · rw [wrap64_of_gt (Int.not_le.1 hmax) (by omega)]
    simp only [maxInt64, Prim.count] at *
    omega

theorem strays_prim (hX : ¬ X.Callable) (hm : Shows X m c) (hi : X.InstrAt c.cp (.ofPrim q)) :
    X.Strays m.step.1 := by
  refine ⟨(step_iff hm.state (hm.instrAt? hi.get) fun r => r.1.state ≠ .running).2 ?_, hX⟩
  obtain ⟨hprim, hcode⟩ := X.prim_out hX hm q
  have hreg : m.reg .pb = X.capacity := hm.capacity
  have hlink : linkWords = (3 : Nat) := rfl
  have hi' : Instr.ofPrim q = .make .call 0 .pb q.code := rfl
  rw [hi', ensures_instruction (Opcode.ofCode?_code .call)]
  simp only [operation, Exec.call, ensures_bind, ensures_effective_wrap, hreg,
    ensures_get, if_neg hprim, ensures_pure, hlink, ensures_checkSpace hm]
  split
  · have hst := hm.st
    have hsize := hm.size
    have hfr : 0 ≤ m.st ∧ m.st + linkWords ≤ m.hb := by
      omega
    rw [ensures_pushFrame 0 hfr]
    have hct : (framed m m.st 0).ct = m.ct := by simp [framed, ct]
    rw [hct, if_neg hcode]
    intro h
    cases h
  · intro h
    cases h

section

variable {cp lb : Nat} {this : Value} {stack rest stack' : List Cell}
  {heap heap' : List Block} {printed printed' : List Int} {q : Prim} {why : Failure} {need : Nat}

section

variable (hi : X.InstrAt cp (.ofPrim q))

include hi

theorem grows_prim (h : ∀ m, Shows X m ⟨cp, lb, this, stack, heap, printed⟩ → Ensures (primitive q) m
      (fun _ m' => Shows X m' ⟨cp, lb, this, stack', heap', printed'⟩)
      fun e _ => (∃ why, e = .failure why) ∧ ¬ need + heapWords X.package heap' ≤ X.size) :
    Grows X need ⟨cp, lb, this, stack, heap, printed⟩
      ⟨cp + 1, lb, this, stack', heap', printed'⟩ := by
  by_cases hX : X.Callable
  · refine grows_of_operation hi.get hi.lt fun m hm => ?_
    rw [ensures_callPrim hX hm]
    exact (h m hm).mono (fun _ m' hm' => ⟨rfl, hm'.withCP rfl⟩) fun _ _ => id
  · exact ⟨fun _ m hm => .inr (strays_prim hX hm hi),
      fun m hm hrun => absurd hrun (strays_prim hX hm hi).1⟩

theorem steps_prim (h : ∀ m, Shows X m ⟨cp, lb, this, stack, heap, printed⟩ → Ensures (primitive q) m
      (fun _ m' => Shows X m' ⟨cp, lb, this, stack', heap', printed'⟩) fun _ _ => False) :
    Steps X ⟨cp, lb, this, stack, heap, printed⟩ ⟨cp + 1, lb, this, stack', heap', printed'⟩ := by
  by_cases hX : X.Callable
  · refine steps_of_operation hi.get hi.lt fun m hm => ?_
    rw [ensures_callPrim hX hm]
    exact (h m hm).mono (fun _ m' hm' => ⟨rfl, hm'.withCP rfl⟩) fun _ _ => id
  · exact fun m hm => .inr (strays_prim hX hm hi)

theorem stops_prim (h : ∀ m, Shows X m ⟨cp, lb, this, stack, heap, printed⟩ → Ensures (primitive q) m
      (fun _ _ => False) fun e m' => e = .failure why ∧ m'.output = m.output ∧ m'.data = m.data) :
    Stops X ⟨cp, lb, this, stack, heap, printed⟩ why := by
  by_cases hX : X.Callable
  · refine stops_of_operation hi.get fun m hm => ?_
    rw [ensures_callPrim hX hm]
    exact h m hm
  · exact fun m hm => .inr (strays_prim hX hm hi)

end

variable {m : Machine} {x cell y : Cell} {f : Int → Int → Exec Int} {c : Config} {a : Nat}
  {b : Block} {n : Int32}

theorem ensures_word_null {above : List Cell}
    (hq : (Instr.ofPrim q).access? = some (.word above.length))
    (hm : Shows X m ⟨cp, lb, this, above ++ .val .null :: stack, heap, printed⟩) :
    Ensures (primitive q) m (fun _ _ => False) fun e m' => e = .failure .nullReference ∧ m' = m := by
  cases q with
  | fieldref | arrayref =>
    obtain ⟨x, rfl⟩ : ∃ x, above = [x] :=
      length_eq_one_iff.1 (Access.word.inj (Option.some.inj hq)).symm
    simp only [primitive, fieldIndex, arrayIndex, ensures_bind, ensures_top2 hm rfl,
      ensures_heapRef_null, and_self]
  | fieldupd | arrayupd =>
    obtain ⟨x, y, rfl⟩ : ∃ x y, above = [x, y] :=
      length_eq_two.1 (Access.word.inj (Option.some.inj hq)).symm
    simp only [primitive, fieldIndex, arrayIndex, ensures_bind, ensures_top3 hm rfl,
      ensures_heapRef_null, and_self]
  | _ => cases hq

theorem refused_word (above : List Cell) (hi : X.InstrAt cp (.ofPrim q))
    (hq : (Instr.ofPrim q).access? = some (.word above.length)) :
    Refused X ⟨cp, lb, this, above ++ .val .null :: stack, heap, printed⟩ := by
  refine ⟨.word above.length, fun m hm =>
    ⟨⟨hm.state, by rw [hm.instrAt? hi.get]; exact hq, hm.peek_under above rfl⟩, ?_⟩⟩
  by_cases hX : X.Callable
  · refine .inl (step_eq_fail hm.state (hm.instrAt? hi.get) ?_)
    rw [ensures_callPrim hX hm]
    exact ensures_word_null hq hm
  · exact .inr (strays_prim hX hm hi)

/-! ### Arithmetic -/

theorem ensures_unary {f : Int → Exec Int}
    (hm : Shows X m ⟨cp, lb, this, x :: rest, heap, printed⟩) (hcell : cell.Good heap)
    (hf : f (X.word heap x) = pure (X.word heap cell)) :
    Ensures (unary f) m
      (fun _ m' => Shows X m' ⟨cp, lb, this, cell :: rest, heap, printed⟩) fun _ _ => False := by
  simp only [Exec.unary, ensures_bind, ensures_top1 hm rfl, hf, ensures_pure, ensures_setTop hm rfl]
  exact hm.setStack [] rfl hcell rfl rfl

theorem ensures_binary
    (hm : Shows X m ⟨cp, lb, this, y :: x :: rest, heap, printed⟩) (hcell : cell.Good heap)
    (hf : f (X.word heap x) (X.word heap y) = pure (X.word heap cell)) :
    Ensures (binary f) m
      (fun _ m' => Shows X m' ⟨cp, lb, this, cell :: rest, heap, printed⟩) fun _ _ => False := by
  have hst : m.st = (rest.length + 1 + 1 : Nat) := hm.st
  have hst' : m.st - 1 = (x :: rest).length := by
    rw [length_cons]
    omega
  have hm' := hm.drop [y] rfl hst'
  simp only [Exec.binary, ensures_bind, ensures_top2 hm rfl, hf, ensures_pure, ensures_drop,
    ensures_setTop hm' rfl]
  exact hm'.setStack [] rfl hcell rfl rfl

theorem checkWord_eq {x : Int} (h : minWord ≤ x ∧ x ≤ maxWord) : checkWord x = pure x := by
  simp only [checkWord, require, h, decide_true, Bool.and_self, ↓reduceIte]
  rfl

theorem ensures_checkWord_overflow {x : Int} (h : ¬ (minWord ≤ x ∧ x ≤ maxWord)) :
    Ensures (checkWord x) m (fun _ _ => False) fun e m' => e = .failure (.overflow x) ∧ m' = m := by
  simp [checkWord, ensures_require, h]

section

variable (hi : X.InstrAt cp (.ofPrim q))

include hi

theorem steps_compare {b : Bool} (hq : primitive q = compare rel)
    (hb : x.Good heap → y.Good heap → heapWords X.package heap ≤ X.size →
      rel (X.word heap x) (X.word heap y) = b) :
    Steps X ⟨cp, lb, this, y :: x :: rest, heap, printed⟩
      ⟨cp + 1, lb, this, .val (.bool b) :: rest, heap, printed⟩ := by
  refine steps_prim hi fun m hm => ?_
  have hcell : Cell.Good heap (.val (.bool b)) := trivial
  have hb := hb (hm.holds_at [y] rfl).1 (hm.holds_at [] rfl).1 hm.heapWords_le
  rw [hq]
  exact ensures_binary hm hcell (by rw [hb]; rfl)

theorem steps_arith {r : Int} (hq : primitive q = binary f)
    (hf : f (X.word heap x) (X.word heap y) = checkWord r) (hr : minWord ≤ r ∧ r ≤ maxWord) :
    Steps X ⟨cp, lb, this, y :: x :: rest, heap, printed⟩
      ⟨cp + 1, lb, this, .val (.int (.ofInt r)) :: rest, heap, printed⟩ := by
  refine steps_prim hi fun m hm => ?_
  have hcell : Cell.Good heap (.val (.int (.ofInt r))) := trivial
  rw [hq]
  refine ensures_binary hm hcell ?_
  rw [hf, checkWord_eq hr]
  exact congrArg pure (toInt_ofInt_of_mem hr).symm

theorem stops_binary (hq : primitive q = binary f)
    (hf : ∀ m, Ensures (f (X.word heap x) (X.word heap y)) m (fun _ _ => False)
      fun e m' => e = .failure why ∧ m' = m) :
    Stops X ⟨cp, lb, this, y :: x :: rest, heap, printed⟩ why := by
  refine stops_prim hi fun m hm => ?_
  simp only [hq, Exec.binary, ensures_bind, ensures_top2 hm rfl]
  refine (hf m).mono (fun _ _ => False.elim) ?_
  rintro e m' ⟨rfl, rfl⟩
  exact ⟨rfl, rfl, rfl⟩

end

/-! ### Blocks -/

theorem encode_add_lt (hm : Shows X m c)
    (hb : c.heap[a]? = some b) {i : Int} (hi : i < (values X.package b).length) :
    X.encode c.heap (.ref a) + i < m.hb := by
  have htop := X.base_add_span hb
  have hsize := hm.size
  simp only [Target.encode, headerWords, span] at *
  omega

theorem ensures_arrayIndex {ok : Unit → Machine → Prop}
    {stop : Machine.Stop → Machine → Prop} (hm : Shows X m c) {elem : Ty}
    {elems : List Value} (hb : c.heap[a]? = some (.array elem elems)) (i : Int) :
    Ensures (arrayIndex (X.encode c.heap (.ref a)) i) m ok stop ↔
      if 0 ≤ i ∧ i < elems.length then ok () m
      else stop (.failure (.arrayIndex i elems.length)) m := by
  have ha := (List.getElem?_eq_some_iff.1 hb).1
  have htag : X.word c.heap (.raw (tag X.package (.array elem elems))) = arrayTag := rfl
  have hlen : X.word c.heap (.raw (values X.package (.array elem elems)).length) =
    elems.length := rfl
  simp only [arrayIndex, ensures_bind, ensures_heapRef hm ha, ensures_wordOf hm.size (hm.reads_tag hb),
    htag, ensures_require, beq_self_eq_true, ↓reduceIte, ensures_wordOf hm.size (hm.reads_size hb),
    hlen, ensures_get]
  by_cases hi : 0 ≤ i ∧ i < elems.length
  · have hlt := encode_add_lt hm hb hi.2
    simp [hi, hlt]
  · simp [hi]

theorem ensures_fieldIndex {stop : Machine.Stop → Machine → Prop} (hm : Shows X m c)
    (hb : c.heap[a]? = some b) (hk : k < (values X.package b).length) :
    Ensures (fieldIndex (X.encode c.heap (.ref a)) k) m ok stop ↔ ok () m := by
  have ha := (List.getElem?_eq_some_iff.1 hb).1
  have hlt := encode_add_lt hm hb (i := k) (by omega)
  have hlen : X.word c.heap (.raw (values X.package b).length) = (values X.package b).length := rfl
  have hk' : (k : Int) < (values X.package b).length := by omega
  simp only [fieldIndex, ensures_bind, ensures_heapRef hm ha, ensures_require,
    ensures_wordOf hm.size (hm.reads_size hb), hlen, ensures_get, Int.natCast_nonneg, hk', hlt,
    decide_true, Bool.and_self, ↓reduceIte]

theorem ensures_fetch {a i : Cell} {x : Int}
    (hm : Shows X m ⟨cp, lb, this, i :: a :: rest, heap, printed⟩) (hr : Reads X m heap x cell) :
    Ensures (do drop 1; setTop (← word x)) m
      (fun _ m' => Shows X m' ⟨cp, lb, this, cell :: rest, heap, printed⟩) fun _ _ => False := by
  have hst : m.st = (rest.length + 1 + 1 : Nat) := hm.st
  have hst' : m.st - 1 = (a :: rest).length := by
    rw [length_cons]
    omega
  have hm' := hm.drop [i] rfl hst'
  have hr' : Reads X (m.withST (m.st - 1)) heap x cell :=
    ⟨hr.nonneg, hr.lt, hr.good, hr.peek⟩
  simp only [ensures_bind, ensures_drop, ensures_wordOf hm'.size hr', ensures_setTop hm' rfl]
  exact hm'.setStack [] rfl hr.good rfl rfl

theorem ensures_update {k : Nat} {i : Cell} {b' : Block} {v : Value} {x : Int}
    (hm : Shows X m ⟨cp, lb, this, .val v :: i :: .val (.ref a) :: rest, heap, printed⟩)
    (hb : heap[a]? = some b) (hk : k < (values X.package b).length)
    (htag : tag X.package b' = tag X.package b)
    (hb' : values X.package b' = (values X.package b).set k v)
    (hx : x = X.encode heap (.ref a) + k) :
    Ensures (do setWord x (X.encode heap v); drop 3) m
      (fun _ m' => Shows X m' ⟨cp, lb, this, rest, heap.set a b', printed⟩) fun _ _ => False := by
  have hst : m.st = (rest.length + 1 + 1 + 1 : Nat) := hm.st
  have hst' : m.st - 3 = rest.length := by omega
  have hbase : 0 ≤ X.base heap a := (X.base_nonneg hm.heapWords_le a).2
  have hlt := encode_add_lt hm hb (i := k) (by omega)
  have hv : Live heap v := (hm.holds_at [] rfl).1
  have hx' : x = X.base heap a + ((k + 2 : Nat) : Int) := by
    rw [hx]
    simp only [Target.encode, headerWords]
    omega
  have hin : 0 ≤ x ∧ x < m.hb := by
    refine ⟨?_, hx ▸ hlt⟩
    rw [hx']
    omega
  have hcel : cells X.package b' = (cells X.package b).set (k + 2) (.val v) := by
    simp [cells, htag, hb']
  have hm' := hm.setBlock hb hcel (by simp only [span]; omega) hv hx' rfl
  simp only [ensures_bind, ensures_setWord, if_pos hin, ensures_drop, poke_st]
  exact hm'.drop [.val v, i, .val (.ref a)] rfl hst'

/-! ### Allocation -/

theorem Shows.orderly (hm : Shows X m c) : m.Orderly := by
  have hst := hm.st
  have hle := hm.st_le
  have hsize := hm.size
  have hmax := X.size_le
  exact ⟨by omega, by omega, by omega, by omega⟩

theorem Shows.allocated (hm : Shows X m c) (htag : Cell.Good c.heap (.raw (tag X.package b)))
    (hzero : ∀ v ∈ values X.package b, Live c.heap v ∧ X.encode c.heap v = 0)
    (hroom : c.stack.length + heapWords X.package (c.heap ++ [b]) ≤ X.size)
    (hf : m.HasRoom (values X.package b).length) :
    Shows X (m.allocated (tag X.package b) (values X.package b).length)
      { c with heap := c.heap ++ [b] } := by
  have hsame : ∀ x, 0 ≤ x → x < m.st ∨ m.ht ≤ x →
      (m.allocated (tag X.package b) (values X.package b).length).peek x = m.peek x := by
    intro x hx hout
    simp only [HasRoom] at hf
    exact peek_allocated_of_not_mem hm.orderly hf hx (by omega)
  have hl := lays_allocated hm.orderly hf htag
  have hsize := X.size_le
  have hspan : span X.package b = (values X.package b).length + 2 := rfl
  have hws := heapWords_append (p := X.package) c.heap b
  rw [allocated_eq]
  refine (hm.withData (Int.ofNat.inj (m.allocated_hb _ _)) hsame).grow hroom ?_ fun k cell hk => ?_
  · simp only [headerWords]
    omega
  -- The block is laid out as its tag, its length and its words.
  obtain _ | _ | k := k
  · obtain rfl : Cell.raw (tag X.package b) = cell := by simpa [cells] using hk
    refine ⟨htag, (congrArg _ ?_).trans hl.tag⟩
    simp only [headerWords, headerClass]
    omega
  · obtain rfl : Cell.raw (values X.package b).length = cell := by simpa [cells] using hk
    refine ⟨?_, (congrArg _ ?_).trans (hl.length.trans (congrArg _ length_replicate))⟩
    · simp only [Cell.Good, minWord, maxWord] at *
      omega
    · simp only [headerWords, headerSize]
      omega
  · obtain ⟨v, hv, rfl⟩ : ∃ v, (values X.package b)[k]? = some v ∧ Cell.val v = cell := by
      simpa [cells] using hk
    obtain ⟨hlive, hword⟩ := hzero v (mem_of_getElem? hv)
    have hk := (List.getElem?_eq_some_iff.1 hv).1
    refine ⟨hlive, (congrArg _ ?_).trans ((hl.words k 0 ?_).trans hword.symm)⟩
    · simp only [headerWords]
      omega
    · rw [getElem?_replicate, if_pos hk]

theorem ensures_allocate (hm : Shows X m c) (htag : Cell.Good c.heap (.raw (tag X.package b)))
    (hzero : ∀ v ∈ values X.package b, Live c.heap v ∧ X.encode c.heap v = 0) :
    Ensures (allocate (tag X.package b) (values X.package b).length) m
      (fun r m' => r = X.encode (c.heap ++ [b]) (.ref c.heap.length) ∧
        Shows X m' { c with heap := c.heap ++ [b] })
      fun e _ => (∃ why, e = .failure why) ∧
        ¬ c.stack.length + heapWords X.package (c.heap ++ [b]) ≤ X.size := by
  have hws := heapWords_append (p := X.package) c.heap b
  have hspan : span X.package b = (values X.package b).length + 2 := rfl
  by_cases hr : c.stack.length + heapWords X.package (c.heap ++ [b]) ≤ X.size
  · have hf : m.HasRoom (values X.package b).length := by
      have hst := hm.st
      have hht := hm.ht
      simp only [HasRoom, headerWords]
      omega
    rw [Exec.ensures_allocate hm.orderly.st_nonneg hm.orderly.ht_le _ hf]
    refine ⟨?_, hm.allocated htag hzero hr hf⟩
    have hht := hm.ht
    rw [Target.encode, X.base_append, headerWords]
    omega
  · have htot : ((values X.package b).length : Int) + headerWords =
        ((values X.package b).length + 2 : Nat) := rfl
    have hfull : ¬ c.stack.length + ((values X.package b).length + 2) +
        heapWords X.package c.heap ≤ X.size := by omega
    simp only [Exec.allocate, ensures_bind, ensures_require, Int.natCast_nonneg, decide_true,
      ↓reduceIte, htot, ensures_checkSpace hm, if_neg hfull]
    exact ⟨⟨_, rfl⟩, hr⟩

theorem shows_putintnl (hi : X.InstrAt cp (.ofPrim .putintnl))
    (hm : Shows X m ⟨cp, lb, this, .val (.int n) :: rest, heap, printed⟩) :
    Shows X m.step.1 ⟨cp + 1, lb, this, rest, heap, printed ++ [n.toInt]⟩ ∨
      m.step.1.state ≠ .running ∧ (X.limit = none → ¬ X.Callable) := by
  by_cases hX : X.Callable; swap
  · exact .inr ⟨(strays_prim hX hm hi).1, fun _ => hX⟩
  refine shows_of_operation hi.get hi.lt hm ?_
  rw [ensures_callPrim hX hm]
  have hm' := hm.drop [.val (.int n)] rfl rfl
  simp only [primitive, ensures_bind, ensures_pop hm rfl]
  have hword : X.word heap (.val (.int n)) = n.toInt := rfl
  rw [hword, Ensures, Exec.print]
  cases href : (m.withST rest.length).output.refuses s!">>> {n.toInt}\n" with
  | none => exact ⟨rfl, (hm'.print n.toInt).withCP rfl⟩
  | some cause =>
    refine ⟨⟨_, rfl⟩, fun hlim => ?_⟩
    simp [Output.refuses, hm.limit, hlim] at href

theorem steps_putintnl (hlim : X.limit = none) (hi : X.InstrAt cp (.ofPrim .putintnl)) :
    Steps X ⟨cp, lb, this, .val (.int n) :: rest, heap, printed⟩
      ⟨cp + 1, lb, this, rest, heap, printed ++ [n.toInt]⟩ :=
  fun _ hm => (shows_putintnl hi hm).imp_right fun h => ⟨h.1, h.2 hlim⟩

end

end Simulation

end MiniJam
