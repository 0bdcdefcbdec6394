import MiniJam.Object.File
import MiniJam.Proofs.Text.Bytes

/-!
# Programs read back from their bytes

A program that is written takes sixteen bytes for each instruction, and what is read from them has
the words of all fields (`Instr.stored`).  This is the program itself if and only if every operation
and every register is a word (`Program.decode_write`): the length field and the displacement are
checked when an instruction is written, but the other two fields are not.

Bytes are a program whatever they say, as long as there are sixteen for each instruction, and they are
what is written for it unless a length field is refused (`Program.encode_decode`).
-/

namespace MiniJam

open List Instr Text

def IsWord (n : Int) : Prop := minWord ≤ n ∧ n ≤ maxWord

instance (n : Int) : Decidable (IsWord n) := inferInstanceAs (Decidable (_ ∧ _))

theorem bmod_wordCount_eq_iff {n : Int} : n.bmod wordCount = n ↔ IsWord n := by
  constructor
  · intro h
    have hlow := @Int.le_bmod n wordCount (by decide)
    have hh := @Int.bmod_lt n wordCount (by decide)
    simp only [wordCount, IsWord, minWord, maxWord] at *
    omega
  · rintro ⟨hlow, hh⟩
    simp only [minWord, maxWord] at hlow hh
    exact Int.bmod_eq_of_le (by simp only [wordCount]; omega) (by simp only [wordCount]; omega)

def Instr.stored (i : Instr) : Instr :=
  ⟨i.op.bmod wordCount, i.n.bmod wordCount, i.r.bmod wordCount, i.d.bmod wordCount⟩

/-- The fields that are checked before an instruction is written can be written. -/
structure Instr.Writable (i : Instr) : Prop where
  n_nonneg : 0 ≤ i.n
  n_le : i.n ≤ 255
  d_word : IsWord i.d

theorem Instr.Writable.stored_eq_iff {i : Instr} (h : i.Writable) :
    i.stored = i ↔ IsWord i.op ∧ IsWord i.r := by
  have hn : IsWord i.n := ⟨Int.le_trans (by decide) h.n_nonneg, Int.le_trans h.n_le (by decide)⟩
  simp only [← bmod_wordCount_eq_iff] at hn ⊢
  have hd := bmod_wordCount_eq_iff.2 h.d_word
  obtain ⟨op, n, r, d⟩ := i
  simp only [stored, mk.injEq] at *
  tauto

namespace Program

/-! ### Instructions -/

theorem length_encodeWord (n : Int) : (encodeWord n).length = 4 := length_bigEndian 4 _

theorem decodeWord_encodeWord (n : Int) : decodeWord (encodeWord n) = n.bmod wordCount := by
  have hnon : 0 ≤ n % wordCount := Int.emod_nonneg _ (by decide)
  have hlt : n % wordCount < wordCount := Int.emod_lt_of_pos _ (by decide)
  have hbyt : ofBigEndian (encodeWord n) = (n % wordCount).toNat := by
    rw [encodeWord, ofBigEndian_bigEndian]
    refine Nat.mod_eq_of_lt ?_
    simp only [wordCount] at hlt ⊢
    omega
  rw [decodeWord, hbyt, Int.toNat_of_nonneg hnon, Int.emod_bmod]

theorem length_encodeInstr (i : Instr) : (encodeInstr i).length = instrBytes := by
  simp [encodeInstr, length_encodeWord, instrBytes]

theorem decodeInstr_encodeInstr (i : Instr) : decodeInstr (encodeInstr i) = i.stored := by
  have hdrop : ∀ n k, 4 ≤ k → (encodeWord n).drop k = [] := fun n k hk =>
    drop_eq_nil_of_le ((length_encodeWord n).trans_le hk)
  have htake : ∀ n, (encodeWord n).take 4 = encodeWord n := fun n =>
    take_of_length_le (length_encodeWord n).le
  simp [decodeInstr, encodeInstr, stored, drop_append, length_encodeWord,
    decodeWord_encodeWord, hdrop, htake]

end Program

theorem Sink.written_of_write {s s' : Sink} {bytes : List UInt8} (h : s.write bytes = .ok s') :
    s'.written.toList = s.written.toList ++ bytes := by
  rw [Sink.write] at h
  split at h
  · rw [← Except.ok.inj h]
    exact Array.toList_appendList
  · split_ifs at h
    rw [← Except.ok.inj h]
    exact Array.toList_appendList

namespace Program

/-! ### Programs -/

theorem length_encoded (is : List Instr) :
    (is.flatMap encodeInstr).length = instrBytes * is.length := by
  induction is with
  | nil => rfl
  | cons i is ih =>
    rw [flatMap_cons, length_append, length_encodeInstr, ih, length_cons,
      Nat.mul_succ, Nat.add_comm]

theorem decodeWhole_encoded (is : List Instr) :
    decodeWhole (is.flatMap encodeInstr) = is.map stored := by
  induction is with
  | nil =>
    rw [decodeWhole]
    rfl
  | cons i is ih =>
    have hlen := length_encodeInstr i
    have hle : instrBytes ≤ (encodeInstr i ++ is.flatMap encodeInstr).length := by
      rw [length_append]
      omega
    rw [flatMap_cons, decodeWhole, if_pos hle, ← hlen, take_left, drop_left, ih,
      decodeInstr_encodeInstr, map_cons]

theorem decode_encoded (p : Program) :
    decode (p.toList.flatMap encodeInstr) none = .ok (p.map stored) := by
  have hwhol : (p.toList.flatMap encodeInstr).length % instrBytes = 0 := by
    rw [length_encoded, Nat.mul_mod_right]
  simp only [decode, hwhol, ne_eq, not_true_eq_false, ↓reduceIte, decodeWhole_encoded]
  rw [← Array.toList_map, Array.toArray_toList]

/-- The instruction is not written to the sink: a check fails, that of the length field before that of
the displacement, or the sink takes no more. -/
inductive Refused (sink : Sink) (i : Instr) (addr : Nat) : EncodeError → Prop
  | lengthField (hn : ¬ (0 ≤ i.n ∧ i.n ≤ 255)) : Refused sink i addr (.lengthField addr i)
  | displacement (hn : 0 ≤ i.n ∧ i.n ≤ 255) (hd : ¬ IsWord i.d) :
    Refused sink i addr (.displacement addr i)
  | write {message : String} (hi : i.Writable) (hwrite : sink.write (encodeInstr i) = .error message) :
    Refused sink i addr (.write addr message)

theorem writeFrom_cons (addr : Nat) (sink : Sink) (i : Instr) (is : List Instr) :
    (∃ e, Refused sink i addr e ∧ writeFrom addr sink (i :: is) = (sink, some e)) ∨
      ∃ sink₁, i.Writable ∧ sink.write (encodeInstr i) = .ok sink₁ ∧
        writeFrom addr sink (i :: is) = writeFrom (addr + 1) sink₁ is := by
  rw [writeFrom]
  by_cases hn : i.n < 0 ∨ 255 < i.n
  · rw [if_pos hn]
    exact .inl ⟨_, .lengthField (by omega), rfl⟩
  rw [if_neg hn]
  replace hn : 0 ≤ i.n ∧ i.n ≤ 255 := by omega
  by_cases hd : i.d < minWord ∨ maxWord < i.d
  · rw [if_pos hd]
    exact .inl ⟨_, .displacement hn (by rw [IsWord]; omega), rfl⟩
  rw [if_neg hd]
  simp only [not_or, Int.not_lt] at hd
  have hi : i.Writable := ⟨hn.1, hn.2, hd⟩
  cases hwrit : sink.write (encodeInstr i) with
  | error message => exact .inl ⟨_, .write hi hwrit, rfl⟩
  | ok sink₁ => exact .inr ⟨sink₁, hi, rfl, rfl⟩

variable {addr : Nat} {sink : Sink} {is : List Instr} {bs : List UInt8}

/-- Each instruction that is written passes the checks, and its bytes come behind those before
it. -/
theorem written_of_writeFrom (h : writeFrom addr sink is = (sink', none)) :
    (∀ i ∈ is, i.Writable) ∧ sink'.written.toList = sink.written.toList ++ is.flatMap encodeInstr := by
  induction is generalizing addr sink with
  | nil =>
    obtain rfl := (Prod.mk.inj h).1
    exact ⟨nofun, (append_nil _).symm⟩
  | cons i is ih =>
    rcases writeFrom_cons addr sink i is with ⟨e, -, hstop⟩ | ⟨sink₁, hi, hwrite, hrest⟩
    · cases hstop.symm.trans h
    · obtain ⟨hwrit, hwr⟩ := ih (hrest.symm.trans h)
      refine ⟨forall_mem_cons.2 ⟨hi, hwrit⟩, ?_⟩
      rw [hwr, Sink.written_of_write hwrite, append_assoc, flatMap_cons]

/-- Where writing fails, the instructions before have been written and no other bytes. -/
theorem refused_of_writeFrom {e : EncodeError} (h : writeFrom addr sink is = (sink', some e)) :
    ∃ k i, is[k]? = some i ∧ Refused sink' i (addr + k) e ∧
      sink'.written.toList = sink.written.toList ++ (is.take k).flatMap encodeInstr := by
  induction is generalizing addr sink with
  | nil => cases h
  | cons i is ih =>
    rcases writeFrom_cons addr sink i is with ⟨e', href, hstop⟩ | ⟨sink₁, -, hwrit, hrest⟩
    · cases hstop.symm.trans h
      exact ⟨0, i, rfl, href, (append_nil _).symm⟩
    · obtain ⟨k, j, hk, href, hwr⟩ := ih (hrest.symm.trans h)
      refine ⟨k + 1, j, hk, by rwa [← Nat.add_assoc, Nat.add_right_comm], ?_⟩
      rw [hwr, Sink.written_of_write hwrit, append_assoc, take_succ_cons, flatMap_cons]

theorem writeFrom_of_writable (hs : sink.limit = none)
    (h : ∀ i ∈ is, i.Writable) : (writeFrom addr sink is).2 = none := by
  induction is generalizing addr sink with
  | nil => rfl
  | cons i is ih =>
    obtain ⟨hi, his⟩ := forall_mem_cons.1 h
    have hwrit : sink.write (encodeInstr i) = .ok { sink with written := sink.written ++ encodeInstr i } := by
      rw [Sink.write, hs]
    rcases writeFrom_cons addr sink i is with ⟨e, href, -⟩ | ⟨sink₁, -, hwrit₁, hrest⟩
    · -- None of the three reasons is there.
      cases href with
      | lengthField hn => exact absurd ⟨hi.n_nonneg, hi.n_le⟩ hn
      | displacement _ hd => exact absurd hi.d_word hd
      | write _ href => cases href.symm.trans hwrit
    · cases hwrit.symm.trans hwrit₁
      rw [hrest]
      exact ih hs his

theorem encode_eq_ok_iff {p : Program} {bytes : List UInt8} :
    p.encode = .ok bytes ↔ (∀ i ∈ p, i.Writable) ∧ bytes = p.toList.flatMap encodeInstr := by
  have hspl : ∀ sink', p.write .unlimited = (sink', none) →
      (∀ i ∈ p, i.Writable) ∧ sink'.written.toList = p.toList.flatMap encodeInstr := by
    intro sink' h
    obtain ⟨hwrit, hwr⟩ := written_of_writeFrom h
    exact ⟨fun i hi => hwrit i (Array.mem_toList_iff.2 hi), hwr⟩
  rw [encode]
  split
  · rename_i sink' h
    obtain ⟨hwrit, hwr⟩ := hspl sink' h
    simp only [Except.ok.injEq, hwr]
    exact ⟨fun h => ⟨hwrit, h.symm⟩, fun h => h.2.symm⟩
  · rename_i sink' e h
    refine ⟨nofun, fun ⟨hwrit, _⟩ => ?_⟩
    have hn : (p.write .unlimited).2 = none :=
      writeFrom_of_writable rfl fun i hi => hwrit i (Array.mem_toList_iff.1 hi)
    rw [h] at hn
    cases hn

/-- A program that is written without a failure has passed its checks, takes sixteen bytes for each
instruction, and is read back from them if and only if all its operations and registers are
words. -/
theorem decode_write {p : Program} {sink sink' : Sink} (h : p.write sink = (sink', none)) :
    ∃ bytes, sink'.written.toList = sink.written.toList ++ bytes ∧ p.encode = .ok bytes ∧
      bytes.length = 16 * p.size ∧ (∀ i ∈ p, (0 ≤ i.n ∧ i.n ≤ 255) ∧ IsWord i.d) ∧
      (decode bytes none = .ok p ↔ ∀ i ∈ p, IsWord i.op ∧ IsWord i.r) := by
  obtain ⟨hwritable, hwritten⟩ := written_of_writeFrom h
  replace hwritable : ∀ i ∈ p, i.Writable := fun i hi => hwritable i (Array.mem_toList_iff.2 hi)
  refine ⟨_, hwritten, encode_eq_ok_iff.2 ⟨hwritable, rfl⟩, length_encoded p.toList, ?_, ?_⟩
  · intro i hi
    exact ⟨⟨(hwritable i hi).n_nonneg, (hwritable i hi).n_le⟩, (hwritable i hi).d_word⟩
  · rw [decode_encoded, Except.ok.injEq]
    constructor
    · intro hsame i hi
      refine (hwritable i hi).stored_eq_iff.1 ?_
      obtain ⟨k, hk, rfl⟩ := Array.getElem_of_mem hi
      have hget := congrArg (·[k]?) hsame
      simpa [hk] using hget
    · intro hwords
      refine (Array.map_congr_left fun i hi => ?_).trans (Array.map_id p)
      exact (hwritable i hi).stored_eq_iff.2 (hwords i hi)

/-- A program with instructions at the bounds of what can be written. -/
def atBounds : Program := #[⟨minWord, 255, maxWord, minWord⟩, ⟨maxWord, 0, minWord, maxWord⟩]

theorem decode_write_atBounds : ∃ sink' bytes, atBounds.write .unlimited = (sink', none) ∧
    sink'.written.toList = bytes ∧ bytes.length = 32 ∧ decode bytes none = .ok atBounds := by
  obtain ⟨sink', h⟩ : ∃ sink', atBounds.write .unlimited = (sink', none) := ⟨_, rfl⟩
  obtain ⟨bytes, hbytes, -, hlength, -, hread⟩ := decode_write h
  exact ⟨sink', bytes, h, hbytes, hlength, hread.2 (by decide)⟩

/-- An operation that is no word is written all the same, and another one is read back. -/
theorem decode_encode_operation : ∃ bytes, encode #[⟨wordCount + 3, 0, 0, 7⟩] = .ok bytes ∧
    decode bytes none = .ok #[⟨3, 0, 0, 7⟩] :=
  ⟨_, rfl, (decode_encoded #[⟨wordCount + 3, 0, 0, 7⟩]).trans (by simp [Instr.stored, wordCount])⟩

/-! ### Bytes that are read -/

theorem encodeWord_decodeWord (h : bs.length = 4) : encodeWord (decodeWord bs) = bs := by
  have hlt : ofBigEndian bs < wordCount := by
    have hlt := ofBigEndian_lt bs
    rwa [h] at hlt
  have hmod := Int.emod_eq_of_lt (Int.natCast_nonneg _) (Int.ofNat_lt.2 hlt)
  have hbyt := bigEndian_ofBigEndian bs
  rw [h] at hbyt
  rw [encodeWord, decodeWord, Int.bmod_emod, hmod, Int.toNat_natCast, hbyt]

theorem encodeInstr_decodeInstr (h : bs.length = instrBytes) :
    encodeInstr (decodeInstr bs) = bs := by
  have hw : ∀ k ≤ 12, encodeWord (decodeWord ((bs.drop k).take 4)) = (bs.drop k).take 4 := by
    intro k hk
    apply encodeWord_decodeWord
    simp only [length_take, length_drop, h, instrBytes]
    omega
  have hspl : ∀ k, (bs.drop k).take 4 ++ bs.drop (k + 4) = bs.drop k := by
    intro k
    rw [← drop_drop, take_append_drop]
  have hend : bs.drop 16 = [] := drop_eq_nil_of_le (by rw [h]; decide)
  have h₀ := hw 0 (by decide)
  rw [drop_zero] at h₀
  rw [encodeInstr, decodeInstr, h₀, hw 4 (by decide), hw 8 (by decide), hw 12 (by decide),
    append_assoc, append_assoc, ← append_nil ((bs.drop 12).take 4), ← hend, hspl 12,
    hspl 8, hspl 4, take_append_drop]

theorem encoded_decodeWhole (bs : List UInt8) (h : instrBytes ∣ bs.length) :
    (decodeWhole bs).flatMap encodeInstr = bs := by
  fun_induction decodeWhole bs with
  | case1 bs hle ih =>
    have hrest : instrBytes ∣ (bs.drop instrBytes).length := by
      rw [length_drop]
      exact Nat.dvd_sub h (Nat.dvd_refl _)
    rw [flatMap_cons, ih hrest, encodeInstr_decodeInstr (length_take_of_le hle), take_append_drop]
  | case2 bs hlt =>
    have hnil : bs.length = 0 := Nat.eq_zero_of_dvd_of_lt h (Nat.not_le.1 hlt)
    rw [length_eq_zero_iff.1 hnil, flatMap_nil]

theorem isWord_decodeWhole (bs : List UInt8) : ∀ i ∈ decodeWhole bs, IsWord i.d := by
  fun_induction decodeWhole bs with
  | case1 bs hle ih =>
    refine forall_mem_cons.2 ⟨bmod_wordCount_eq_iff.1 ?_, ih⟩
    simp only [decodeInstr, decodeWord, Int.bmod_bmod]
  | case2 bs hlt => exact forall_mem_nil _

theorem encode_decodeWhole (h : instrBytes ∣ bs.length) :
    encode (decodeWhole bs).toArray = .ok out ↔
      (∀ i ∈ (decodeWhole bs).toArray, 0 ≤ i.n ∧ i.n ≤ 255) ∧ out = bs := by
  rw [encode_eq_ok_iff, encoded_decodeWhole bs h]
  refine and_congr_left' ⟨fun hall i hi => ⟨(hall i hi).n_nonneg, (hall i hi).n_le⟩, ?_⟩
  -- The displacements need no check: words are read.
  intro hall i hi
  exact ⟨(hall i hi).1, (hall i hi).2, isWord_decodeWhole bs i (mem_toArray.1 hi)⟩

/-- Bytes are read as a program if and only if there are sixteen for each instruction; else the
bytes behind the last whole instruction are counted.  The program of its bytes is written again if
and only if all its length fields are in their range, and as the same bytes.  Whatever program is
written to whatever sink, a failure at an instruction leaves the bytes of those before it. -/
theorem encode_decode (bytes : List UInt8) :
    ((∃ p, decode bytes none = .ok p) ↔ 16 ∣ bytes.length) ∧
    (¬ 16 ∣ bytes.length →
      decode bytes none = .error (.truncated (bytes.length % 16) (bytes.length / 16))) ∧
    (∀ p, decode bytes none = .ok p → 16 * p.size = bytes.length ∧
      ∀ out, p.encode = .ok out ↔ (∀ i ∈ p, 0 ≤ i.n ∧ i.n ≤ 255) ∧ out = bytes) ∧
    ∀ (p : Program) (sink sink' : Sink) (e : EncodeError), p.write sink = (sink', some e) →
      ∃ k i, p[k]? = some i ∧ Refused sink' i k e ∧
        sink'.written.toList = sink.written.toList ++ (p.toList.take k).flatMap encodeInstr := by
  have hcut : ¬ 16 ∣ bytes.length →
      decode bytes none = .error (.truncated (bytes.length % 16) (bytes.length / 16)) := by
    intro hlen
    exact if_pos fun hzero => hlen (Nat.dvd_of_mod_eq_zero hzero)
  have hwhole : 16 ∣ bytes.length → decode bytes none = .ok (decodeWhole bytes).toArray := by
    intro hlen
    exact if_neg (not_not_intro (Nat.mod_eq_zero_of_dvd hlen))
  have hread : ∀ {p}, decode bytes none = .ok p → 16 ∣ bytes.length := by
    intro p hp
    by_contra hlen
    cases hp.symm.trans (hcut hlen)
  refine ⟨⟨fun ⟨p, hp⟩ => hread hp, fun hlen => ⟨_, hwhole hlen⟩⟩, hcut, ?_, ?_⟩
  · intro p hp
    have hlen := hread hp
    cases (hwhole hlen).symm.trans hp
    refine ⟨?_, fun out => encode_decodeWhole hlen⟩
    rw [← encoded_decodeWhole bytes hlen, length_encoded, encoded_decodeWhole bytes hlen,
      List.size_toArray]
    rfl
  · intro p sink sink' e h
    obtain ⟨k, i, hk, hrefused, hwritten⟩ := refused_of_writeFrom h
    rw [Nat.zero_add] at hrefused
    exact ⟨k, i, by rwa [← Array.getElem?_toList], hrefused, hwritten⟩

def narrow : Sink := ⟨#[], some (20, "full")⟩

/-- Sixteen bytes are one instruction, seventeen are not read, and the second instruction of a program
does not fit. -/
theorem encode_decode_zeros :
    (∃ p, decode (List.replicate 16 0) none = .ok p ∧ p.size = 1) ∧
    decode (List.replicate 17 0) none = .error (.truncated 1 1) ∧
    ∃ sink', atBounds.write narrow = (sink', some (.write 1 "full")) ∧
      sink'.written.toList = (atBounds.toList.take 1).flatMap encodeInstr := by
  obtain ⟨⟨-, hread⟩, -, hsize, -⟩ := encode_decode (List.replicate 16 0)
  obtain ⟨-, hcut, -, hstop⟩ := encode_decode (List.replicate 17 0)
  refine ⟨?_, hcut (by decide), ?_⟩
  · obtain ⟨p, hp⟩ := hread (by decide)
    have hlen : 16 * p.size = 16 := (hsize p hp).1
    exact ⟨p, hp, by omega⟩
  · obtain ⟨sink', h⟩ : ∃ sink', atBounds.write narrow = (sink', some (.write 1 "full")) := ⟨_, rfl⟩
    obtain ⟨k, i, -, hrefused, hwritten⟩ := hstop atBounds narrow sink' _ h
    cases hrefused
    exact ⟨sink', h, hwritten⟩

end Program

end MiniJam
