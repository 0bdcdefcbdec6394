import MiniJam.Proofs.Machine.Arithmetic

/-!
# Integers that are read and printed

An integer is read from the longest run of digits that follows white space and signs, and stored if it
is a word (`Machine.getint_reads`).  The digits are added up with 64 bit integers, but never so many of
them that one wraps around.  What is printed for a word, with a line end behind it, is read back as
this word, so that lists of integers can be passed on from one machine to another.
-/

namespace MiniJam

open List Text

namespace Input

/-- The number whose digits are those of `n` and the digits `ds`. -/
def decimal (n : Int) (ds : List UInt8) : Int := ds.foldl (fun n b => n * 10 + (b.toNat - 48)) n

def signed (i : Input) : List UInt8 := i.bytes.dropWhile isBlank

def unsigned (i : Input) : List UInt8 := i.signed.dropWhile isSign

/-- The integer at the front of an input; the last sign in front of the digits counts. -/
def integer (i : Input) : Int :=
  if (i.signed.takeWhile isSign).getLast? = some 45 then -decimal 0 (i.unsigned.takeWhile isDigit)
  else decimal 0 (i.unsigned.takeWhile isDigit)

def behind (i : Input) : List UInt8 := i.unsigned.dropWhile isDigit

/-- The character that ends an integer, `-1` if it is the end of the input that does. -/
def following (i : Input) : Int := i.behind.head?.elim (-1) fun b => b.toNat

variable {n : Int} {ds : List UInt8} {i : Input}

theorem digit_mem {b : UInt8} (h : isDigit b = true) : 48 ≤ b.toNat ∧ b.toNat ≤ 57 := by
  simp only [isDigit, Bool.and_eq_true, decide_eq_true_eq, UInt8.le_iff_toNat_le] at h
  exact h

theorem le_decimal (hn : 0 ≤ n) (hds : ∀ b ∈ ds, isDigit b = true) : n ≤ decimal n ds := by
  induction ds generalizing n with
  | nil => exact Int.le_refl n
  | cons b ds ih =>
    obtain ⟨hb, hds⟩ := forall_mem_cons.1 hds
    have hb := digit_mem hb
    have hle := ih (n := n * 10 + (b.toNat - 48)) (by omega) hds
    have hcons : decimal n (b :: ds) = decimal (n * 10 + (b.toNat - 48)) ds := rfl
    omega

theorem digits_eq (hn : 0 ≤ n ∧ n ≤ maxWord + 1) (bytes : List UInt8) :
    (decimal n (bytes.takeWhile isDigit) ≤ maxWord + 1 →
      digits n bytes = (some (decimal n (bytes.takeWhile isDigit)), bytes.dropWhile isDigit)) ∧
    (maxWord + 1 < decimal n (bytes.takeWhile isDigit) → ∃ rest, digits n bytes = (none, rest)) := by
  induction bytes generalizing n with
  | nil => exact ⟨fun _ => rfl, fun h => absurd hn.2 (Int.not_le.2 h)⟩
  | cons b bytes ih =>
    by_cases hb : isDigit b = true
    · have hdig := digit_mem hb
      have hwrap : wrap64 (n * 10 + (b.toNat - 48)) = n * 10 + (b.toNat - 48) := by
        apply wrap64_of_mem
        simp only [minInt64, maxInt64, maxWord] at *
        omega
      rw [takeWhile_cons_of_pos hb, dropWhile_cons_of_pos hb, digits, if_pos hb, hwrap]
      have hcons : decimal n (b :: bytes.takeWhile isDigit) =
        decimal (n * 10 + (b.toNat - 48)) (bytes.takeWhile isDigit) := rfl
      rw [hcons]
      by_cases hlar : n * 10 + ((b.toNat : Int) - 48) > maxWord + 1
      · -- The digits that are left make the number only larger.
        have hle := le_decimal (n := n * 10 + (b.toNat - 48)) (by omega)
          (all_eq_true.1 (all_takeWhile (l := bytes)))
        rw [if_pos hlar]
        exact ⟨fun h => by omega, fun _ => ⟨bytes, rfl⟩⟩
      · dsimp only
        rw [if_neg hlar]
        exact ih ⟨by omega, by omega⟩
    · rw [takeWhile_cons_of_neg hb, dropWhile_cons_of_neg hb, digits, if_neg hb]
      exact ⟨fun _ => rfl, fun h => absurd hn.2 (Int.not_le.2 h)⟩

theorem readInt_eq (herr : i.error = none) :
    (decimal 0 (i.unsigned.takeWhile isDigit) ≤ maxWord + 1 →
      i.readInt = (.value i.integer i.following, { i with bytes := i.behind.tail })) ∧
    (maxWord + 1 < decimal 0 (i.unsigned.takeWhile isDigit) →
      ∃ rest, i.readInt = (.tooLarge, { i with bytes := rest })) := by
  obtain ⟨hfits, hlar⟩ := digits_eq (n := 0) (by decide) i.unsigned
  constructor
  · intro h
    have hr : digits 0 ((i.bytes.dropWhile isBlank).dropWhile isSign) = _ := hfits h
    simp only [readInt, hr, integer, following, behind, beq_iff_eq]
    cases hrest : i.unsigned.dropWhile isDigit with
    | nil =>
      simp only [next, herr]
      rfl
    | cons b rest =>
      rfl
  · intro h
    obtain ⟨rest, hr⟩ := hlar h
    have hr : digits 0 ((i.bytes.dropWhile isBlank).dropWhile isSign) = _ := hr
    exact ⟨rest, by simp only [readInt, hr]⟩

theorem not_isWord_integer (h : maxWord + 1 < decimal 0 (i.unsigned.takeWhile isDigit)) :
    ¬ IsWord i.integer := by
  unfold integer
  split_ifs <;> simp only [IsWord, minWord, maxWord] at h ⊢ <;> omega

/-! ### Integers that are printed -/

theorem toUTF8_ofList (h : ∀ c ∈ cs, c.toNat < 128) :
    (String.ofList cs).toUTF8.toList = cs.map fun c => UInt8.ofNat c.toNat := by
  rw [toList_toUTF8, String.toByteArray_ofList, List.utf8Encode, toList_data_toByteArray]
  induction cs with
  | nil => rfl
  | cons c cs ih =>
    obtain ⟨hc, hcs⟩ := forall_mem_cons.1 h
    have hle : c.val.toNat ≤ 127 := Nat.le_of_lt_succ hc
    rw [flatMap_cons, ih hcs, map_cons, String.utf8EncodeChar]
    simp only [if_pos hle]
    rfl

def figures (n : Nat) : List UInt8 := (Nat.toDigits 10 n).map fun c => UInt8.ofNat c.toNat

theorem toNat_of_isDigit {c : Char} (h : c.isDigit = true) : 48 ≤ c.toNat ∧ c.toNat ≤ 57 := by
  simp only [Char.isDigit, Bool.and_eq_true, decide_eq_true_eq] at h
  exact h

theorem mem_toDigits {n : Nat} : ∀ c ∈ Nat.toDigits 10 n, 48 ≤ c.toNat ∧ c.toNat ≤ 57 :=
  fun _ hc => toNat_of_isDigit (Nat.isDigit_of_mem_toDigits (by decide) (by decide) hc)

theorem toUTF8_nat (n : Nat) : (toString n).toUTF8.toList = figures n := by
  rw [Nat.toString_eq_ofList_toDigits, toUTF8_ofList fun c hc => ?_, figures]
  have hdig := mem_toDigits c hc
  omega

theorem isDigit_ofNat (h : 48 ≤ k ∧ k ≤ 57) :
    isDigit (UInt8.ofNat k) = true ∧ (UInt8.ofNat k).toNat = k := by
  have hk : (UInt8.ofNat k).toNat = k := by
    rw [UInt8.toNat_ofNat']
    omega
  refine ⟨?_, hk⟩
  simp only [isDigit, Bool.and_eq_true, decide_eq_true_eq, UInt8.le_iff_toNat_le, hk]
  exact h

theorem isDigit_figures {n : Nat} : ∀ b ∈ figures n, isDigit b = true := by
  intro b hb
  obtain ⟨c, hc, rfl⟩ := mem_map.1 hb
  exact (isDigit_ofNat (mem_toDigits c hc)).1

theorem decimal_figures (n : Nat) : decimal 0 (figures n) = n := by
  have hall : ∀ (cs : List Char) (k : Nat), (∀ c ∈ cs, 48 ≤ c.toNat ∧ c.toNat ≤ 57) →
      decimal k (cs.map fun c => UInt8.ofNat c.toNat) = Nat.ofDigitChars 10 cs k := by
    intro cs
    induction cs with
    | nil => exact fun k _ => rfl
    | cons c cs ih =>
      intro k h
      obtain ⟨hc, hcs⟩ := forall_mem_cons.1 h
      have hnext : (k : Int) * 10 + ((UInt8.ofNat c.toNat).toNat - 48) =
          (10 * k + (c.toNat - '0'.toNat) : Nat) := by
        have hzero : '0'.toNat = 48 := rfl
        rw [(isDigit_ofNat hc).2, hzero]
        omega
      rw [Nat.ofDigitChars_cons, ← ih _ hcs, ← hnext]
      rfl
  rw [figures, ← Int.natCast_zero, hall _ 0 mem_toDigits, Nat.ofDigitChars_ten_toDigits]

def line (n : Int) : String := toString n ++ "\n"

/-- The bytes of a line: there is a sign if the integer is negative. -/
theorem toUTF8_line (n : Int) : ∃ signs, (signs = [] ∧ 0 ≤ n ∨ signs = [45] ∧ n < 0) ∧
    (line n).toUTF8.toList = signs ++ figures n.natAbs ++ [10] := by
  have hend : "\n".toUTF8.toList = [10] := by
    rw [toList_toUTF8]
    rfl
  rw [line, toUTF8_append, hend]
  cases n with
  | ofNat k => exact ⟨[], .inl ⟨rfl, Int.natCast_nonneg k⟩, congrArg (· ++ [10]) (toUTF8_nat k)⟩
  | negSucc k =>
    have hmin : "-".toUTF8.toList = [45] := by
      rw [toList_toUTF8]
      rfl
    refine ⟨[45], .inr ⟨rfl, Int.negSucc_lt_zero k⟩, congrArg (· ++ [10]) ?_⟩
    have htext : toString (Int.negSucc k) = "-" ++ toString (k + 1) := rfl
    rw [htext, toUTF8_append, hmin, toUTF8_nat]
    rfl

theorem integer_line (n : Int) (rest : List UInt8) (error : Option String) :
    integer ⟨(line n).toUTF8.toList ++ rest, error⟩ = n ∧
      behind ⟨(line n).toUTF8.toList ++ rest, error⟩ = 10 :: rest := by
  obtain ⟨signs, hsig, hline⟩ := toUTF8_line n
  obtain ⟨d, ds, hds⟩ := exists_cons_of_ne_nil (l := figures n.natAbs)
    fun h => Nat.toDigits_ne_nil (map_eq_nil_iff.1 h)
  have hd : isDigit d = true := isDigit_figures d (hds ▸ mem_cons_self)
  -- A digit is neither white space nor a sign.
  obtain ⟨hblan, hs⟩ : isBlank d = false ∧ isSign d = false := by
    have hmem := digit_mem hd
    simp [isBlank, isSign, UInt8.le_iff_toNat_le, ← UInt8.toNat_inj]
    omega
  have hsigned : signed ⟨(line n).toUTF8.toList ++ rest, error⟩ =
      signs ++ (figures n.natAbs ++ 10 :: rest) := by
    rw [signed, hline, append_assoc, append_assoc, singleton_append]
    rcases hsig with ⟨rfl, -⟩ | ⟨rfl, -⟩
    · rw [nil_append, hds, cons_append, dropWhile_cons_of_neg (by simp [hblan])]
    · exact dropWhile_cons_of_neg (by decide)
  have hall : ∀ b ∈ signs, isSign b = true := by
    rcases hsig with ⟨rfl, -⟩ | ⟨rfl, -⟩
    · exact forall_mem_nil _
    · exact forall_mem_singleton.2 rfl
  have hstop : ∀ {p : UInt8 → Bool} {bs : List UInt8}, p d = false →
      (figures n.natAbs ++ bs).takeWhile p = [] ∧
        (figures n.natAbs ++ bs).dropWhile p = figures n.natAbs ++ bs := by
    intro p bs hp
    rw [hds, cons_append]
    exact ⟨takeWhile_cons_of_neg (by simp [hp]), dropWhile_cons_of_neg (by simp [hp])⟩
  have huns : unsigned ⟨(line n).toUTF8.toList ++ rest, error⟩ =
      figures n.natAbs ++ 10 :: rest := by
    rw [unsigned, hsigned, dropWhile_append_of_pos hall, (hstop hs).2]
  have hbeh : (10 :: rest).takeWhile isDigit = [] ∧ (10 :: rest).dropWhile isDigit = 10 :: rest :=
    ⟨takeWhile_cons_of_neg (by decide), dropWhile_cons_of_neg (by decide)⟩
  constructor
  · rw [integer, hsigned, takeWhile_append_of_pos hall, (hstop hs).1, append_nil,
      huns, takeWhile_append_of_pos isDigit_figures, hbeh.1, append_nil,
      decimal_figures]
    rcases hsig with ⟨rfl, hn⟩ | ⟨rfl, hn⟩
    · rw [if_neg (by decide)]
      omega
    · rw [if_pos (by decide)]
      omega
  · rw [behind, huns, dropWhile_append_of_pos isDigit_figures, hbeh.2]

end Input

namespace Machine

open Input

variable {m : Machine} {i : Instr} {addr : Int}

/-- The machine after the integer at the front of its input and the character behind it have been
read. -/
def heard (m : Machine) : Machine :=
  { m with input := ⟨m.input.behind.tail, m.input.error⟩, lastChar := m.input.following }

namespace Exec

/-- An integer that is no word is refused, be it while its digits are read or after that. -/
theorem ensures_getint (herr : m.input.error = none) (hst : 1 ≤ m.st ∧ m.st ≤ m.hb)
    (haddr : 0 ≤ m.peek (m.st - 1) ∧ m.peek (m.st - 1) < m.hb) :
    (IsWord m.input.integer → ∀ {ok : Unit → Machine → Prop} {stop : Stop → Machine → Prop},
      (Ensures (primitive .getint) m ok stop ↔
        ok () ((m.heard.withST (m.st - 1)).poke (m.peek (m.st - 1)) m.input.integer))) ∧
    (¬ IsWord m.input.integer → Ensures (primitive .getint) m (fun _ _ => False) fun e m' =>
      ∃ why input c, why.condition = .overflow ∧ e = .failure why ∧
        m' = { m with input := input, lastChar := c }) := by
  obtain ⟨hfits, hlar⟩ := readInt_eq herr
  have hread : ∀ {ok : Int → Machine → Prop} {stop : Stop → Machine → Prop},
      decimal 0 (m.input.unsigned.takeWhile isDigit) ≤ maxWord + 1 →
      (Ensures readInt m ok stop ↔ ok m.input.integer m.heard) := by
    intro ok stop h
    rw [Ensures, readInt, hfits h]
    rfl
  simp only [primitive, ensures_bind, ensures_top1 hst]
  by_cases hs : decimal 0 (m.input.unsigned.takeWhile isDigit) ≤ maxWord + 1
  · simp only [hread hs, ensures_checkWord, ensures_drop]
    constructor
    · intro hw ok stop
      rw [if_pos hw]
      exact ensures_write (m := m.heard.withST (m.st - 1)) haddr _
    · intro hw
      rw [if_neg hw]
      exact ⟨_, _, _, rfl, rfl, rfl⟩
  · have hlt := Int.not_le.1 hs
    obtain ⟨rest, hrest⟩ := hlar hlt
    refine ⟨fun hw => absurd hw (not_isWord_integer hlt), fun _ => ?_⟩
    rw [Ensures, readInt, hrest]
    exact ⟨.inputTooLarge, ⟨rest, m.input.error⟩, m.lastChar, rfl, rfl, rfl⟩

end Exec

def Spare (m : Machine) : Prop := 0 ≤ m.st ∧ m.st < m.ht ∧ m.ht ≤ m.hb

def pushed (m : Machine) (w : Int) : Machine := (m.poke m.st w).withST (m.st + 1)

def printed (m : Machine) (s : String) : Machine := { m with output := m.output.append s }

theorem pushed_hb : (m.pushed w).hb = m.hb := poke_hb m _ _

theorem Spare.pushed (h : m.Spare) (hw : IsWord w) :
    (1 ≤ (m.pushed w).st ∧ (m.pushed w).st ≤ (m.pushed w).hb) ∧
      (m.pushed w).peek ((m.pushed w).st - 1) = w := by
  obtain ⟨hst, hlt, hhb⟩ := h
  rw [pushed_hb]
  simp only [Machine.pushed, withST_st, Int.add_sub_cancel]
  exact ⟨by omega, m.peek_poke_self ⟨hst, by omega⟩ hw⟩

namespace Exec

def printLines : List Int → Exec Unit
  | [] => pure ()
  | n :: ns => do
    push n
    primitive .putint
    primitive .puteol
    printLines ns

/-- Reads `k` integers, one after the other, into the word at `addr`. -/
def readLines (addr : Int) : Nat → Exec (List Int)
  | 0 => pure []
  | k + 1 => do
    push addr
    primitive .getint
    let n ← read addr
    let ns ← readLines addr k
    return n :: ns

theorem ensures_pushed {stop : Stop → Machine → Prop} (h : m.Spare) (w : Int) :
    Ensures (push w) m ok stop ↔ ok () (m.pushed w) :=
  ensures_push h w

theorem ensures_print {stop : Stop → Machine → Prop} (h : m.output.limit = none) (s : String) :
    Ensures (print s) m ok stop ↔ ok () (m.printed s) := by
  rw [Ensures, print, Output.refuses, h]
  rfl

variable {ns : List Int}

theorem ensures_printLines (hr : m.Spare) (hlim : m.output.limit = none)
    (hns : ∀ n ∈ ns, IsWord n) :
    Ensures (printLines ns) m (fun _ m' => m'.output.text = m.output.text ++ .join (ns.map line))
      fun _ _ => False := by
  induction ns generalizing m with
  | nil => exact (String.append_empty).symm
  | cons n ns ih =>
    obtain ⟨hn, hns⟩ := forall_mem_cons.1 hns
    obtain ⟨hpop, htop⟩ := hr.pushed hn
    rw [printLines, ensures_bind, ensures_pushed hr, ensures_bind]
    refine (ensures_bind _ _).2 ((ensures_pop hpop).2 ?_)
    rw [htop]
    refine (ensures_print (by exact hlim) _).2 ?_
    refine (ensures_bind _ _).2 ((ensures_print (by exact hlim) _).2 ?_)
    refine (ih ?_ (by exact hlim) hns).mono (fun _ m' h => h.trans ?_) fun _ _ h => h
    · have hst : (m.pushed n).st - 1 = m.st := Int.add_sub_cancel m.st 1
      exact ⟨hst.symm ▸ hr.1, hst.symm ▸ hr.2.1, (pushed_hb (m := m)).symm ▸ hr.2.2⟩
    · have htext : ((m.output.append (toString n)).append "\n").text = m.output.text ++ line n :=
        String.append_assoc
      rw [map_cons, String.join_cons, ← String.append_assoc, ← htext]
      rfl

theorem ensures_readLines (hr : m.Spare) (ha : IsWord addr ∧ 0 ≤ addr ∧ addr < m.hb)
    (hns : ∀ n ∈ ns, IsWord n)
    (hinp : m.input = ⟨(String.join (ns.map line)).toUTF8.toList, none⟩) :
    Ensures (readLines addr ns.length) m (fun read _ => read = ns) fun _ _ => False := by
  induction ns generalizing m with
  | nil => rfl
  | cons n ns ih =>
    obtain ⟨hn, hns⟩ := forall_mem_cons.1 hns
    obtain ⟨ha, hin⟩ := ha
    obtain ⟨hpop, htop⟩ := hr.pushed ha
    rw [map_cons, String.join_cons, toUTF8_append] at hinp
    obtain ⟨hint, hbeh⟩ := integer_line n (String.join (ns.map line)).toUTF8.toList none
    rw [← hinp] at hint hbeh
    have herr : (m.pushed addr).input.error = none := congrArg Input.error hinp
    have hw : IsWord (m.pushed addr).input.integer := hint.symm ▸ hn
    have hin' : 0 ≤ addr ∧ addr < (m.pushed addr).hb := pushed_hb (m := m) ▸ hin
    rw [length_cons, readLines, ensures_bind, ensures_pushed hr, ensures_bind]
    refine ((ensures_getint herr hpop (htop.symm ▸ hin')).1 hw).2 ?_
    rw [htop, ensures_bind]
    generalize hnext : (((m.pushed addr).heard.withST ((m.pushed addr).st - 1)).poke addr
      (m.pushed addr).input.integer) = m'
    have hhb : m'.hb = m.hb := by
      rw [← hnext, poke_hb]
      exact pushed_hb
    have hst : m'.st = m.st := by
      rw [← hnext]
      exact Int.add_sub_cancel m.st 1
    have hht : m'.ht = m.ht := by
      rw [← hnext]
      rfl
    have hpeek : m'.peek addr = n := by
      rw [← hnext, ← hint]
      exact peek_poke_self _ hin' hw
    have hrest : m'.input = ⟨(String.join (ns.map line)).toUTF8.toList, none⟩ := by
      have hhear : m'.input = ⟨m.input.behind.tail, m.input.error⟩ := by
        rw [← hnext]
        rfl
      rw [hhear, hbeh, hinp]
      rfl
    rw [ensures_read (hhb.symm ▸ hin), hpeek, ensures_bind]
    have hr' : m'.Spare := by
      rw [Spare, hst, hht, hhb]
      exact hr
    exact (ih hr' ⟨ha, hhb.symm ▸ hin⟩ hns hrest).mono (fun _ _ h => h ▸ rfl) fun _ _ h => h

theorem Ensures.exists_ok {α : Type} {x : Exec α} {ok : α → Machine → Prop}
    (h : Ensures x m ok fun _ _ => False) : ∃ a m', x m = .ok a m' ∧ ok a m' := by
  unfold Ensures at h
  cases hx : x m with
  | ok a m' =>
    rw [hx] at h
    exact ⟨a, m', rfl, h⟩
  | error e m' =>
    rw [hx] at h
    exact h.elim

theorem readLines_printLines {n : Machine} (hm : m.Spare) (hlim : m.output.limit = none)
    (htext : m.output.text = "") (hn : n.Spare) (haddr : IsWord addr ∧ 0 ≤ addr ∧ addr < n.hb)
    (hns : ∀ n ∈ ns, IsWord n) :
    ∃ m', printLines ns m = .ok () m' ∧ (n.input = ⟨m'.output.text.toUTF8.toList, none⟩ →
      ∃ n', readLines addr ns.length n = .ok ns n') := by
  obtain ⟨_, m', hprt, hm'⟩ := (ensures_printLines hm hlim hns).exists_ok
  refine ⟨m', hprt, fun hinp => ?_⟩
  rw [hm', htext, String.empty_append] at hinp
  obtain ⟨read, n', hread, rfl⟩ := (ensures_readLines hn haddr hns hinp).exists_ok
  exact ⟨n', hread⟩

end Exec

/-- A step that calls for an integer whose address is in the data store. -/
structure CallsGetint (m : Machine) (i : Instr) : Prop where
  running : m.state = .running
  instr : m.instrAt? m.cp = some i
  call : Opcode.ofCode? i.op = some .call
  callee : m.callee? i = some .getint
  operand : 1 ≤ m.st ∧ m.st ≤ m.hb
  address : 0 ≤ m.peek (m.st - 1) ∧ m.peek (m.st - 1) < m.hb
  errorless : m.input.error = none

theorem peek_movedTo {next : Int} (a : Int) : (m.movedTo next).peek a = m.peek a := by
  unfold movedTo
  split_ifs <;> rfl

/-- A call for an integer reads the one at the front of the input and one character more, and stores
it if it is a word.  If it is not, it fails the program and stores nothing; as no number before the
last digit that is read exceeds `2^31`, none that is computed wraps around.  What a machine without a
limit to its output prints for words, each on a line, another machine reads back. -/
theorem getint_reads :
    (∀ {m i}, CallsGetint m i →
      (IsWord m.input.integer → ∃ m', m.step = (m', none) ∧
        m' = ((m.heard.withST (m.st - 1)).poke (m.peek (m.st - 1)) m.input.integer).movedTo
          (m.cp + 1) ∧
        m'.peek (m.peek (m.st - 1)) = m.input.integer ∧
        ∀ a, 0 ≤ a → a ≠ m.peek (m.st - 1) → m'.peek a = m.peek a) ∧
      (¬ IsWord m.input.integer → ∃ why input c, why.condition = .overflow ∧
        m.step = (({ m with input := input, lastChar := c } : Machine).fail why, none)) ∧
      ∀ ds b, ds ++ [b] <+: m.input.unsigned.takeWhile isDigit → decimal 0 ds ≤ maxWord + 1 →
        wrap64 (decimal 0 (ds ++ [b])) = decimal 0 (ds ++ [b])) ∧
    ∀ {m n : Machine} {addr ns}, m.Spare → m.output.limit = none → m.output.text = "" → n.Spare →
      IsWord addr ∧ 0 ≤ addr ∧ addr < n.hb → (∀ n ∈ ns, IsWord n) →
      ∃ m', Exec.printLines ns m = .ok () m' ∧ (n.input = ⟨m'.output.text.toUTF8.toList, none⟩ →
        ∃ n', Exec.readLines addr ns.length n = .ok ns n') := by
  refine ⟨fun {m i} h => ⟨fun hword => ⟨_, ?_, rfl, ?_, ?_⟩, fun hword => ?_, ?_⟩,
    Exec.readLines_printLines⟩
  · rw [step_primitive_iff h.running h.instr h.call h.callee fun r => r = _]
    exact ((Exec.ensures_getint h.errorless h.operand h.address).1 hword).2 rfl
  · rw [peek_movedTo]
    exact peek_poke_self _ h.address hword
  · intro a ha hne
    rw [peek_movedTo]
    exact peek_poke_of_ne _ _ h.address.1 ha hne
  · rw [step_primitive_iff h.running h.instr h.call h.callee fun r => ∃ why input c,
      why.condition = .overflow ∧ r = (Machine.fail { m with input := input, lastChar := c } why, none)]
    refine ((Exec.ensures_getint h.errorless h.operand h.address).2 hword).mono
      (fun _ _ h => h.elim) ?_
    rintro _ _ ⟨why, input, c, hwhy, rfl, rfl⟩
    exact ⟨why, input, c, hwhy, rfl⟩
  · intro ds b hds hsize
    have hdigits : ∀ c ∈ ds ++ [b], isDigit c = true := fun c hc =>
      List.all_eq_true.1 (List.all_takeWhile (l := m.input.unsigned)) c (hds.subset hc)
    have hb := digit_mem (hdigits b (by simp))
    have hds := le_decimal (Int.le_refl 0) fun c hc => hdigits c (List.mem_append_left _ hc)
    have hsnoc : decimal 0 (ds ++ [b]) = decimal 0 ds * 10 + (b.toNat - 48) := by
      simp [decimal]
    rw [hsnoc]
    apply wrap64_of_mem
    simp only [minInt64, maxInt64, maxWord] at *
    omega

def readsInteger : Object :=
  ⟨#[.make .loadl 0 .zr 5, .ofPrim .getint, .make .halt 0 .zr 0], none⟩

theorem calls_readsInteger : ∃ m, load "p" readsInteger .default
      ⟨[32, 43, 45, 49, 50, 120], none⟩ .empty = .ok m ∧ CallsGetint (m.after 1) (.ofPrim .getint) ∧
    (m.after 1).input.integer = -12 ∧ (m.after 1).peek ((m.after 1).st - 1) = 5 ∧
    m.output.limit = none ∧ m.output.text = "" ∧ (0 ≤ m.st ∧ m.st < m.ht ∧ m.ht ≤ m.hb) ∧ 5 < m.hb := by
  refine ⟨_, rfl, ?_, by decide +kernel, by decide +kernel, rfl, rfl, by decide +kernel,
    by decide +kernel⟩
  constructor <;> decide +kernel

/-- The last sign of `" +-12x"` counts. -/
theorem getint_reads_negative : ∃ m, load "p" readsInteger .default
      ⟨[32, 43, 45, 49, 50, 120], none⟩ .empty = .ok m ∧ (m.after 2).peek 5 = -12 ∧
    ∃ m', Exec.printLines [minWord, 7] m = .ok () m' ∧ ∃ n', Exec.readLines 5 2
      { m with input := ⟨m'.output.text.toUTF8.toList, none⟩ } = .ok [minWord, 7] n' := by
  obtain ⟨m, hm, hcalls, hvalue, haddr, hlimit, htext, hspare, hhb⟩ := calls_readsInteger
  have hword : IsWord (m.after 1).input.integer := hvalue.symm ▸ by decide
  obtain ⟨m₂, hstep, -, hpeek, -⟩ := (getint_reads.1 hcalls).1 hword
  rw [haddr, hvalue] at hpeek
  have hwords : ∀ n ∈ [minWord, 7], IsWord n := by decide
  obtain ⟨m', hprint, -⟩ :=
    getint_reads.2 hspare hlimit htext hspare ⟨by decide, by decide, hhb⟩ hwords
  obtain ⟨m'', hprint', hread⟩ := getint_reads.2
    (n := { m with input := ⟨m'.output.text.toUTF8.toList, none⟩ }) hspare hlimit htext hspare
    ⟨by decide, by decide, hhb⟩ hwords
  obtain rfl : m' = m'' := by
    rw [hprint] at hprint'
    cases hprint'
    rfl
  refine ⟨m, hm, ?_, m', hprint, hread rfl⟩
  rw [after, hstep]
  exact hpeek

end Machine

end MiniJam
