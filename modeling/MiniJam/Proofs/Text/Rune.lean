import MiniJam.Proofs.Text.Bytes
import MiniJam.Text.Rune
import MiniJam.Total

/-!
# The bytes of characters

The characters of a source are its bytes in groups: an ASCII character is one byte, and no byte of
another character, or of bytes that are none, is ASCII (`Rune.Spells`).  So a source can be split
between any two characters (`Rune.decode_eq_append`), and ASCII text among the bytes is the same text
among the characters (`Rune.SpellsAll.inside`).
-/

namespace MiniJam.Text.Rune

open List

/-- The bytes of a character: an ASCII character is a byte, and no byte of another character is
ASCII. -/
inductive Spells : Rune → List UInt8 → Prop
  | ascii {b : UInt8} (hb : b.toNat < 128) : Spells ⟨Char.ofNat b.toNat, 1⟩ [b]
  | other {r : Rune} {b : UInt8} {bytes : List UInt8} (hchar : 128 ≤ r.char.toNat)
    (hwidth : r.width = bytes.length + 1) (hbytes : ∀ x ∈ b :: bytes, 128 ≤ x.toNat) :
    Spells r (b :: bytes)

variable {b : UInt8} {r : Rune} {bytes bs : List UInt8} {rs : List Rune}

theorem between_iff : between lo hi b = true ↔ lo.toNat ≤ b.toNat ∧ b.toNat ≤ hi.toNat := by
  simp [between, UInt8.le_iff_toNat_le]

theorem continues_iff : continues b = true ↔ 128 ≤ b.toNat ∧ b.toNat ≤ 191 := between_iff

/-- The second byte of three keeps the character out of the shorter forms and of the surrogates. -/
theorem second3_iff :
    between (second3 b).1 (second3 b).2 b1 = true ↔ 128 ≤ b1.toNat ∧ b1.toNat ≤ 191 ∧
      (b.toNat = 0xE0 → 160 ≤ b1.toNat) ∧ (b.toNat = 0xED → b1.toNat ≤ 159) := by
  have h₀ : b = 0xE0 ↔ b.toNat = 0xE0 := UInt8.toNat_inj.symm
  have h₁ : b = 0xED ↔ b.toNat = 0xED := UInt8.toNat_inj.symm
  simp only [second3, h₀, h₁]
  split_ifs with he hd <;> simp only [between_iff, UInt8.reduceToNat] <;> omega

/-- The second byte of four keeps the character out of the shorter forms and below the last one. -/
theorem second4_iff :
    between (second4 b).1 (second4 b).2 b1 = true ↔ 128 ≤ b1.toNat ∧ b1.toNat ≤ 191 ∧
      (b.toNat = 0xF0 → 144 ≤ b1.toNat) ∧ (b.toNat = 0xF4 → b1.toNat ≤ 143) := by
  have h₀ : b = 0xF0 ↔ b.toNat = 0xF0 := UInt8.toNat_inj.symm
  have h₁ : b = 0xF4 ↔ b.toNat = 0xF4 := UInt8.toNat_inj.symm
  simp only [second4, h₀, h₁]
  split_ifs with h0 h4 <;> simp only [between_iff, UInt8.reduceToNat] <;> omega

theorem toNat_ofNat {n : Nat} (h : n.isValidChar) : (Char.ofNat n).toNat = n := by
  rw [Char.ofNat, dif_pos h]
  rfl

theorem le_toNat_ofNat {n : Nat} (hn : 128 ≤ n) (hval : n < 0xD800 ∨ 0xDFFF < n ∧ n < 0x110000) :
    128 ≤ (Char.ofNat n).toNat :=
  hn.trans_eq (toNat_ofNat hval).symm

theorem spells_first (b : UInt8) (rest : List UInt8) :
    ∃ bytes, rest = bytes ++ rest.drop ((first b rest).width - 1) ∧
      Spells (first b rest) (b :: bytes) := by
  -- a byte that starts no character is read alone
  have hinv : 128 ≤ b.toNat → ∃ bytes, rest = bytes ++ rest.drop (1 - 1) ∧
      Spells ⟨replacement, 1⟩ (b :: bytes) :=
    fun hb => ⟨[], rfl, .other (by decide) rfl (by simpa using hb)⟩
  unfold first
  simp only
  split_ifs with h₁ h₂ h₃ h₄
  · exact ⟨[], rfl, .ascii h₁⟩
  · obtain ⟨hlow, hh⟩ := between_iff.1 h₂
    simp only [UInt8.reduceToNat] at hlow hh
    split
    · rename_i b1 rest
      split_ifs with h1
      · rw [continues_iff] at h1
        refine ⟨[b1], rfl, .other (le_toNat_ofNat ?_ ?_) rfl ?_⟩
        · omega
        · left
          simp only [payload]
          omega
        · simp only [forall_mem_cons]
          exact ⟨by omega, h1.1, nofun⟩
      · exact hinv (by omega)
    · exact hinv (by omega)
  · obtain ⟨hlow, hh⟩ := between_iff.1 h₃
    simp only [UInt8.reduceToNat] at hlow hh
    split
    · rename_i b1 b2 rest
      split_ifs with h12
      · rw [Bool.and_eq_true, second3_iff, continues_iff] at h12
        refine ⟨[b1, b2], rfl, .other (le_toNat_ofNat ?_ ?_) rfl ?_⟩
        · simp only [payload]
          omega
        · simp only [payload]
          omega
        · simp only [forall_mem_cons]
          exact ⟨by omega, h12.1.1, h12.2.1, nofun⟩
      · exact hinv (by omega)
    · exact hinv (by omega)
  · obtain ⟨hlow, hh⟩ := between_iff.1 h₄
    simp only [UInt8.reduceToNat] at hlow hh
    split
    · rename_i b1 b2 b3 rest
      split_ifs with h123
      · rw [Bool.and_eq_true, Bool.and_eq_true, second4_iff, continues_iff, continues_iff] at h123
        refine ⟨[b1, b2, b3], rfl, .other (le_toNat_ofNat ?_ ?_) rfl ?_⟩
        · simp only [payload]
          omega
        · simp only [payload]
          omega
        · simp only [forall_mem_cons]
          exact ⟨by omega, h123.1.1.1, h123.1.2.1, h123.2.1, nofun⟩
      · exact hinv (by omega)
    · exact hinv (by omega)
  · exact hinv (Nat.not_lt.1 h₁)

theorem first_take (b : UInt8) (rest : List UInt8) :
    first b (rest.take ((first b rest).width - 1)) = first b rest := by
  simp only [first]
  split_ifs with h₁ h₂ h₃ h₄
  · rfl
  · rcases rest with _ | ⟨b1, rest⟩
    · rfl
    · simp only
      split_ifs <;> simp_all
  · rcases rest with _ | ⟨b1, _ | ⟨b2, rest⟩⟩
    · rfl
    · rfl
    · simp only
      split_ifs <;> simp_all
  · rcases rest with _ | ⟨b1, _ | ⟨b2, _ | ⟨b3, rest⟩⟩⟩
    · rfl
    · rfl
    · rfl
    · simp only
      split_ifs <;> simp_all
  · rfl

theorem Spells.length_eq (h : Spells r bytes) : bytes.length = r.width := by
  cases h with
  | ascii => rfl
  | other _ hwid => exact hwid.symm

theorem Spells.ne_nil (h : Spells r bytes) : bytes ≠ [] := by
  cases h <;> simp

theorem decode_eq_cons (h : decode bs = r :: rs) :
    ∃ bytes rest, bs = bytes ++ rest ∧ Spells r bytes ∧ decode bytes = [r] ∧ decode rest = rs := by
  cases bs with
  | nil =>
    rw [decode] at h
    cases h
  | cons b bs =>
    rw [decode] at h
    obtain ⟨rfl, rfl⟩ := cons.inj h
    obtain ⟨bytes, hbs, hspl⟩ := spells_first b bs
    refine ⟨b :: bytes, _, congrArg (b :: ·) hbs, hspl, ?_, rfl⟩
    have hlen : bytes.length = (first b bs).width - 1 := Nat.eq_sub_of_add_eq hspl.length_eq
    have hbyt : bytes = bs.take ((first b bs).width - 1) := by
      rw [← hlen, hbs, take_left]
    have hfst : first b bytes = first b bs := hbyt ▸ first_take b bs
    rw [decode, hfst, drop_eq_nil_of_le hlen.le, decode]

def ofAscii (b : UInt8) : Char := Char.ofNat b.toNat

theorem Spells.eq_singleton (h : Spells r bytes)
    (hb : b.toNat < 128) (hchar : r.char = ofAscii b) : bytes = [b] := by
  have hnat : r.char.toNat = b.toNat :=
    (congrArg Char.toNat hchar).trans (toNat_ofNat (.inl (by omega)))
  cases h with
  | ascii hb' =>
    rw [toNat_ofNat (.inl (by omega))] at hnat
    rw [UInt8.toNat_inj.1 hnat]
  | other hoth => omega

theorem decode_eq_nil (h : decode bs = []) : bs = [] := by
  cases bs with
  | nil => rfl
  | cons b bs =>
    rw [decode] at h
    cases h

/-! ### Many characters -/

/-- The bytes of characters. -/
inductive SpellsAll : List Rune → List UInt8 → Prop
  | nil : SpellsAll [] []
  | cons {r : Rune} {rs : List Rune} {bytes more : List UInt8} (h : Spells r bytes)
    (hmore : SpellsAll rs more) : SpellsAll (r :: rs) (bytes ++ more)

theorem Spells.all (h : Spells r bytes) : SpellsAll [r] bytes := by
  rw [← append_nil bytes]
  exact .cons h .nil

theorem SpellsAll.append (h : SpellsAll rs bytes) (h' : SpellsAll rs' bytes') :
    SpellsAll (rs ++ rs') (bytes ++ bytes') := by
  induction h with
  | nil => exact h'
  | cons hr _ ih =>
    rw [append_assoc]
    exact .cons hr ih

theorem decode_eq_append (h : decode bs = rs ++ rs') :
    ∃ bytes rest, bs = bytes ++ rest ∧ SpellsAll rs bytes ∧ decode rest = rs' := by
  induction rs generalizing bs with
  | nil => exact ⟨[], bs, rfl, .nil, h⟩
  | cons r rs ih =>
    obtain ⟨bytes, rest, rfl, hr, -, hrest⟩ := decode_eq_cons h
    obtain ⟨more, rest, rfl, hrs, hrest⟩ := ih hrest
    exact ⟨bytes ++ more, rest, (append_assoc ..).symm, .cons hr hrs, hrest⟩

theorem SpellsAll.ne_nil (h : SpellsAll (r :: rs) bytes) : bytes ≠ [] := by
  cases h with
  | cons hr => exact fun heq => hr.ne_nil (append_eq_nil_iff.1 heq).1

theorem SpellsAll.length_eq (h : SpellsAll rs bytes) : bytes.length = total (rs.map (·.width)) := by
  induction h with
  | nil => rfl
  | cons h _ ih => rw [length_append, h.length_eq, ih, map_cons, total]

theorem SpellsAll.front (h : SpellsAll rs bytes)
    (ascii : List UInt8) (hasc : ∀ b ∈ ascii, b.toNat < 128) (hfro : ascii <+: bytes) :
    ascii.map ofAscii <+: rs.map (·.char) := by
  induction h generalizing ascii with
  | nil =>
    obtain rfl := prefix_nil.1 hfro
    exact nil_prefix
  | cons hr _ ih =>
    cases ascii with
    | nil => exact nil_prefix
    | cons x ascii =>
      obtain ⟨hx, hasc⟩ := forall_mem_cons.1 hasc
      cases hr with
      | ascii =>
        obtain ⟨rfl, hmore⟩ := cons_prefix_cons.1 hfro
        exact cons_prefix_cons.2 ⟨rfl, ih ascii hasc hmore⟩
      | @other _ b bytes _ _ hbyt =>
        obtain ⟨rfl, -⟩ := cons_prefix_cons.1 hfro
        have := hbyt x mem_cons_self
        omega

theorem infix_of_append {high more ascii : List UInt8} (hh : ∀ b ∈ high, 128 ≤ b.toNat)
    (hasc : ∀ b ∈ ascii, b.toNat < 128) (hne : ascii ≠ []) (h : ascii <:+: high ++ more) :
    ascii <:+: more := by
  induction high with
  | nil => exact h
  | cons b high ih =>
    obtain ⟨hb, hh⟩ := forall_mem_cons.1 hh
    obtain hfro | hins := infix_cons_iff.1 h
    · cases ascii with
      | nil => exact absurd rfl hne
      | cons x ascii =>
        obtain ⟨rfl, -⟩ := cons_prefix_cons.1 hfro
        have := hasc x mem_cons_self
        omega
    · exact ih hh hins

theorem SpellsAll.inside (h : SpellsAll rs bytes)
    (ascii : List UInt8) (hasc : ∀ b ∈ ascii, b.toNat < 128) (hne : ascii ≠ [])
    (hins : ascii <:+: bytes) : ascii.map ofAscii <:+: rs.map (·.char) := by
  induction h with
  | nil => exact absurd (infix_nil.1 hins) hne
  | @cons r rs bytes more hr hrs ih =>
    cases hr with
    | ascii hb =>
      obtain hfro | hins := infix_cons_iff.1 hins
      · exact ((SpellsAll.cons (.ascii hb) hrs).front ascii hasc hfro).isInfix
      · exact infix_cons (ih hins)
    | other _ _ hbyt => exact infix_cons (ih (infix_of_append hbyt hasc hne hins))

theorem decode_eq_ascii {rest : List Rune}
    (h : decode bs = r :: rest) (hb : b.toNat < 128) (hr : r.char = ofAscii b) :
    ∃ more, bs = [b] ++ more ∧ SpellsAll [r] [b] ∧ decode more = rest := by
  obtain ⟨bytes, more, rfl, hspl, -, hmore⟩ := decode_eq_cons h
  obtain rfl := hspl.eq_singleton hb hr
  exact ⟨more, rfl, hspl.all, hmore⟩

theorem Spells.eq_utf8EncodeChar (h : Spells r bytes)
    (hasc : r.char.toNat < 128) : bytes = String.utf8EncodeChar r.char := by
  cases h with
  | @ascii b hb =>
    have hval : (Char.ofNat b.toNat).val.toNat = b.toNat := toNat_ofNat (.inl (by omega))
    rw [String.utf8EncodeChar]
    simp only [hval, if_pos (Nat.le_of_lt_succ hb), UInt8.ofNat_toNat]
  | other hchar => omega

theorem SpellsAll.eq_toUTF8 (h : SpellsAll rs bytes) (hasc : ∀ r ∈ rs, r.char.toNat < 128) :
    bytes = (String.ofList (rs.map (·.char))).toUTF8.toList := by
  rw [toList_toUTF8, String.toByteArray_ofList, utf8Encode, toList_data_toByteArray]
  induction h with
  | nil => rfl
  | cons hr _ ih =>
    obtain ⟨hr', hrs'⟩ := forall_mem_cons.1 hasc
    rw [hr.eq_utf8EncodeChar hr', ih hrs', map_cons, flatMap_cons]

end MiniJam.Text.Rune
