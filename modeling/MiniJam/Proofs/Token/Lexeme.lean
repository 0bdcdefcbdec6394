import Mathlib.Data.List.Infix
import Mathlib.Data.List.TakeWhile
import MiniJam.Proofs.Text.Rune
import MiniJam.Token.Scan

/-!
# The bytes of lexemes

The scanner reads characters and forgets their bytes; its places count bytes.  Here both are brought
together: a lexeme at the front of a source takes bytes from it (`Token.Lexeme.Stands`), which are
white space or a comment (`Token.Gap`) or lie in a token (`Token.Lies`), and the place after it is the
place behind those bytes (`Cursor.behind`).
-/

namespace MiniJam

open Text List Rune

def Text.newline : UInt8 := 0x0A

/-! ### Places -/

namespace Cursor

def pass (c : Cursor) (b : UInt8) : Cursor := if b = newline then ⟨c.line + 1, 0⟩ else c.skip 1

def behind (bytes : List UInt8) : Cursor := bytes.foldl pass ⟨0, 0⟩

theorem behind_append (before bytes : List UInt8) :
    behind (before ++ bytes) = bytes.foldl pass (behind before) :=
  foldl_append

theorem foldl_pass_of_not_mem {bytes : List UInt8} (h : newline ∉ bytes) (c : Cursor) :
    bytes.foldl pass c = c.skip bytes.length := by
  induction bytes generalizing c with
  | nil => rfl
  | cons b bytes ih =>
    obtain ⟨hb, hbyt⟩ := not_or.1 (mem_cons.not.1 h)
    rw [foldl_cons, ih hbyt, pass, if_neg (Ne.symm hb), skip, skip, skip, length_cons]
    simp only [Nat.add_assoc, Nat.add_comm 1]

theorem behind_append_of_not_mem {bytes : List UInt8} (h : newline ∉ bytes) (before : List UInt8) :
    behind (before ++ bytes) = (behind before).skip bytes.length := by
  rw [behind_append, foldl_pass_of_not_mem h]

end Cursor

namespace Token

/-! ### From characters to bytes -/

variable {rs : List Rune} {bytes : List UInt8}

theorem newline_not_mem (h : Rune.SpellsAll rs bytes)
    (hrs : ∀ r ∈ rs, r.char ≠ '\n') : newline ∉ bytes := by
  intro hmem
  have hins := h.inside [newline] (forall_mem_singleton.2 (by decide)) (by simp)
    ((singleton_infix_iff _ _).2 hmem)
  obtain ⟨r, hr, hchar⟩ := mem_map.1 ((singleton_infix_iff _ _).1 hins)
  exact hrs r hr hchar

theorem foldl_step_eq_pass (h : Rune.SpellsAll rs bytes)
    (c : Cursor) : rs.foldl Cursor.step c = bytes.foldl Cursor.pass c := by
  induction h generalizing c with
  | nil => rfl
  | @cons r rs bytes more hr _ ih =>
    have hstep : c.step r = bytes.foldl Cursor.pass c := by
      rw [Cursor.step]
      split_ifs with hc
      · rw [hr.eq_singleton (b := newline) (by decide) hc]
        rfl
      · have hbyt := newline_not_mem hr.all (by simpa using hc)
        rw [Cursor.foldl_pass_of_not_mem hbyt, hr.length_eq, Cursor.skip]
    rw [foldl_cons, foldl_append, hstep, ih]

theorem foldl_step_behind (h : Rune.SpellsAll rs bytes) (before : List UInt8) :
    rs.foldl Cursor.step (.behind before) = .behind (before ++ bytes) := by
  rw [foldl_step_eq_pass h, Cursor.behind_append]

theorem foldl_step_opened {r r1 : Rune} (hopen : Rune.SpellsAll [r, r1] opening)
    (h : Rune.SpellsAll rs bytes) (before : List UInt8) :
    rs.foldl Cursor.step (((Cursor.behind before).step r).step r1) =
      .behind (before ++ (opening ++ bytes)) := by
  rw [← foldl_step_behind (hopen.append h), foldl_append]
  rfl

/-! ### What a source is made of -/

/-- The bytes of `//`. -/
def lineOpen : List UInt8 := [0x2F, 0x2F]

/-- The bytes of `/*`. -/
def blockOpen : List UInt8 := [0x2F, 0x2A]

/-- The bytes of `*/`. -/
def blockClose : List UInt8 := [0x2A, 0x2F]

/-- The bytes are the one character `r`, alone and before `more`. -/
def IsRune (r : Rune) (bytes more : List UInt8) : Prop :=
  Rune.decode bytes = [r] ∧ Rune.decode (bytes ++ more) = r :: Rune.decode more

/-- White space or a comment of `bytes`, before `more`. -/
inductive Gap : List UInt8 → List UInt8 → Prop
  /-- One character. -/
  | blank {r : Rune} {bytes more : List UInt8} (h : IsRune r bytes more)
    (hblank : isBlank r.char = true) : Gap bytes more
  /-- A comment up to a newline. -/
  | line {content more : List UInt8} (h : newline ∉ content) :
    Gap (lineOpen ++ content ++ [newline]) more
  /-- A comment up to the end of the source. -/
  | lastLine {content : List UInt8} (h : newline ∉ content) : Gap (lineOpen ++ content) []
  /-- A comment up to the first `*/`. -/
  | block {content more : List UInt8}
    (h : ∀ a b, content ++ blockClose = a ++ blockClose ++ b → b = []) :
    Gap (blockOpen ++ content ++ blockClose) more

/-- A token of `bytes`, before `more`; it lies on one line. -/
inductive Lies : Kind → String → List UInt8 → List UInt8 → Prop
  /-- A token has the bytes of its spelling. -/
  | spelled {kind : Kind} {spelling : String} {bytes more : List UInt8} (hinvalid : kind ≠ .invalid)
    (heof : kind ≠ .eof) (hbytes : bytes = spelling.toUTF8.toList) (hne : bytes ≠ [])
    (hline : newline ∉ bytes) : Lies kind spelling bytes more
  /-- A character that starts no token is named by the message. -/
  | stray {r : Rune} {bytes more : List UInt8} (h : IsRune r bytes more) (hne : bytes ≠ [])
    (hline : newline ∉ bytes) : Lies .invalid (unexpected r.char) bytes more

theorem Lies.on_line {kind : Kind} {spelling : String} (h : Lies kind spelling bytes more) :
    newline ∉ bytes := by
  cases h <;> assumption

theorem Lies.ne_nil {kind : Kind} {spelling : String} (h : Lies kind spelling bytes more) :
    bytes ≠ [] := by
  cases h <;> assumption

/-- What a lexeme at the front of the bytes `bs` behind `before` says about them. -/
def Lexeme.Stands (before bs : List UInt8) : Lexeme → Prop
  | gap after rest => ∃ bytes more, bs = bytes ++ more ∧ Rune.decode more = rest ∧
      Gap bytes more ∧ after = .behind (before ++ bytes)
  | token kind spelling width rest => ∃ bytes more, bs = bytes ++ more ∧ Rune.decode more = rest ∧
      Lies kind spelling bytes more ∧ width = bytes.length
  | unclosed stop => ∃ content, bs = blockOpen ++ content ∧ ¬ blockClose <:+: content ∧
      stop = .behind (before ++ bs)

def IsPlain (c : Char) : Prop := c.toNat < 128 ∧ c ≠ '\n'

instance (c : Char) : Decidable (IsPlain c) := inferInstanceAs (Decidable (_ ∧ _))

def IsProper (kind : Kind) : Prop := kind ≠ .invalid ∧ kind ≠ .eof

instance (kind : Kind) : Decidable (IsProper kind) := inferInstanceAs (Decidable (_ ∧ _))

section
variable {before bs : List UInt8} {r : Rune} {rest : List Rune}

section

variable (h : Rune.decode bs = r :: rest)

include h

theorem isRune_of_decode :
    ∃ bytes more, bs = bytes ++ more ∧ decode more = rest ∧ IsRune r bytes more ∧
      Rune.Spells r bytes := by
  obtain ⟨bytes, more, rfl, hr, hbyt, hm⟩ := decode_eq_cons h
  exact ⟨bytes, more, rfl, hm, ⟨hbyt, hm ▸ h⟩, hr⟩

theorem stands_blank (hr : isBlank r.char = true) :
    Lexeme.Stands before bs (.gap ((Cursor.behind before).step r) rest) := by
  obtain ⟨bytes, more, hbs, hmore, hrune, hspl⟩ := isRune_of_decode h
  exact ⟨bytes, more, hbs, hmore, .blank hrune hr, foldl_step_behind hspl.all before⟩

theorem stands_stray (hr : r.char ≠ '\n') : Lexeme.Stands before bs (stray r rest) := by
  obtain ⟨bytes, more, hbs, hmore, hrune, hspl⟩ := isRune_of_decode h
  have hline := newline_not_mem hspl.all (by simpa using hr)
  exact ⟨bytes, more, hbs, hmore, .stray hrune hspl.ne_nil hline, hspl.length_eq.symm⟩

end

theorem stands_token {kind : Kind} (rs : List Rune) (h : decode bs = r :: rs ++ rest)
    (hk : IsProper kind) (hrs : ∀ x ∈ r :: rs, IsPlain x.char) :
    Lexeme.Stands before bs (.token kind (String.ofList ((r :: rs).map (·.char)))
      (total ((r :: rs).map (·.width))) rest) := by
  obtain ⟨bytes, more, hbs, hspl, hmore⟩ := decode_eq_append h
  have hspell := hspl.eq_toUTF8 fun x hx => (hrs x hx).1
  have hline := newline_not_mem hspl fun x hx => (hrs x hx).2
  exact ⟨bytes, more, hbs, hmore, .spelled hk.1 hk.2 hspell hspl.ne_nil hline,
    hspl.length_eq.symm⟩

end

/-! ### Comments -/

theorem skipLine_cases (cur : Cursor) (rs : List Rune) :
    ((∀ r ∈ rs, r.char ≠ '\n') ∧ skipLine cur rs = (rs.foldl Cursor.step cur, [])) ∨
      ∃ content r rest, rs = content ++ [r] ++ rest ∧ (∀ x ∈ content, x.char ≠ '\n') ∧
        r.char = '\n' ∧ skipLine cur rs = ((content ++ [r]).foldl Cursor.step cur, rest) := by
  induction rs generalizing cur with
  | nil => exact .inl ⟨nofun, rfl⟩
  | cons r rs ih =>
    rw [skipLine]
    split_ifs with hr
    · exact .inr ⟨[], r, rs, rfl, nofun, hr, rfl⟩
    · obtain ⟨hrs, heq⟩ | ⟨content, r', rest, rfl, hcont, hr', heq⟩ := ih (cur.step r)
      · exact .inl ⟨forall_mem_cons.2 ⟨hr, hrs⟩, heq⟩
      · exact .inr ⟨r :: content, r', rest, rfl, forall_mem_cons.2 ⟨hr, hcont⟩, hr', heq⟩

/-- The characters of a comment after its start: the star that was read before, and the others. -/
def inBlock (star : Bool) (rs : List Rune) : List Char :=
  (if star then ['*'] else []) ++ rs.map (·.char)

theorem inBlock_isSuffix (star : Bool) (r : Rune) (rs : List Rune) :
    inBlock (r.char = '*') rs <:+ inBlock star (r :: rs) := by
  have hcons : inBlock (r.char = '*') rs <:+ (r :: rs).map (·.char) := by
    by_cases hr : r.char = '*'
    · simp [inBlock, hr]
    · simp [inBlock, hr]
  exact hcons.trans (suffix_append _ _)

theorem inBlock_step {star : Bool} {r : Rune} (hr : ¬ (star && r.char = '/') = true)
    (h : ¬ ['*', '/'] <:+: inBlock (r.char = '*') rs) :
    ¬ ['*', '/'] <:+: inBlock star (r :: rs) := by
  have hfst : ¬ ['*', '/'] <:+: r.char :: rs.map (·.char) := by
    intro hins
    obtain hfro | hins := infix_cons_iff.1 hins
    · obtain ⟨hstar, hsl⟩ := cons_prefix_cons.1 hfro
      refine h (List.IsPrefix.isInfix ?_)
      simpa [inBlock, hstar.symm] using hsl
    · exact h (hins.trans (suffix_append _ _).isInfix)
  cases star with
  | false => exact hfst
  | true =>
    intro hins
    obtain hfro | hins := infix_cons_iff.1 hins
    · have hsl := (cons_prefix_cons.1 (cons_prefix_cons.1 hfro).2).1
      simp [← hsl] at hr
    · exact hfst hins

theorem skipComment_cases (star : Bool) (cur : Cursor) (rs : List Rune) :
    (¬ ['*', '/'] <:+: inBlock star rs ∧
        skipComment star cur rs = (false, rs.foldl Cursor.step cur, [])) ∨
      ∃ content r rest, rs = content ++ [r] ++ rest ∧ r.char = '/' ∧
        ¬ ['*', '/'] <:+: inBlock star content ∧ ['*'] <:+ inBlock star content ∧
        skipComment star cur rs = (true, (content ++ [r]).foldl Cursor.step cur, rest) := by
  have hnil : ∀ star, ¬ ['*', '/'] <:+: inBlock star [] := by decide
  induction rs generalizing star cur with
  | nil => exact .inl ⟨hnil star, rfl⟩
  | cons r rs ih =>
    rw [skipComment]
    split_ifs with hr
    · obtain ⟨rfl, hsl⟩ := Bool.and_eq_true_iff.1 hr
      exact .inr ⟨[], r, rs, rfl, of_decide_eq_true hsl, hnil true, suffix_rfl, rfl⟩
    · obtain ⟨hrs, heq⟩ | ⟨content, r', rest, rfl, hr', hcont, hlast, heq⟩ :=
        ih (r.char = '*') (cur.step r)
      · exact .inl ⟨inBlock_step hr hrs, heq⟩
      · exact .inr ⟨r :: content, r', rest, rfl, hr', inBlock_step hr hcont,
          hlast.trans (inBlock_isSuffix star r content), heq⟩

theorem not_blockClose (h : Rune.SpellsAll rs bytes)
    (hrs : ¬ ['*', '/'] <:+: rs.map (·.char)) : ¬ blockClose <:+: bytes :=
  fun hins => hrs (h.inside blockClose (by simp [blockClose]) (by decide) hins)

theorem blockClose_first (h : ¬ blockClose <:+: bytes ++ [0x2A]) :
    ∀ a b, bytes ++ blockClose = a ++ blockClose ++ b → b = [] := by
  intro a b heq
  obtain rfl | ⟨b, x, rfl⟩ := eq_nil_or_concat b
  · rfl
  · have hlast : bytes ++ [0x2A] ++ [0x2F] = a ++ blockClose ++ b ++ [x] := by
      simpa [blockClose] using heq
    exact absurd ⟨a, b, (append_inj' hlast rfl).1.symm⟩ h

theorem eq_append_of_suffix {c : Char} (h : [c] <:+ rs.map (·.char)) :
    ∃ inner r, rs = inner ++ [r] ∧ r.char = c := by
  obtain ⟨chars, hchar⟩ := h
  obtain ⟨inner, last, rfl, -, hlast⟩ := map_eq_append_iff.1 hchar.symm
  obtain ⟨r, rfl, hr⟩ := map_eq_singleton_iff.1 hlast
  exact ⟨inner, r, rfl, hr⟩

section
variable {before bs : List UInt8} {r r1 : Rune} {rest : List Rune}

theorem stands_line (h : decode bs = r :: r1 :: rest) (hr : r.char = '/') (hr1 : r1.char = '/') :
    let inside := ((Cursor.behind before).step r).step r1
    Lexeme.Stands before bs (.gap (skipLine inside rest).1 (skipLine inside rest).2) := by
  intro inside
  obtain ⟨bs, rfl, hsl, h⟩ := decode_eq_ascii (b := 0x2F) h (by decide) hr
  obtain ⟨bs, rfl, hslash1, h⟩ := decode_eq_ascii (b := 0x2F) h (by decide) hr1
  have ho : Rune.SpellsAll [r, r1] lineOpen := hsl.append hslash1
  obtain ⟨hrest, heq⟩ | ⟨content, r', rest, rfl, hcont, hr', heq⟩ := skipLine_cases inside rest
  · obtain ⟨bytes, more, rfl, hspl, hm⟩ := decode_eq_append (h.trans (append_nil rest).symm)
    obtain rfl := decode_eq_nil hm
    rw [heq]
    refine ⟨lineOpen ++ bytes, [], rfl, hm, .lastLine (newline_not_mem hspl hrest), ?_⟩
    exact foldl_step_opened ho hspl before
  · rw [append_assoc] at h
    obtain ⟨bytes, more, rfl, hspl, h⟩ := decode_eq_append h
    obtain ⟨more, rfl, hnew, h⟩ := decode_eq_ascii (b := newline) h (by decide) hr'
    rw [heq]
    refine ⟨lineOpen ++ bytes ++ [newline], more, ?_, h, .line (newline_not_mem hspl hcont), ?_⟩
    · simp [lineOpen]
    · rw [append_assoc]
      exact foldl_step_opened ho (hspl.append hnew) before

theorem stands_block (h : decode bs = r :: r1 :: rest) (hr : r.char = '/') (hr1 : r1.char = '*') :
    Lexeme.Stands before bs
      (match skipComment false (((Cursor.behind before).step r).step r1) rest with
      | (true, after, rest) => .gap after rest
      | (false, stop, _) => .unclosed stop) := by
  obtain ⟨bs, rfl, hsl, h⟩ := decode_eq_ascii (b := 0x2F) h (by decide) hr
  obtain ⟨bs, rfl, hstar, h⟩ := decode_eq_ascii (b := 0x2A) h (by decide) hr1
  have ho : Rune.SpellsAll [r, r1] blockOpen := hsl.append hstar
  -- the star that opens the comment does not close it
  obtain ⟨hrest, heq⟩ | ⟨content, r', rest, rfl, hr', hcont, hlast, heq⟩ :=
    skipComment_cases false (((Cursor.behind before).step r).step r1) rest
  · obtain ⟨bytes, more, rfl, hspl, hmore⟩ :=
      decode_eq_append (h.trans (append_nil rest).symm)
    obtain rfl := decode_eq_nil hmore
    rw [heq, append_nil]
    exact ⟨bytes, rfl, not_blockClose hspl hrest, foldl_step_opened ho hspl before⟩
  · obtain ⟨inner, s, rfl, hs⟩ := eq_append_of_suffix hlast
    rw [append_assoc, append_assoc] at h
    obtain ⟨bytes, more, rfl, hspl, h⟩ := decode_eq_append h
    obtain ⟨more, rfl, hstar', h⟩ := decode_eq_ascii (b := 0x2A) h (by decide) hs
    obtain ⟨more, rfl, hsl', h⟩ := decode_eq_ascii (b := 0x2F) h (by decide) hr'
    have hclos : Rune.SpellsAll [s, r'] blockClose := hstar'.append hsl'
    rw [heq]
    refine ⟨blockOpen ++ bytes ++ blockClose, more, ?_, h, .block ?_, ?_⟩
    · simp [blockOpen, blockClose]
    · exact blockClose_first (not_blockClose (hspl.append hstar') hcont)
    · rw [append_assoc, append_assoc]
      exact foldl_step_opened ho (hspl.append hclos) before

/-! ### Lexemes -/

section

variable (h : Rune.decode bs = r :: rest)

include h

theorem stands_one {kind : Kind} (hkind : IsProper kind)
    (hr : IsPlain r.char) : Lexeme.Stands before bs (one kind r rest) :=
  stands_token [] h hkind (by simpa using hr)

theorem stands_pair {c : Char} (htwo : IsProper two) (hr : IsPlain r.char) (hc : IsPlain c)
    (halon : Lexeme.Stands before bs (alone r rest)) :
    Lexeme.Stands before bs (pair c two r rest alone) := by
  cases rest with
  | nil => exact halon
  | cons r1 rest =>
    rw [pair]
    split_ifs with hr1
    · subst hr1
      exact stands_token [r1] h htwo (by simpa using ⟨hr, hc⟩)
    · exact halon

theorem stands_slash (hr : r.char = '/') :
    Lexeme.Stands before bs (slash (.behind before) r rest) := by
  have hdiv : Lexeme.Stands before bs (one .div r rest) :=
    stands_one h (by decide) (by rw [hr]; decide)
  cases rest with
  | nil => exact hdiv
  | cons r1 rest =>
    simp only [slash]
    split_ifs with hsl hstar
    · exact stands_line h hr hsl
    · exact stands_block h hr hstar
    · exact hdiv

theorem stands_run {kind : String → Kind} (hkind : ∀ s, IsProper (kind s))
    (hp : ∀ c, p c = true → IsPlain c) (hr : p r.char = true) :
    Lexeme.Stands before bs (run p kind r rest) := by
  refine stands_token (rest.takeWhile (p ·.char)) ?_ (hkind _) (forall_mem_cons.2 ⟨hp _ hr, ?_⟩)
  · rw [cons_append, takeWhile_append_dropWhile]
    exact h
  · intro x hx
    have hx' := mem_takeWhile_imp hx
    exact hp _ hx'

end

variable {c : Char}

theorem isPlain_single? {kind : Kind} (h : single? c = some kind) : IsPlain c ∧ IsProper kind := by
  unfold single? at h
  split at h
  all_goals try (cases h; decide)
  split_ifs at h with hl hr
  · subst hl
    cases h
    decide
  · subst hr
    cases h
    decide

theorem isPlain_beforeEquals? (h : beforeEquals? c = some (two, alone)) :
    IsPlain c ∧ IsProper two ∧ IsProper alone := by
  unfold beforeEquals? at h
  split at h <;> cases h <;> decide

theorem isPlain_doubled? {kind : Kind} (h : doubled? c = some kind) :
    IsPlain c ∧ IsProper kind := by
  unfold doubled? at h
  split at h <;> cases h <;> decide

theorem isPlain_of_le (hlow : 48 ≤ c.toNat) (hhigh : c.toNat ≤ 122) : IsPlain c := by
  refine ⟨by omega, ?_⟩
  rintro rfl
  exact absurd hlow (by decide)

theorem isPlain_of_isDigit (c : Char) (h : isDigit c = true) : IsPlain c := by
  simp only [isDigit, Bool.and_eq_true, decide_eq_true_eq] at h
  exact isPlain_of_le h.1 (Nat.le_trans h.2 (by decide))

theorem isPlain_of_isWordChar (c : Char) (h : isWordChar c = true) : IsPlain c := by
  simp only [isWordChar, isLetter, Bool.or_eq_true, Bool.and_eq_true, decide_eq_true_eq] at h
  obtain ((⟨hlow, hh⟩ | ⟨hlow, hh⟩) | hdig) | rfl := h
  · exact isPlain_of_le (Nat.le_trans (by decide) hlow) hh
  · exact isPlain_of_le (Nat.le_trans (by decide) hlow)
      (Nat.le_trans hh (by decide))
  · exact isPlain_of_isDigit c hdig
  · decide

theorem isProper_ofWord (s : String) : IsProper (Kind.ofWord s) := by
  have hall : ∀ pair ∈ Kind.keywords, IsProper pair.2 := by decide
  rw [Kind.ofWord]
  cases hlook : Kind.keywords.lookup s with
  | none => decide
  | some kind =>
    obtain ⟨_, _, heq, -⟩ := lookup_eq_some_iff.1 hlook
    exact hall (s, kind) (by simp [heq])

variable (before) in
theorem stands_lexeme (h : decode bs = r :: rest) :
    Lexeme.Stands before bs (lexeme (.behind before) r rest) := by
  rw [lexeme]
  by_cases hblan : isBlank r.char = true
  · rw [if_pos hblan]
    exact stands_blank h hblan
  · rw [if_neg hblan]
    have hl : r.char ≠ '\n' := fun heq => hblan (heq ▸ rfl)
    split
    · rename_i hsgl
      obtain ⟨hr, hkind⟩ := isPlain_single? hsgl
      exact stands_one h hkind hr
    · rename_i hbef _
      obtain ⟨hr, htwo, halon⟩ := isPlain_beforeEquals? hbef
      exact stands_pair h htwo hr (by decide) (stands_one h halon hr)
    · rename_i hdoub _ _
      obtain ⟨hr, htwo⟩ := isPlain_doubled? hdoub
      exact stands_pair h htwo hr hr (stands_stray h hl)
    · split_ifs with hsl hdig hlet
      · exact stands_slash h hsl
      · exact stands_run h (fun _ => by decide) isPlain_of_isDigit hdig
      · exact stands_run h isProper_ofWord isPlain_of_isWordChar (by simp [isWordChar, hlet])
      · exact stands_stray h hl

end

end Token

end MiniJam
