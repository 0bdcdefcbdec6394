import MiniJam.Proofs.Token.Lexeme

/-!
# No byte of a source is lost

A source is made of its tokens and of the white space and comments between them (`Token.Covers`).  So
the source holds every token at its place, and the places follow each other without meeting
(`Token.scan_lossless`).  Lines end with newline bytes and columns count bytes.
-/

namespace MiniJam

open Text List Cursor Rune

namespace Token

/-- The bytes `bs` behind `before` are made of white space, comments and the tokens, one after the
other.  Each token is at its place; a comment without end is the last thing and has a token of no
width behind it. -/
inductive Covers (file : String) : List UInt8 → List UInt8 → List Token → Prop
  | done {before : List UInt8} : Covers file before [] []
  | gap {before bytes more : List UInt8} {tokens : List Token} (h : Gap bytes more)
    (hmore : Covers file (before ++ bytes) more tokens) : Covers file before (bytes ++ more) tokens
  | token {before bytes more : List UInt8} {kind : Kind} {spelling : String} {tokens : List Token}
    (h : Lies kind spelling bytes more) (hmore : Covers file (before ++ bytes) more tokens) :
    Covers file before (bytes ++ more)
      (⟨kind, spelling, (Cursor.behind before).span file bytes.length⟩ :: tokens)
  | unclosed {before content : List UInt8} (h : ¬ blockClose <:+: content) :
    Covers file before (blockOpen ++ content) [⟨.invalid, "Unterminated comment",
        (Cursor.behind (before ++ (blockOpen ++ content))).span file 0⟩]

theorem covers_scanFrom (file : String) (before bs : List UInt8) :
    Covers file before bs (scanFrom file (.behind before) (decode bs)).1 ∧
      (scanFrom file (.behind before) (decode bs)).2 = .behind (before ++ bs) := by
  generalize hcur : behind before = cur
  generalize hrs : decode bs = rs
  fun_induction scanFrom file cur rs generalizing before bs with
  | case1 cur =>
    obtain rfl := decode_eq_nil hrs
    exact ⟨.done, by rw [append_nil, hcur]⟩
  | case2 cur r rest after rest' hlex ih =>
    have hstan := stands_lexeme before hrs
    rw [hcur, hlex] at hstan
    obtain ⟨bytes, more, rfl, hm, hgap, haft⟩ := hstan
    obtain ⟨hcov, hs⟩ := ih _ _ haft.symm hm
    exact ⟨.gap hgap hcov, by rw [hs, append_assoc]⟩
  | case3 cur r rest kind spelling width rest' hlex tokens stop heq ih =>
    have hstan := stands_lexeme before hrs
    rw [hcur, hlex] at hstan
    obtain ⟨bytes, more, rfl, hm, hl, rfl⟩ := hstan
    subst hcur
    -- the token lies on one line, so skipping its width leads behind its bytes
    obtain ⟨hcov, hs⟩ := ih _ _ (behind_append_of_not_mem hl.on_line before) hm
    rw [heq] at hcov hs
    exact ⟨.token hl hcov, by rw [← append_assoc]; exact hs⟩
  | case4 cur r rest stop hlex =>
    have hstan := stands_lexeme before hrs
    rw [hcur, hlex] at hstan
    obtain ⟨content, rfl, hcont, rfl⟩ := hstan
    exact ⟨.unclosed hcont, rfl⟩

end Token

/-! ### The bytes at a place -/

def Span.bytesIn (s : Span) (source : List UInt8) : List UInt8 :=
  (((source.splitOn newline).getD s.line.toNat []).drop s.start.toNat).take
    (s.stop + 1 - s.start).toNat

theorem Cursor.behind_lines (before : List UInt8) :
    ∃ lines last, lines.length = (behind before).line ∧ last.length = (behind before).col ∧
      newline ∉ last ∧
      ∀ more, (before ++ more).splitOn newline = lines ++ (last ++ more).splitOn newline := by
  -- from the right: the last byte closes the last line or makes it longer
  induction before using reverseRecOn with
  | nil => exact ⟨[], [], rfl, rfl, nofun, fun _ => rfl⟩
  | append_singleton before b ih =>
    obtain ⟨lines, last, hl, hcol, hlast, hspl⟩ := ih
    rw [behind_append, foldl_cons, foldl_nil, pass]
    split_ifs with hb
    · subst hb
      refine ⟨lines ++ [last], [], by simp [hl], rfl, nofun, fun more => ?_⟩
      rw [append_assoc, singleton_append, hspl, splitOn_append_cons_self_of_not_mem hlast]
      simp
    · refine ⟨lines, last ++ [b], hl, by simp [skip, hcol], by simp [hlast, Ne.symm hb], ?_⟩
      intro more
      rw [append_assoc, hspl, append_assoc]

theorem Text.head_splitOn (bytes more : List UInt8) (h : newline ∉ bytes) :
    ∃ tail lines, (bytes ++ more).splitOn newline = (bytes ++ tail) :: lines := by
  by_cases hm : newline ∈ more
  · obtain ⟨tail, rest, rfl, htail⟩ := eq_append_cons_of_mem hm
    refine ⟨tail, rest.splitOn newline, ?_⟩
    rw [← append_assoc]
    exact splitOn_append_cons_self_of_not_mem (by simp [h, htail]) rest
  · exact ⟨more, [], splitOn_eq_singleton (by simp [h, hm])⟩

variable {bytes : List UInt8}

theorem Span.bytesIn_span (file : String) (before more : List UInt8) (h : newline ∉ bytes) :
    ((behind before).span file bytes.length).bytesIn (before ++ (bytes ++ more)) = bytes := by
  obtain ⟨lines, last, hline, hcol, hlast, hspl⟩ := behind_lines before
  obtain ⟨tail, others, hhead⟩ := head_splitOn (last ++ bytes) more (by simp [hlast, h])
  have hwid : ((behind before).col + bytes.length - 1 + 1 -
      (behind before).col : Int).toNat = bytes.length := by omega
  simp only [Span.bytesIn, Cursor.span, Int.toNat_natCast, hwid, hspl]
  rw [← append_assoc, hhead, ← hline, ← hcol]
  simp

/-! ### The order of tokens -/

def Span.EndsBefore (s t : Span) : Prop := s.line < t.line ∨ s.line = t.line ∧ s.stop < t.start

def Cursor.UpTo (c : Cursor) (s : Span) : Prop := c.line < s.line ∨ c.line = s.line ∧ c.col ≤ s.start

theorem Cursor.upTo_of_foldl_pass {c : Cursor} (h : (bytes.foldl pass c).UpTo s) : c.UpTo s := by
  induction bytes generalizing c with
  | nil => exact h
  | cons b bytes ih =>
    have hs := ih h
    rw [pass] at hs
    split_ifs at hs
    · simp only [UpTo] at *
      omega
    · simp only [UpTo, skip] at *
      omega

theorem Cursor.upTo_of_append {before : List UInt8} (h : (behind (before ++ bytes)).UpTo s) :
    (behind before).UpTo s :=
  upTo_of_foldl_pass (behind_append before bytes ▸ h)

namespace Token

variable {file : String} {before bs : List UInt8} {tokens : List Token}

theorem Covers.upTo
    (h : Covers file before bs tokens) : ∀ t ∈ tokens, (behind before).UpTo t.span := by
  induction h with
  | done => exact forall_mem_nil _
  | gap _ _ ih =>
    intro t ht
    exact upTo_of_append (ih t ht)
  | token _ _ ih =>
    refine forall_mem_cons.2 ⟨.inr ⟨rfl, le_rfl⟩, fun t ht => ?_⟩
    exact upTo_of_append (ih t ht)
  | unclosed => exact forall_mem_singleton.2 (upTo_of_append (.inr ⟨rfl, le_rfl⟩))

theorem Covers.pairwise (h : Covers file before bs tokens) :
    tokens.Pairwise fun t u => t.span.EndsBefore u.span := by
  induction h with
  | done => exact .nil
  | gap _ _ ih => exact ih
  | token hlies hmore ih =>
    refine .cons (fun u hu => ?_) ih
    have hu := hmore.upTo u hu
    rw [Cursor.behind_append_of_not_mem hlies.on_line] at hu
    simp only [Cursor.UpTo, Cursor.skip, Span.EndsBefore, Cursor.span] at *
    omega
  | unclosed => exact pairwise_singleton _ _

/-- What a source holds at the place of a token. -/
inductive InPlace (source : List UInt8) (t : Token) : Prop
  /-- The bytes of its spelling. -/
  | spelled (hinvalid : t.kind ≠ .invalid) (heof : t.kind ≠ .eof) (hwide : t.span.start ≤ t.span.stop)
    (hbytes : t.span.bytesIn source = t.spelling.toUTF8.toList)
  /-- The bytes of the one character that the message names. -/
  | stray (r : Rune) (hkind : t.kind = .invalid) (hwide : t.span.start ≤ t.span.stop)
    (hrune : Rune.decode (t.span.bytesIn source) = [r]) (hspelling : t.spelling = unexpected r.char)
  /-- The end of a comment without end. -/
  | unclosed (hkind : t.kind = .invalid) (hspelling : t.spelling = "Unterminated comment")

theorem Covers.inPlace
    (h : Covers file before bs tokens) : ∀ t ∈ tokens, InPlace (before ++ bs) t := by
  induction h with
  | done => exact forall_mem_nil _
  | gap _ _ ih => rwa [append_assoc] at ih
  | @token before bytes more _ _ _ hl _ ih =>
    rw [append_assoc] at ih
    refine forall_mem_cons.2 ⟨?_, ih⟩
    have hbyt := Span.bytesIn_span file before more hl.on_line
    have hpos : 0 < bytes.length := length_pos_iff.2 hl.ne_nil
    have hw : ((behind before).span file bytes.length).start ≤
        ((behind before).span file bytes.length).stop := by
      simp only [Cursor.span]
      omega
    cases hl with
    | spelled hinv heof hspell => exact .spelled hinv heof hw (hbyt.trans hspell)
    | @stray r _ _ hrune => exact .stray r rfl hw ((congrArg decode hbyt).trans hrune.1) rfl
  | unclosed => exact forall_mem_singleton.2 (.unclosed rfl rfl)

/-- Every byte of a source belongs to a token or to what lies between tokens; the source holds each
token at its place, and the places follow each other without meeting. -/
theorem scan_lossless (file : String) (source : List UInt8) :
    Covers file [] source (scan file source).1 ∧
      (∀ t ∈ (scan file source).1, InPlace source t) ∧
      (scan file source).1.Pairwise (fun t u => t.span.EndsBefore u.span) ∧
      (scan file source).2 = ⟨.eof, "", (Cursor.behind source).span file 1⟩ := by
  obtain ⟨hcovers, hstop⟩ := covers_scanFrom file [] source
  refine ⟨hcovers, hcovers.inPlace, hcovers.pairwise, ?_⟩
  rw [scan]
  exact congrArg (fun stop => (⟨.eof, "", Cursor.span stop file 1⟩ : Token)) hstop

end Token

end MiniJam
