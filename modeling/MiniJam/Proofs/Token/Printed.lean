import MiniJam.Proofs.Token.Lexeme

/-!
# Tokens survive printing

A token is read back from its spelling, as long as the character behind it does not make it longer
(`lexeme_of_spelled`).  So a text made of spellings with white space and comments between them is read
as these tokens, and two tokens without anything between them are read as such if and only if the
second does not make the first one longer (`Token.scan_printed`).
-/

namespace MiniJam.Token

open Text List

/-- How tokens are spelled. -/
inductive Spelled : Kind → String → Prop
  /-- Keywords, punctuation and operators have a spelling of their own. -/
  | fixed {k : Kind} {s : String} (h : k.spelling? = some s) : Spelled k s
  /-- An identifier is a letter followed by letters, digits and underscores, and is no keyword. -/
  | id {c : Char} {cs : List Char} (hc : isLetter c = true) (hcs : ∀ x ∈ cs, isWordChar x = true)
    (h : String.ofList (c :: cs) ∉ Kind.keywords.map (·.1)) : Spelled .id (String.ofList (c :: cs))
  /-- A number is made of digits. -/
  | num {c : Char} {cs : List Char} (hc : isDigit c = true) (hcs : ∀ x ∈ cs, isDigit x = true) :
    Spelled .num (String.ofList (c :: cs))

/-- A white-space character or a closed comment. -/
inductive Filler : List Char → Prop
  | blank {c : Char} (h : isBlank c = true) : Filler [c]
  | line {content : List Char} (h : '\n' ∉ content) : Filler (['/', '/'] ++ content ++ ['\n'])
  | block {content : List Char} (h : ¬ ['*', '/'] <:+: content ++ ['*']) :
    Filler (['/', '*'] ++ content ++ ['*', '/'])

/-- A white-space character followed by white space and closed comments. -/
def Separates (sep : String) : Prop :=
  ∃ (c : Char) (fillers : List (List Char)),
    isBlank c = true ∧ (∀ f ∈ fillers, Filler f) ∧ sep.toList = c :: fillers.flatten

/-- The text is made of the spellings of the tokens, joined by separators. -/
inductive Printed : List (Kind × String) → String → Prop
  | nil : Printed [] ""
  | one {k : Kind} {s : String} (h : Spelled k s) : Printed [(k, s)] s
  | cons {k : Kind} {s sep text : String} {token : Kind × String} {tokens : List (Kind × String)}
    (h : Spelled k s) (hsep : Separates sep) (hmore : Printed (token :: tokens) text) :
    Printed ((k, s) :: token :: tokens) (s ++ sep ++ text)

/-- The characters spell a token or open a comment. -/
def Starts (cs : List Char) : Prop :=
  (∃ k, Spelled k (String.ofList cs)) ∨ cs = ['/', '/'] ∨ cs = ['/', '*']

/-! ### The shapes of spellings -/

/-- The spellings by the ways in which they are read. -/
inductive Shape : Kind → List Char → Prop
  | word {k : Kind} {c : Char} {cs : List Char} (hc : isLetter c = true)
    (hcs : ∀ x ∈ cs, isWordChar x = true) (hk : Kind.ofWord (String.ofList (c :: cs)) = k) :
    Shape k (c :: cs)
  | number {c : Char} {cs : List Char} (hc : isDigit c = true) (hcs : ∀ x ∈ cs, isDigit x = true) :
    Shape .num (c :: cs)
  | single {k : Kind} {c : Char} (h : single? c = some k) : Shape k [c]
  | alone {two k : Kind} {c : Char} (h : beforeEquals? c = some (two, k)) : Shape k [c]
  | before {k alone : Kind} {c : Char} (h : beforeEquals? c = some (k, alone)) : Shape k [c, '=']
  | double {k : Kind} {c : Char} (h : doubled? c = some k) : Shape k [c, c]
  | slash : Shape .div ['/']

variable {k : Kind} {s : String} {cs : List Char}

theorem shape_of_spelling (h : k.spelling? = some s) : Shape k s.toList := by
  cases k with
  | invalid | eof | id | num => cases h
  | kwClass | kwPublic | kwPrivate | kwStatic | kwVoid | kwInt | kwBoolean | kwThis | kwIf | kwElse
  | kwWhile | kwReturn | kwNew | kwTrue | kwFalse =>
    cases h
    exact .word (by decide) (all_eq_true.1 (by decide)) (by decide)
  | lcurly | rcurly | lparen | rparen | lsquare | rsquare | semicolon | comma | dot | plus | minus
  | mul =>
    cases h
    exact .single rfl
  | assign | lt | gt | not =>
    cases h
    exact .alone rfl
  | eq | ne | le | ge =>
    cases h
    exact .before rfl
  | or | and =>
    cases h
    exact .double rfl
  | div =>
    cases h
    exact .slash

theorem shape_of_spelled (h : Spelled k s) : Shape k s.toList := by
  cases h with
  | fixed h => exact shape_of_spelling h
  | @id c cs hc hcs h =>
    rw [String.toList_ofList]
    refine .word hc hcs ?_
    rw [Kind.ofWord, lookup_eq_none_iff.2, Option.getD_none]
    rintro entry hent
    exact bne_iff_ne.2 fun heq => h (heq ▸ mem_map_of_mem hent)
  | num hc hcs =>
    rw [String.toList_ofList]
    exact .number hc hcs

theorem spelling_of_keyword : ∀ entry ∈ Kind.keywords, entry.2.spelling? = some entry.1 := by
  decide

theorem spelled_of_word {c : Char} (hc : isLetter c = true) (hcs : ∀ x ∈ cs, isWordChar x = true) :
    ∃ k, Spelled k (String.ofList (c :: cs)) := by
  by_cases h : String.ofList (c :: cs) ∈ Kind.keywords.map (·.1)
  · obtain ⟨entry, hent, heq⟩ := mem_map.1 h
    exact ⟨entry.2, .fixed (heq ▸ spelling_of_keyword entry hent)⟩
  · exact ⟨.id, .id hc hcs h⟩

theorem spelling_of_beforeEquals {c : Char} (h : beforeEquals? c = some (two, alone)) :
    two.spelling? = some (String.ofList [c, '=']) := by
  unfold beforeEquals? at h
  split at h <;> cases h <;> rfl

/-- The characters that start a token start no other lexeme. -/
theorem classes_of_isPlain {c : Char} (h : IsPlain c) : (single? c ≠ none → isBlank c = false) ∧
    (beforeEquals? c ≠ none → isBlank c = false ∧ single? c = none) ∧
    (doubled? c ≠ none → isBlank c = false ∧ single? c = none ∧ beforeEquals? c = none) ∧
    (isWordChar c = true → isBlank c = false ∧ single? c = none ∧ beforeEquals? c = none ∧
      doubled? c = none ∧ c ≠ '/') ∧
    (isLetter c = true → isDigit c = false) := by
  obtain ⟨n, hn, rfl⟩ : ∃ n < 128, c = Char.ofNat n := ⟨c.toNat, h.1, (Char.ofNat_toNat c).symm⟩
  clear h
  revert n
  decide +kernel

theorem Shape.not_blank (h : Shape k cs) : ∀ c ∈ cs, isBlank c = false := by
  have hw : ∀ c, isWordChar c = true → isBlank c = false := fun c hc =>
    ((classes_of_isPlain (isPlain_of_isWordChar c hc)).2.2.2.1 hc).1
  have hdig : ∀ c, isDigit c = true → isBlank c = false := fun c hc =>
    hw c (by simp [isWordChar, hc])
  cases h with
  | word hc hcs =>
    exact forall_mem_cons.2 ⟨hw _ (by simp [isWordChar, hc]), fun x hx => hw x (hcs x hx)⟩
  | number hc hcs => exact forall_mem_cons.2 ⟨hdig _ hc, fun x hx => hdig x (hcs x hx)⟩
  | single h => simpa using (classes_of_isPlain (isPlain_single? h).1).1 (by simp [h])
  | alone h => simpa using ((classes_of_isPlain (isPlain_beforeEquals? h).1).2.1 (by simp [h])).1
  | before h =>
    have hblan := ((classes_of_isPlain (isPlain_beforeEquals? h).1).2.1 (by simp [h])).1
    simp [hblan]
    decide
  | double h => simpa using ((classes_of_isPlain (isPlain_doubled? h).1).2.2.1 (by simp [h])).1
  | slash => exact forall_mem_singleton.2 (by decide)

/-! ### The token at the front -/

section

variable {r : Rune} {rs rest : List Rune}

theorem run_append {kind : String → Kind} (hrs : ∀ x ∈ rs, p x.char = true)
    (hrest : ∀ x ∈ rest.head?, p x.char = false) :
    ∃ w, run p kind r (rs ++ rest) = .token (kind (String.ofList ((r :: rs).map (·.char))))
      (String.ofList ((r :: rs).map (·.char))) w rest := by
  have ht : rest.takeWhile (p ·.char) = [] ∧ rest.dropWhile (p ·.char) = rest := by
    cases rest with
    | nil => exact ⟨rfl, rfl⟩
    | cons x rest =>
      have hx := hrest x rfl
      simp [hx]
  refine ⟨total ((r :: rs).map (·.width)), ?_⟩
  rw [run, takeWhile_append_of_pos hrs, dropWhile_append_of_pos hrs, ht.1, ht.2, append_nil]

theorem pair_of_head {c : Char} (h : ∀ x ∈ rest.head?, x.char ≠ c) :
    pair c two r rest alone = alone r rest := by
  cases rest with
  | nil => rfl
  | cons x rest => exact if_neg (h x rfl)

theorem slash_of_head (h : ∀ x ∈ rest.head?, x.char ≠ '/' ∧ x.char ≠ '*') :
    slash cur r rest = one .div r rest := by
  cases rest with
  | nil => rfl
  | cons x rest =>
    obtain ⟨hsl, hstar⟩ := h x rfl
    simp [slash, hsl, hstar]

theorem lexeme_of_slash (hr : r.char = '/') (cur : Cursor) (rest : List Rune) :
    lexeme cur r rest = slash cur r rest := by
  have hcls : isBlank '/' = false ∧ single? '/' = none ∧ beforeEquals? '/' = none ∧
      doubled? '/' = none := by decide
  simp [lexeme, hr, hcls]

/-- A token is read if the character behind it makes neither a longer one nor a comment of it. -/
theorem lexeme_of_spelled (h : Spelled k s) (hrs : (r :: rs).map (·.char) = s.toList)
    (hend : ∀ x ∈ rest.head?, ¬ Starts (s.toList ++ [x.char])) (cur : Cursor) :
    ∃ w, lexeme cur r (rs ++ rest) = .token k s w rest := by
  have hs : s = String.ofList ((r :: rs).map (·.char)) := by rw [hrs, String.ofList_toList]
  have hshp := hrs ▸ shape_of_spelled h
  rw [← hrs] at hend
  rw [hs]
  clear h hs hrs
  generalize hcs : (r :: rs).map (·.char) = cs at hshp hend
  cases hshp with
  | word hc hw hk =>
    obtain ⟨rfl, rfl⟩ := List.cons.inj hcs
    have hr : isWordChar r.char = true := by simp [isWordChar, hc]
    obtain ⟨-, -, -, hcls, hdig⟩ := classes_of_isPlain (isPlain_of_isWordChar _ hr)
    obtain ⟨hblan, hsgl, hequa, hdoub, hsl⟩ := hcls hr
    simp only [lexeme, hblan, hsgl, hequa, hdoub, if_neg hsl, hdig hc, hc,
      Bool.false_eq_true, if_false, if_true]
    refine hk ▸ run_append (by simpa using hw) fun x hx => Bool.eq_false_iff.2 fun hx' => ?_
    have hlon := forall_mem_append.2 ⟨hw, forall_mem_singleton.2 hx'⟩
    exact hend x hx (.inl (spelled_of_word hc hlon))
  | number hc hdgs =>
    obtain ⟨rfl, rfl⟩ := List.cons.inj hcs
    have hr : isWordChar r.char = true := by simp [isWordChar, hc]
    obtain ⟨-, -, -, hcls, -⟩ := classes_of_isPlain (isPlain_of_isWordChar _ hr)
    obtain ⟨hblan, hsgl, hequa, hdoub, hsl⟩ := hcls hr
    simp only [lexeme, hblan, hsgl, hequa, hdoub, if_neg hsl, hc, Bool.false_eq_true,
      if_false, if_true]
    refine run_append (by simpa using hdgs) fun x hx => Bool.eq_false_iff.2 fun hx' => ?_
    have hlon := forall_mem_append.2 ⟨hdgs, forall_mem_singleton.2 hx'⟩
    exact hend x hx (.inl ⟨.num, .num hc hlon⟩)
  | single h =>
    obtain ⟨rfl, hnil⟩ := List.cons.inj hcs
    obtain rfl := map_eq_nil_iff.1 hnil
    have hblan := (classes_of_isPlain (isPlain_single? h).1).1 (by simp [h])
    simp only [lexeme, hblan, h]
    exact ⟨r.width, rfl⟩
  | alone h =>
    obtain ⟨rfl, hnil⟩ := List.cons.inj hcs
    obtain rfl := map_eq_nil_iff.1 hnil
    obtain ⟨hblan, hsgl⟩ := (classes_of_isPlain (isPlain_beforeEquals? h).1).2.1 (by simp [h])
    have hpair := spelling_of_beforeEquals h
    simp only [lexeme, hblan, hsgl, h, nil_append, Bool.false_eq_true, if_false]
    rw [pair_of_head fun x hx hx' => hend x hx (.inl ⟨_, .fixed (hx' ▸ hpair)⟩)]
    exact ⟨r.width, rfl⟩
  | before h =>
    obtain ⟨rfl, hone⟩ := List.cons.inj hcs
    obtain ⟨r1, rfl, hr1⟩ := map_eq_singleton_iff.1 hone
    obtain ⟨hblan, hsgl⟩ := (classes_of_isPlain (isPlain_beforeEquals? h).1).2.1 (by simp [h])
    simp only [lexeme, hblan, hsgl, h, singleton_append, pair, hr1, if_true]
    exact ⟨_, rfl⟩
  | double h =>
    obtain ⟨rfl, hone⟩ := List.cons.inj hcs
    obtain ⟨r1, rfl, hr1⟩ := map_eq_singleton_iff.1 hone
    obtain ⟨hblan, hsgl, hequa⟩ :=
      (classes_of_isPlain (isPlain_doubled? h).1).2.2.1 (by simp [h])
    simp only [lexeme, hblan, hsgl, hequa, h, singleton_append, pair, hr1, if_true]
    exact ⟨_, rfl⟩
  | slash =>
    obtain ⟨hr : r.char = '/', hnil⟩ := List.cons.inj hcs
    obtain rfl := map_eq_nil_iff.1 hnil
    rw [lexeme_of_slash hr, nil_append, slash_of_head]
    · exact ⟨r.width, by rw [one, hr]; rfl⟩
    · exact fun x hx => ⟨fun h => hend x hx (.inr (.inl (h ▸ rfl))),
        fun h => hend x hx (.inr (.inr (h ▸ rfl)))⟩

end

/-! ### The tokens behind -/

/-- The runes are read as these tokens, wherever they stand. -/
def Reads (rs : List Rune) (tokens : List (Kind × String)) : Prop :=
  ∀ file cur, (scanFrom file cur rs).1.map (fun t => (t.kind, t.spelling)) = tokens

section

variable {r : Rune} {rs rest : List Rune} {tokens : List (Kind × String)}

theorem Reads.nil : Reads [] [] := fun file cur => by rw [scanFrom]; rfl

theorem scanFrom_token (h : lexeme cur r rs = .token k s w rest) (file : String) :
    (scanFrom file cur (r :: rs)).1 =
      ⟨k, s, cur.span file w⟩ :: (scanFrom file (cur.skip w) rest).1 := by
  rw [scanFrom]
  split
  all_goals
    rename_i heq
    rw [h] at heq
    cases heq
  rfl

theorem scanFrom_gap {cur after : Cursor} (h : lexeme cur r rs = .gap after rest) (file : String) :
    scanFrom file cur (r :: rs) = scanFrom file after rest := by
  rw [scanFrom]
  split
  all_goals
    rename_i heq
    rw [h] at heq
    cases heq
  rfl

theorem Reads.token {spelling : String} (h : ∀ cur, ∃ w, lexeme cur r rs = .token k spelling w rest)
    (hrest : Reads rest tokens) : Reads (r :: rs) ((k, spelling) :: tokens) := by
  intro file cur
  obtain ⟨w, hw⟩ := h cur
  rw [scanFrom_token hw, map_cons, hrest file (cur.skip w)]

theorem Reads.gap (h : ∀ cur, ∃ after, lexeme cur r rs = .gap after rest)
    (hrest : Reads rest tokens) : Reads (r :: rs) tokens := by
  intro file cur
  obtain ⟨after, haft⟩ := h cur
  rw [scanFrom_gap haft, hrest file after]

theorem Reads.spelled (h : Spelled k s) (hrs : rs.map (·.char) = s.toList)
    (hend : ∀ x ∈ rest.head?, ¬ Starts (s.toList ++ [x.char])) (hrest : Reads rest tokens) :
    Reads (rs ++ rest) ((k, s) :: tokens) := by
  cases rs with
  | nil =>
    have hshp := shape_of_spelled h
    rw [← hrs] at hshp
    cases hshp
  | cons r rs => exact .token (lexeme_of_spelled h hrs hend) hrest

/-! ### Separators -/

theorem skipLine_append {content : List Rune} (h : '\n' ∉ content.map (·.char)) {r : Rune}
    (hr : r.char = '\n') (cur : Cursor) (rest : List Rune) :
    ∃ after, skipLine cur (content ++ r :: rest) = (after, rest) := by
  induction content generalizing cur with
  | nil => exact ⟨cur.step r, if_pos hr⟩
  | cons x content ih =>
    obtain ⟨hx, hcont⟩ := not_or.1 (List.mem_cons.not.1 h)
    rw [cons_append, skipLine, if_neg (Ne.symm hx)]
    exact ih hcont (cur.step x)

theorem skipComment_append {content : List Rune} {star : Bool} {x y : Rune} (hx : x.char = '*')
    (hy : y.char = '/') (h : ¬ ['*', '/'] <:+: inBlock star (content ++ [x])) (cur : Cursor)
    (rest : List Rune) :
    ∃ after, skipComment star cur (content ++ x :: y :: rest) = (true, after, rest) := by
  induction content generalizing star cur with
  | nil => exact ⟨(cur.step x).step y, by simp [skipComment, hx, hy]⟩
  | cons r content ih =>
    rw [cons_append, skipComment]
    split_ifs with hr
    · obtain ⟨rfl, hsl⟩ := Bool.and_eq_true_iff.1 hr
      refine absurd (List.IsPrefix.isInfix ⟨(content ++ [x]).map (·.char), ?_⟩) h
      simp [inBlock, of_decide_eq_true hsl]
    · exact ih (fun hin => h (hin.trans (inBlock_isSuffix star r _).isInfix)) _

theorem Reads.filler {f : List Char} (h : Filler f) (hrs : rs.map (·.char) = f)
    (hrest : Reads rest tokens) : Reads (rs ++ rest) tokens := by
  cases h with
  | blank hblan =>
    obtain ⟨r, rfl, rfl⟩ := map_eq_singleton_iff.1 hrs
    exact .gap (fun cur => ⟨cur.step r, if_pos hblan⟩) hrest
  | line hline =>
    obtain ⟨r, rs, rfl, hr, hrs⟩ := map_eq_cons_iff.1 hrs
    obtain ⟨r1, rs, rfl, hr1, hrs⟩ := map_eq_cons_iff.1 hrs
    obtain ⟨inside, stop, rfl, rfl, hs⟩ := map_eq_append_iff.1 hrs
    obtain ⟨x, rfl, hx⟩ := map_eq_singleton_iff.1 hs
    refine .gap (fun cur => ?_) hrest
    obtain ⟨after, haft⟩ := skipLine_append hline hx ((cur.step r).step r1) rest
    refine ⟨after, (lexeme_of_slash hr cur _).trans ?_⟩
    simp [slash, hr1, haft]
  | block hblk =>
    obtain ⟨r, rs, rfl, hr, hrs⟩ := map_eq_cons_iff.1 hrs
    obtain ⟨r1, rs, rfl, hr1, hrs⟩ := map_eq_cons_iff.1 hrs
    obtain ⟨inside, stop, rfl, rfl, hs⟩ := map_eq_append_iff.1 hrs
    obtain ⟨x, stop, rfl, hx, hs⟩ := map_eq_cons_iff.1 hs
    obtain ⟨y, rfl, hy⟩ := map_eq_singleton_iff.1 hs
    have hclos : ¬ ['*', '/'] <:+: inBlock false (inside ++ [x]) := by
      simpa [inBlock, hx] using hblk
    refine .gap (fun cur => ?_) hrest
    obtain ⟨after, haft⟩ := skipComment_append hx hy hclos ((cur.step r).step r1) rest
    refine ⟨after, (lexeme_of_slash hr cur _).trans ?_⟩
    simp [slash, hr1, haft]

theorem Reads.fillers {fillers : List (List Char)} (h : ∀ f ∈ fillers, Filler f)
    (hrs : rs.map (·.char) = fillers.flatten) (hrest : Reads rest tokens) :
    Reads (rs ++ rest) tokens := by
  induction fillers generalizing rs with
  | nil => rwa [map_eq_nil_iff.1 hrs]
  | cons f fillers ih =>
    obtain ⟨front, back, rfl, hfro, hback⟩ := map_eq_append_iff.1 hrs
    obtain ⟨hf, hfil⟩ := forall_mem_cons.1 h
    rw [append_assoc]
    exact .filler hf hfro (ih hfil hback)

/-- White space makes nothing of a token. -/
theorem not_starts_of_isBlank {c : Char} (h : isBlank c = true) : ¬ Starts (cs ++ [c]) := by
  have hl : ∀ {cs'}, cs ++ [c] = cs' → c ∈ cs' := fun heq => heq ▸ by simp
  rintro (⟨k, hk⟩ | heq | heq)
  · have hfal := (shape_of_spelled hk).not_blank c (by simp)
    rw [h] at hfal
    cases hfal
  · obtain rfl : c = '/' := by simpa using hl heq
    cases h
  · obtain rfl | rfl : c = '/' ∨ c = '*' := by simpa using hl heq
    · cases h
    · cases h

theorem Reads.printed {text : String} (h : Printed tokens text)
    (hrs : rs.map (·.char) = text.toList) : Reads rs tokens := by
  induction h generalizing rs with
  | nil =>
    rw [map_eq_nil_iff.1 hrs]
    exact .nil
  | one h => exact append_nil rs ▸ .spelled h hrs (by simp) .nil
  | cons h hsep _ ih =>
    obtain ⟨c, fillers, hc, hfil, hsep⟩ := hsep
    rw [String.toList_append, String.toList_append, hsep, append_assoc] at hrs
    obtain ⟨front, back, rfl, hfro, hback⟩ := map_eq_append_iff.1 hrs
    obtain ⟨gap, back, rfl, hgap, hmore⟩ := map_eq_append_iff.1 hback
    obtain ⟨r, gap, rfl, rfl, hfill⟩ := map_eq_cons_iff.1 hgap
    have hgap := Reads.fillers hfil hfill (ih hmore)
    refine .spelled h hfro ?_ (.gap (fun cur => ⟨cur.step r, if_pos hc⟩) hgap)
    rintro x hx
    cases hx
    exact not_starts_of_isBlank hc

/-! ### Tokens without a separator -/

/-- A text that starts with a token or a comment starts with a longest such one. -/
theorem Starts.longest (h : Starts cs) (more : List Char) :
    ∃ front back, cs ++ more = front ++ back ∧ cs.length ≤ front.length ∧ Starts front ∧
      ∀ c ∈ back.head?, ¬ Starts (front ++ [c]) := by
  induction more generalizing cs with
  | nil => exact ⟨cs, [], rfl, le_rfl, h, by simp⟩
  | cons c more ih =>
    by_cases hc : Starts (cs ++ [c])
    · obtain ⟨front, back, heq, hlen, hfro⟩ := ih hc
      refine ⟨front, back, by simpa using heq, ?_, hfro⟩
      simp at hlen
      omega
    · exact ⟨cs, c :: more, rfl, le_rfl, h, by simpa using hc⟩

theorem Shape.eq_nil {c : Char} (h : Shape k (c :: cs)) (hc : c = '/' ∨ c = '*') : cs = [] := by
  obtain rfl | rfl := hc <;> cases h <;> first | rfl | contradiction

/-- The kinds and spellings of the tokens of a source, with the token of its end. -/
def words (file : String) (source : List UInt8) : List (Kind × String) :=
  ((scan file source).1 ++ [(scan file source).2]).map fun t => (t.kind, t.spelling)

theorem words_eq_iff {file : String} {source : List UInt8} :
    words file source = tokens ++ [(.eof, "")] ↔
      (scanFrom file ⟨0, 0⟩ (Rune.decode source)).1.map (fun t => (t.kind, t.spelling)) = tokens := by
  simp [words, scan]

/-- A comment that is nothing but opened is at most an invalid token. -/
theorem length_scanFrom_opener {r1 : Rune} (hr : r.char = '/') (hr1 : r1.char = '/' ∨ r1.char = '*')
    (file : String) (cur : Cursor) : (scanFrom file cur [r, r1]).1.length ≤ 1 := by
  obtain hr1 | hr1 := hr1
  · have hlex : lexeme cur r [r1] = .gap ((cur.step r).step r1) [] := by
      simp [lexeme_of_slash hr, slash, hr1, skipLine]
    rw [scanFrom_gap hlex, scanFrom]
    exact Nat.zero_le 1
  · have hlex : lexeme cur r [r1] = .unclosed ((cur.step r).step r1) := by
      simp [lexeme_of_slash hr, slash, hr1, skipComment]
    rw [scanFrom]
    split
    all_goals
      rename_i heq
      rw [hlex] at heq
      cases heq
    exact le_rfl

theorem Spelled.length_pos (h : Spelled k s) : 0 < s.toList.length := by
  cases heq : s.toList with
  | nil => cases heq ▸ shape_of_spelled h
  | cons c cs => exact Nat.succ_pos _

/-- If a token or a comment starts the text of two tokens that is longer than the first, they are
not read. -/
theorem not_scanFrom_of_starts (hs : Spelled k s) (ht : Spelled k' t)
    (hrs : rs.map (·.char) = s.toList ++ t.toList) (heq : s.toList ++ t.toList = front ++ back)
    (hlen : s.toList.length < front.length) (hfro : Starts front)
    (hback : ∀ c ∈ back.head?, ¬ Starts (front ++ [c])) (file : String) (cur : Cursor) :
    (scanFrom file cur rs).1.map (fun t => (t.kind, t.spelling)) ≠ [(k, s), (k', t)] := by
  intro hscan
  obtain ⟨k'', hk''⟩ | hopen := hfro
  · obtain ⟨rs, rest, rfl, rfl, rfl⟩ := map_eq_append_iff.1 (hrs.trans heq)
    obtain _ | ⟨r, rs⟩ := rs
    · exact absurd hlen (Nat.not_lt_zero _)
    have hend : ∀ x ∈ rest.head?, ¬ Starts ((r :: rs).map (·.char) ++ [x.char]) := by
      simpa using hback
    rw [← String.toList_ofList (l := (r :: rs).map (·.char))] at hend
    obtain ⟨w, hw⟩ := lexeme_of_spelled hk'' String.toList_ofList.symm hend cur
    rw [cons_append, scanFrom_token hw] at hscan
    obtain rfl : String.ofList _ = s := congrArg Prod.snd (List.cons.inj hscan).1
    rw [String.toList_ofList] at hlen
    exact lt_irrefl _ hlen
  · -- The first token is a slash, and the second is nothing but the character that opens.
    obtain ⟨c, rfl, hc⟩ : ∃ c, front = ['/', c] ∧ (c = '/' ∨ c = '*') := by
      obtain rfl | rfl := hopen
      · exact ⟨'/', rfl, .inl rfl⟩
      · exact ⟨'*', rfl, .inr rfl⟩
    have hone : s.toList.length = 1 := Nat.le_antisymm (Nat.le_of_lt_succ hlen) hs.length_pos
    obtain ⟨a, ha⟩ := length_eq_one_iff.1 hone
    rw [ha] at heq hrs
    obtain ⟨rfl, hm : t.toList = c :: back⟩ := List.cons.inj heq
    obtain rfl : back = [] := (hm ▸ shape_of_spelled ht).eq_nil hc
    rw [hm] at hrs
    obtain ⟨r, rs, rfl, hr, hrs⟩ := map_eq_cons_iff.1 hrs
    obtain ⟨r1, rfl, rfl⟩ := map_eq_singleton_iff.1 hrs
    have hle := length_scanFrom_opener hr hc file cur
    have htwo := congrArg List.length hscan
    rw [length_map] at htwo
    rw [htwo] at hle
    exact absurd hle (by simp)

end

/-- **Tokens survive printing.** -/
theorem scan_printed (file : String) (source : List UInt8) :
    (∀ tokens, Printed tokens (Rune.text source) → words file source = tokens ++ [(.eof, "")]) ∧
    ∀ k s k' t, Spelled k s → Spelled k' t → Rune.text source = s ++ t →
      (words file source = [(k, s), (k', t), (.eof, "")] ↔
        ∀ u, u ≠ [] → u <+: t.toList → ¬ Starts (s.toList ++ u)) := by
  refine ⟨fun tokens h => words_eq_iff.2 (Reads.printed h String.toList_ofList.symm file _), ?_⟩
  intro k s k' t hs ht htext
  have hchars : (Rune.decode source).map (·.char) = s.toList ++ t.toList := by
    rw [← String.toList_append, ← htext, Rune.text, String.toList_ofList]
  have hwords := @words_eq_iff [(k, s), (k', t)] file source
  refine hwords.trans ⟨?_, ?_⟩
  · rintro hscan u hu ⟨more, hmore⟩ hstarts
    obtain ⟨front, back, heq, hlength, hfront, hback⟩ := hstarts.longest more
    rw [List.append_assoc, hmore] at heq
    rw [List.length_append] at hlength
    have hu := List.length_pos_iff.2 hu
    exact not_scanFrom_of_starts hs ht hchars heq (by omega) hfront hback file _ hscan
  · intro h
    obtain ⟨rs, rest, hdecode, hrs, hrest⟩ := List.map_eq_append_iff.1 hchars
    rw [hdecode]
    refine Reads.spelled hs hrs (fun x hx => ?_) ?_ file _
    · obtain ⟨more, rfl⟩ := List.head?_eq_some_iff.1 hx
      exact h [x.char] (by simp) (hrest ▸ (List.prefix_cons_inj x.char).2 (List.nil_prefix))
    · exact List.append_nil rest ▸ .spelled ht hrest (by simp) .nil

theorem scan_printed_guard :
    words "" [105, 102, 32, 47, 47, 10, 120] = [(.kwIf, "if"), (.id, "x"), (.eof, "")] ∧
      words "" [60, 61] ≠ [(.lt, "<"), (.assign, "="), (.eof, "")] := by
  refine ⟨(scan_printed "" _).1 [(.kwIf, "if"), (.id, "x")] ?_, fun hwords => ?_⟩
  · have htext : Rune.text [105, 102, 32, 47, 47, 10, 120] = "if" ++ " //\n" ++ "x" := by
      decide +kernel
    rw [htext]
    refine .cons (.fixed rfl) ⟨' ', [['/', '/'] ++ [] ++ ['\n']], rfl, ?_, by decide⟩
      (.one (@Spelled.id 'x' [] rfl (by simp) (by decide)))
    exact List.forall_mem_singleton.2 (.line (by simp))
  · have hpair := (scan_printed "" [60, 61]).2 .lt "<" .assign "=" (.fixed rfl) (.fixed rfl)
      (by decide +kernel)
    exact hpair.1 hwords ['='] (by simp) (by decide) (.inl ⟨.le, .fixed rfl⟩)

end MiniJam.Token
