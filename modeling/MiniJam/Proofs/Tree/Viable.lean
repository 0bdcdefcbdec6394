import MiniJam.Proofs.Tree.Complete

/-!
# Where a source stops being readable

A list of tokens is viable if some sentence of the grammar begins with it.  Reading fails at the first
token with which the tokens of the source stop being viable, and what is reported has the place of that
token.

That the tokens before it are viable is part of how the readers follow the grammar, and so is that
reading fails in the same way whatever comes after the token.  Since every sentence is read, none can
begin in this way.
-/

namespace MiniJam

open List

namespace Package

def Viable (file : String) (ts : List Token) : Prop := ∃ p us, Derives file p (ts ++ us)

/-- A token, behind the tokens `pre`, is the first one among all tokens that does not fit. -/
structure Offends (file : String) (all pre : List Token) (t : Token) : Prop where
  isPrefix : pre ++ [t] <+: all
  viable : Viable file pre
  not_viable : ¬ Viable file (pre ++ [t])

variable {file : String}

theorem Viable.of_isPrefix (h : Viable file us) (hts : ts <+: us) : Viable file ts := by
  obtain ⟨vs, rfl⟩ := hts
  obtain ⟨p, ws, hp⟩ := h
  exact ⟨p, vs ++ ws, by rwa [← append_assoc]⟩

theorem Viable.allValid (h : Viable file ts) : Token.AllValid ts := by
  obtain ⟨p, us, hp⟩ := h
  exact fun t ht => hp.allValid t (mem_append_left us ht)

theorem Offends.unique {all pre pre' : List Token} (h : Offends file all pre t)
    (h' : Offends file all pre' t') : pre' = pre ∧ t' = t := by
  -- If one of them stood before the other, the tokens before the other would not be viable.
  have key : ∀ {ts us : List Token} {a b : Token}, ¬ Viable file (ts ++ [a]) → Viable file us →
      ts ++ [a] <+: us ++ [b] → us ++ [b] = ts ++ [a] := by
    intro ts us a b ha hus hle
    obtain heq | hle := prefix_concat_iff.1 hle
    · exact heq.symm
    · exact absurd (hus.of_isPrefix hle) ha
  have heq : pre' ++ [t'] = pre ++ [t] := by
    obtain hle | hle := prefix_or_prefix_of_prefix h.isPrefix h'.isPrefix
    · exact key h.not_viable h'.viable hle
    · exact (key h'.not_viable h.viable hle).symm
  obtain ⟨hpre, ht⟩ := append_inj' heq rfl
  exact ⟨hpre, singleton_inj.1 ht⟩

/-- The classes of a sentence are read, whatever token stands for the end. -/
theorem classes_ne_error {eof : Token} (heof : eof.kind = .eof) (h : ClassDecl.DerivesList cs ts)
    (d : Diagnostic) : Tree.Parse.classes eof ts ≠ .error d := by
  obtain ⟨cs', hcs, hnear⟩ := h.exists_nearest
  rw [Tree.Parse.classes_of_derives heof hcs hnear]
  exact nofun

/-- If classes cannot be read whatever comes after a token, then the token does not fit. -/
theorem not_viable_of_refused {eof : Token} (heof : eof.kind = .eof) {pre rest : List Token}
    (hrest : ∀ t ∈ rest, t.kind ≠ .eof) {d : Diagnostic}
    (h : ∀ rest', Tree.Parse.SameHead rest rest' →
      Tree.Parse.classes eof (pre ++ rest') = .error d) :
    ¬ Viable file (pre ++ [Tree.Parse.current eof rest]) := by
  rintro ⟨p, us, hp⟩
  generalize hall : pre ++ [Tree.Parse.current eof rest] ++ us = all at hp
  obtain @⟨cs, ts, e, hcs, he⟩ := hp
  obtain rfl | ⟨us, e', rfl⟩ := eq_nil_or_concat us
  · -- The sentence ends with the token, which therefore is the end.
    rw [append_nil] at hall
    obtain ⟨rfl, hlast⟩ := append_inj' hall rfl
    cases rest with
    | nil =>
      have herr := h [] rfl
      rw [append_nil] at herr
      exact classes_ne_error heof hcs d herr
    | cons t rest =>
      obtain rfl : t = e := singleton_inj.1 hlast
      exact hrest t mem_cons_self he
  · -- The token is one of those of the classes, and it is not the end.
    have hall' : pre ++ Tree.Parse.current eof rest :: us ++ [e'] = ts ++ [e] := by simpa using hall
    obtain ⟨rfl, -⟩ := append_inj' hall' rfl
    cases rest with
    | nil =>
      have hwr := hcs.allWritten eof (mem_append_right pre mem_cons_self)
      exact hwr.2 heof
    | cons t rest => exact classes_ne_error heof hcs d (h (t :: us) rfl)

/-- A source that cannot be read is refused at the first token that does not fit, and the one
diagnostic has the place of this token.  If the token is an invalid one, then the message is what is
wrong with it; the tokens before are all valid. -/
theorem parse_error_at_offending {source : List UInt8} {d : Diagnostic}
    (h : parse file source = .error d) :
    ∃ pre t, Offends file (tokens file source) pre t ∧ Token.AllValid pre ∧
      d.span = some t.span ∧ (t.kind = .invalid → d.message = t.spelling) ∧
      ∀ pre' t', Offends file (tokens file source) pre' t' → pre' = pre ∧ t' = t := by
  have heof : (Token.scan file source).2.kind = .eof := rfl
  have hts : ∀ t ∈ (Token.scan file source).1, t.kind ≠ .eof :=
    Token.scanFrom_kind_ne_eof file _ _
  have hclasses : Tree.Parse.classes (Token.scan file source).2 (Token.scan file source).1 =
      .error d := by
    have hparse : parse file source =
        (Tree.Parse.classes (Token.scan file source).2 (Token.scan file source).1).map
          (⟨file, ·, none, none⟩) := rfl
    rw [hparse] at h
    cases hcs : Tree.Parse.classes (Token.scan file source).2 (Token.scan file source).1 with
    | ok cs => rw [hcs] at h; cases h
    | error e => rw [hcs] at h; cases h; rfl
  obtain ⟨pre, rest, hsplit, hd, ⟨cs, vs, hcs⟩, hsame⟩ := Tree.Parse.classes_eq_error heof hclasses
  have hoffends : Offends file (tokens file source) pre
      (Tree.Parse.current (Token.scan file source).2 rest) := by
    refine ⟨?_, ⟨⟨file, cs, none, none⟩, vs ++ [(Token.scan file source).2], ?_⟩, ?_⟩
    · rw [tokens, hsplit]
      cases rest with
      | nil => exact ⟨[], by simp [Tree.Parse.current]⟩
      | cons t rest => exact ⟨rest ++ [(Token.scan file source).2], by simp [Tree.Parse.current]⟩
    · rw [← List.append_assoc]
      exact .mk hcs heof
    · refine not_viable_of_refused heof (fun t ht => hts t ?_) hsame
      exact hsplit ▸ List.mem_append_right pre ht
  exact ⟨pre, _, hoffends, hoffends.viable.allValid, hd.span, hd.invalid,
    fun pre' t' h' => hoffends.unique h'⟩

/-- A source with a field that is given a value, which the grammar does not have. -/
def initialisesField : List UInt8 := "class M { int x = 1; }".toUTF8.toList

/-- The source cannot be read, and it is refused at the first token that does not fit. -/
theorem parse_error_at_offending_initialisesField : ∃ d pre t,
    parse "M" initialisesField = .error d ∧ Offends "M" (tokens "M" initialisesField) pre t ∧
      d.span = some t.span := by
  have hfails : (parse "M" initialisesField).toOption.isNone = true := by decide +kernel
  cases hd : parse "M" initialisesField with
  | ok p =>
    rw [hd] at hfails
    cases hfails
  | error d =>
    obtain ⟨pre, t, hoffends, -, hspan, -⟩ := parse_error_at_offending hd
    exact ⟨d, pre, t, rfl, hoffends, hspan⟩

end Package

end MiniJam
