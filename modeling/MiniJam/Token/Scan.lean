import MiniJam.Text.Blank
import MiniJam.Text.Rune
import MiniJam.Token
import MiniJam.Total

/-!
# Reading tokens

`Token.scan` splits a source into its tokens.  White space and comments separate tokens and are
left out; a token is the longest one that can be read at its place.
-/

namespace MiniJam

/-- A place between two characters of a source. -/
structure Cursor where
  /-- The line, counted from zero. -/
  line : Nat
  /-- The number of bytes before the place on its line. -/
  col : Nat
  deriving DecidableEq, Repr

namespace Cursor

def step (c : Cursor) (r : Text.Rune) : Cursor :=
  if r.char = '\n' then ⟨c.line + 1, 0⟩ else ⟨c.line, c.col + r.width⟩

/-- The place `n` bytes further on the same line. -/
def skip (c : Cursor) (n : Nat) : Cursor := ⟨c.line, c.col + n⟩

/-- The span of the `width` bytes after a place. -/
def span (c : Cursor) (file : String) (width : Nat) : Span :=
  ⟨file, c.line, c.col, (c.col : Int) + width - 1⟩

end Cursor

namespace Token

open Text

def isLetter (c : Char) : Bool :=
  ('a' ≤ c && c ≤ 'z') || ('A' ≤ c && c ≤ 'Z')

def isDigit (c : Char) : Bool := '0' ≤ c && c ≤ '9'

def isWordChar (c : Char) : Bool := isLetter c || isDigit c || c = '_'

def single? : Char → Option Kind
  | '(' => some .lparen | ')' => some .rparen | '[' => some .lsquare | ']' => some .rsquare
  | ';' => some .semicolon | ',' => some .comma | '.' => some .dot
  | '+' => some .plus | '-' => some .minus | '*' => some .mul
  | c =>
    if c = Char.ofNat 0x7B then some .lcurly
    else if c = Char.ofNat 0x7D then some .rcurly
    else none

/-- The characters that make a token alone and another one before `=`: that one and the one
alone. -/
def beforeEquals? : Char → Option (Kind × Kind)
  | '=' => some (.eq, .assign)
  | '<' => some (.le, .lt)
  | '>' => some (.ge, .gt)
  | '!' => some (.ne, .not)
  | _ => none

/-- The characters that make a token only when they are doubled. -/
def doubled? : Char → Option Kind
  | '&' => some .and
  | '|' => some .or
  | _ => none

def skipLine (cur : Cursor) : List Rune → Cursor × List Rune
  | [] => (cur, [])
  | r :: rest => if r.char = '\n' then (cur.step r, rest) else skipLine (cur.step r) rest

/-- Goes to the character after the next `*/`, or to the end if there is none; `star` tells whether
the character before was a star.  The answer tells whether there was one. -/
def skipComment (star : Bool) (cur : Cursor) : List Rune → Bool × Cursor × List Rune
  | [] => (false, cur, [])
  | r :: rest =>
    if star && r.char = '/' then (true, cur.step r, rest)
    else skipComment (r.char = '*') (cur.step r) rest

theorem length_skipLine (cur : Cursor) (rs : List Rune) :
    (skipLine cur rs).2.length ≤ rs.length := by
  induction rs generalizing cur with
  | nil => simp [skipLine]
  | cons r rest ih =>
    rw [skipLine]
    split
    · simp
    · exact Nat.le_trans (ih _) (by simp)

theorem length_skipComment (star : Bool) (cur : Cursor) (rs : List Rune) :
    (skipComment star cur rs).2.2.length ≤ rs.length := by
  induction rs generalizing star cur with
  | nil => simp [skipComment]
  | cons r rest ih =>
    rw [skipComment]
    split
    · simp
    · exact Nat.le_trans (ih _ _) (by simp)

theorem length_dropWhile (p : Rune → Bool) (rs : List Rune) :
    (rs.dropWhile p).length ≤ rs.length := by
  induction rs with
  | nil => simp
  | cons r rest ih =>
    rw [List.dropWhile_cons]
    split
    · exact Nat.le_trans ih (by simp)
    · simp

def unexpected (c : Char) : String := "Unexpected input: " ++ quoteChar c

/-- What stands at the front of a source. -/
inductive Lexeme where
  /-- White space or a comment, up to the place `after`. -/
  | gap (after : Cursor) (rest : List Rune)
  /-- A token of `width` bytes, or a character that starts none. -/
  | token (kind : Kind) (spelling : String) (width : Nat) (rest : List Rune)
  /-- A comment without end, up to the end of the source. -/
  | unclosed (stop : Cursor)

def Lexeme.rest : Lexeme → List Rune
  | gap _ rest => rest
  | token _ _ _ rest => rest
  | unclosed _ => []

def one (kind : Kind) (r : Rune) (rest : List Rune) : Lexeme :=
  .token kind (String.singleton r.char) r.width rest

def stray (r : Rune) (rest : List Rune) : Lexeme :=
  .token .invalid (unexpected r.char) r.width rest

/-- A token of two characters if the second is `c`, and else a lexeme of one. -/
def pair (c : Char) (two : Kind) (r : Rune) (rest : List Rune)
    (alone : Rune → List Rune → Lexeme) : Lexeme :=
  match rest with
  | r1 :: rest1 =>
    if r1.char = c then .token two (String.ofList [r.char, c]) (r.width + r1.width) rest1
    else alone r rest
  | [] => alone r []

def slash (cur : Cursor) (r : Rune) (rest : List Rune) : Lexeme :=
  match rest with
  | r1 :: rest1 =>
    let inside := (cur.step r).step r1
    if r1.char = '/' then .gap (skipLine inside rest1).1 (skipLine inside rest1).2
    else if r1.char = '*' then
      match skipComment false inside rest1 with
      | (true, after, rest) => .gap after rest
      | (false, stop, _) => .unclosed stop
    else one .div r rest
  | [] => one .div r []

/-- A token that goes on as long as its characters satisfy `p`. -/
def run (p : Char → Bool) (kind : String → Kind) (r : Rune) (rest : List Rune) : Lexeme :=
  let runes := r :: rest.takeWhile (p ·.char)
  let spelling := String.ofList (runes.map (·.char))
  .token (kind spelling) spelling (total (runes.map (·.width))) (rest.dropWhile (p ·.char))

def lexeme (cur : Cursor) (r : Rune) (rest : List Rune) : Lexeme :=
  if isBlank r.char then .gap (cur.step r) rest
  else match single? r.char, beforeEquals? r.char, doubled? r.char with
  | some kind, _, _ => one kind r rest
  | _, some (two, alone), _ => pair '=' two r rest (one alone)
  | _, _, some two => pair r.char two r rest stray
  | none, none, none =>
    if r.char = '/' then slash cur r rest
    else if isDigit r.char then run isDigit (fun _ => .num) r rest
    else if isLetter r.char then run isWordChar Kind.ofWord r rest
    else stray r rest

theorem length_pair (c : Char) (two : Kind) (r : Rune) (rest : List Rune)
    (alone : Rune → List Rune → Lexeme) (h : ∀ rest, (alone r rest).rest = rest) :
    (pair c two r rest alone).rest.length ≤ rest.length := by
  unfold pair
  split
  · split
    · simp [Lexeme.rest]
    · simp [h]
  · simp [h]

theorem length_slash (cur : Cursor) (r : Rune) (rest : List Rune) :
    (slash cur r rest).rest.length ≤ rest.length := by
  unfold slash
  split
  · rename_i r1 rest1
    simp only []
    split
    · exact Nat.le_trans (length_skipLine _ rest1) (by simp)
    · split
      · have h := length_skipComment false ((cur.step r).step r1) rest1
        split
        · rename_i e
          rw [e] at h
          exact Nat.le_trans h (by simp)
        · simp [Lexeme.rest]
      · simp [one, Lexeme.rest]
  · simp [one, Lexeme.rest]

theorem length_lexeme (cur : Cursor) (r : Rune) (rest : List Rune) :
    (lexeme cur r rest).rest.length ≤ rest.length := by
  unfold lexeme
  split
  · simp [Lexeme.rest]
  split
  · simp [one, Lexeme.rest]
  · exact length_pair _ _ _ _ _ fun _ => rfl
  · exact length_pair _ _ _ _ _ fun _ => rfl
  · split
    · exact length_slash cur r rest
    · split
      · exact length_dropWhile _ rest
      · split
        · exact length_dropWhile _ rest
        · simp [stray, Lexeme.rest]

/-- The tokens of a source from a place on, without the end of the source, and the place of that
end. -/
def scanFrom (file : String) (cur : Cursor) : List Rune → List Token × Cursor
  | [] => ([], cur)
  | r :: rest =>
    match _h : lexeme cur r rest with
    | .gap after rest' => scanFrom file after rest'
    | .token kind spelling width rest' =>
      let (tokens, stop) := scanFrom file (cur.skip width) rest'
      (⟨kind, spelling, cur.span file width⟩ :: tokens, stop)
    | .unclosed stop => ([⟨.invalid, "Unterminated comment", stop.span file 0⟩], stop)
termination_by rs => rs.length
decreasing_by
  all_goals
    have := length_lexeme cur r rest
    rw [_h] at this
    simp only [Lexeme.rest] at this
    simp only [List.length_cons]
    omega

/-- The tokens of a source: those before its end, and the token of the end. -/
def scan (file : String) (source : List UInt8) : List Token × Token :=
  let (tokens, cur) := scanFrom file ⟨0, 0⟩ (Rune.decode source)
  (tokens, ⟨.eof, "", cur.span file 1⟩)

def afterEnd (eof : Token) : Token :=
  { eof with span := { eof.span with start := eof.span.start + 1 } }

end Token

end MiniJam
