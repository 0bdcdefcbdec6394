/-!
# Bytes as characters

Source text is a list of bytes in UTF-8.  A byte that does not start a well-formed character is
read as U+FFFD, one byte wide.
-/

namespace MiniJam.Text

/-- A character of a source and the number of bytes it takes there. -/
structure Rune where
  char : Char
  width : Nat
  deriving DecidableEq, Repr

namespace Rune

def replacement : Char := Char.ofNat 0xFFFD

/-- Whether `b` can go on a character at a place where it lies between `lo` and `hi`. -/
def between (lo hi b : UInt8) : Bool := lo ≤ b && b ≤ hi

/-- Whether `b` can go on a character. -/
def continues (b : UInt8) : Bool := between 0x80 0xBF b

def payload (b : UInt8) : Nat := b.toNat % 64

def second3 (b : UInt8) : UInt8 × UInt8 :=
  if b = 0xE0 then (0xA0, 0xBF) else if b = 0xED then (0x80, 0x9F) else (0x80, 0xBF)

def second4 (b : UInt8) : UInt8 × UInt8 :=
  if b = 0xF0 then (0x90, 0xBF) else if b = 0xF4 then (0x80, 0x8F) else (0x80, 0xBF)

/-- The character that starts with the byte `b` and goes on with the bytes after it. -/
def first (b : UInt8) (rest : List UInt8) : Rune :=
  let invalid : Rune := ⟨replacement, 1⟩
  if b < 0x80 then ⟨Char.ofNat b.toNat, 1⟩
  else if between 0xC2 0xDF b then
    match rest with
    | b1 :: _ =>
      if continues b1 then ⟨Char.ofNat (b.toNat % 32 * 64 + payload b1), 2⟩ else invalid
    | _ => invalid
  else if between 0xE0 0xEF b then
    match rest with
    | b1 :: b2 :: _ =>
      if between (second3 b).1 (second3 b).2 b1 && continues b2 then
        ⟨Char.ofNat ((b.toNat % 16 * 64 + payload b1) * 64 + payload b2), 3⟩
      else invalid
    | _ => invalid
  else if between 0xF0 0xF4 b then
    match rest with
    | b1 :: b2 :: b3 :: _ =>
      if between (second4 b).1 (second4 b).2 b1 && continues b2 && continues b3 then
        ⟨Char.ofNat (((b.toNat % 8 * 64 + payload b1) * 64 + payload b2) * 64 + payload b3), 4⟩
      else invalid
    | _ => invalid
  else invalid

def decode : List UInt8 → List Rune
  | [] => []
  | b :: rest =>
    let r := first b rest
    r :: decode (rest.drop (r.width - 1))
termination_by bytes => bytes.length
decreasing_by simp only [List.length_drop, List.length_cons]; omega

def text (bytes : List UInt8) : String :=
  String.ofList ((decode bytes).map (·.char))

end Rune

end MiniJam.Text
