import MiniJam.Word

/-!
# Input and output of a machine

A machine reads its input byte by byte and writes its output text by text.  Either may fail: the
input after its last byte, the output when a text would bring it above a limit.
-/

namespace MiniJam

/-- The input that a machine has not read yet. -/
structure Input where
  bytes : List UInt8
  /-- The error met after the last byte, in place of the end of the input. -/
  error : Option String
  deriving Repr

namespace Input

def empty : Input := ⟨[], none⟩

/-- What one read finds. -/
inductive Read where
  | byte (b : UInt8)
  | stop
  | failed (cause : String)
  deriving Repr

def next (i : Input) : Read × Input :=
  match i.bytes with
  | b :: rest => (.byte b, { i with bytes := rest })
  | [] =>
    match i.error with
    | some cause => (.failed cause, i)
    | none => (.stop, i)

/-- Reads the bytes that satisfy `p`, and one more. -/
def nextAfter (p : UInt8 → Bool) (i : Input) : Read × Input :=
  next { i with bytes := i.bytes.dropWhile p }

def isBlank (b : UInt8) : Bool :=
  (9 ≤ b && b ≤ 13) || b == 32 || b == 0x85 || b == 0xA0

def isSign (b : UInt8) : Bool :=
  b == 43 || b == 45

def isDigit (b : UInt8) : Bool :=
  48 ≤ b && b ≤ 57

/-- What reading an integer finds. -/
inductive ReadInt where
  | value (n : Int) (after : Int)
  | tooLarge
  | failed (cause : String)
  deriving Repr

/-- The number whose digits start with those of `n` and go on with the digits of `bytes`, and the
bytes after it, computed with 64 bit integers.  There is no number once it passes `2^31`; the digit
that makes it do so is the last one read. -/
def digits (n : Int) : List UInt8 → Option Int × List UInt8
  | [] => (some n, [])
  | b :: bytes =>
    if isDigit b then
      let n' := wrap64 (n * 10 + (b.toNat - 48))
      if n' > maxWord + 1 then (none, bytes) else digits n' bytes
    else (some n, b :: bytes)

/-- Reads an integer: white space, signs of which the last one counts, digits, and the character
after them.  Without digits the integer is zero. -/
def readInt (i : Input) : ReadInt × Input :=
  let unsigned := i.bytes.dropWhile isBlank
  let negative := (unsigned.takeWhile isSign).getLast? == some 45
  match digits 0 (unsigned.dropWhile isSign) with
  | (none, rest) => (.tooLarge, { i with bytes := rest })
  | (some n, rest) =>
    let value : Int := if negative then -n else n
    match next { i with bytes := rest } with
    | (.byte b, i) => (.value value b.toNat, i)
    | (.stop, i) => (.value value (-1), i)
    | (.failed cause, i) => (.failed cause, i)

end Input

/-- The bounds of an output that can fail. -/
structure OutputLimit where
  /-- The greatest number of bytes that can be written. -/
  bytes : Int
  cause : String
  deriving Repr

/-- The output written so far. -/
structure Output where
  /-- The text since the output was last taken. -/
  text : String
  written : Nat
  /-- The bound on the number of bytes, if there is one. -/
  limit : Option OutputLimit
  deriving Repr

namespace Output

/-- An output without a limit, with nothing written. -/
def empty : Output := ⟨"", 0, none⟩

/-- The error of writing `s`, if that goes beyond the limit. -/
def refuses (o : Output) (s : String) : Option String :=
  match o.limit with
  | some l => if (o.written + s.utf8ByteSize : Int) > l.bytes then some l.cause else none
  | none => none

def append (o : Output) (s : String) : Output :=
  { o with text := o.text ++ s, written := o.written + s.utf8ByteSize }

/-- Writes `s`, or nothing if the limit forbids it. -/
def write (o : Output) (s : String) : Output :=
  match o.refuses s with
  | some _ => o
  | none => o.append s

def taken (o : Output) : Output := { o with text := "" }

end Output

end MiniJam
