import MiniJam.Object
import MiniJam.Text.Bytes
import MiniJam.Word

/-!
# Programs as bytes

An object file holds the instructions of a program and nothing else: each takes sixteen bytes, the
words of its operation, length field, register and displacement.
-/

namespace MiniJam

/-- A place that bytes are written to; beyond a limit writing fails with a message. -/
structure Sink where
  written : Array UInt8
  /-- The number of bytes that fit and what is said about the first write beyond them. -/
  limit : Option (Int × String)

namespace Sink

def unlimited : Sink := ⟨#[], none⟩

def write (s : Sink) (bytes : List UInt8) : Except String Sink :=
  match s.limit with
  | none => .ok { s with written := s.written ++ bytes }
  | some (n, message) =>
    if n < s.written.size + bytes.length then .error message
    else .ok { s with written := s.written ++ bytes }

end Sink

namespace Program

def instrBytes : Nat := 16

/-- Why a program could not be written. -/
inductive EncodeError where
  | lengthField (addr : Nat) (i : Instr)
  | displacement (addr : Nat) (i : Instr)
  | write (addr : Nat) (message : String)
  deriving DecidableEq, Repr

def EncodeError.message : EncodeError → String
  | lengthField addr i => s!"instruction {addr} {i.text}: length field {i.n} out of range"
  | displacement addr i => s!"instruction {addr} {i.text}: displacement out of range"
  | write addr message => s!"writing instruction {addr}: {message}"

/-- Why bytes are no program. -/
inductive DecodeError where
  | truncated (trailing whole : Nat)
  | read (whole : Nat) (message : String)
  deriving DecidableEq, Repr

def DecodeError.message : DecodeError → String
  | truncated trailing whole =>
    s!"{trailing} trailing bytes after instruction {whole}: object file ends inside an instruction"
  | read whole message => s!"reading instruction {whole}: {message}"

def encodeWord (n : Int) : List UInt8 := Text.bigEndian 4 (n % wordCount).toNat

def decodeWord (bytes : List UInt8) : Int := Int.bmod (Text.ofBigEndian bytes) wordCount

def encodeInstr (i : Instr) : List UInt8 :=
  encodeWord i.op ++ encodeWord i.n ++ encodeWord i.r ++ encodeWord i.d

def decodeInstr (bytes : List UInt8) : Instr :=
  ⟨decodeWord (bytes.take 4), decodeWord ((bytes.drop 4).take 4),
    decodeWord ((bytes.drop 8).take 4), decodeWord ((bytes.drop 12).take 4)⟩

/-- Writes instructions to a sink, the first of which has the address `addr`.  What was written
before a failure stays written. -/
def writeFrom (addr : Nat) (sink : Sink) : List Instr → Sink × Option EncodeError
  | [] => (sink, none)
  | i :: rest =>
    if i.n < 0 ∨ 255 < i.n then (sink, some (.lengthField addr i))
    else if i.d < minWord ∨ maxWord < i.d then (sink, some (.displacement addr i))
    else
      match sink.write (encodeInstr i) with
      | .error message => (sink, some (.write addr message))
      | .ok sink => writeFrom (addr + 1) sink rest

def write (p : Program) (sink : Sink) : Sink × Option EncodeError :=
  writeFrom 0 sink p.toList

def encode (p : Program) : Except EncodeError (List UInt8) :=
  match write p .unlimited with
  | (sink, none) => .ok sink.written.toList
  | (_, some e) => .error e

def decodeWhole (bytes : List UInt8) : List Instr :=
  if instrBytes ≤ bytes.length then
    decodeInstr (bytes.take instrBytes) :: decodeWhole (bytes.drop instrBytes)
  else []
termination_by bytes.length
decreasing_by simp only [List.length_drop, instrBytes] at *; omega

def decode (bytes : List UInt8) (failure : Option String) : Except DecodeError Program :=
  let whole := bytes.length / instrBytes
  match failure with
  | some message => .error (.read whole message)
  | none =>
    if bytes.length % instrBytes ≠ 0 then
      .error (.truncated (bytes.length % instrBytes) whole)
    else .ok (decodeWhole bytes).toArray

end Program

end MiniJam
