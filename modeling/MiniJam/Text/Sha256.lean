import MiniJam.Text.Bytes

/-!
# SHA-256 digests

The bytes are padded to blocks of 64, and each block changes eight words of 32 bits.  The digest is
these words.
-/

namespace MiniJam.Text.Sha256

/-- The words that a digest is computed with. -/
structure State where
  a : UInt32
  b : UInt32
  c : UInt32
  d : UInt32
  e : UInt32
  f : UInt32
  g : UInt32
  h : UInt32
  deriving DecidableEq, Repr

namespace State

def start : State :=
  ⟨0x6A09E667, 0xBB67AE85, 0x3C6EF372, 0xA54FF53A, 0x510E527F, 0x9B05688C, 0x1F83D9AB, 0x5BE0CD19⟩

def add (s t : State) : State :=
  ⟨s.a + t.a, s.b + t.b, s.c + t.c, s.d + t.d, s.e + t.e, s.f + t.f, s.g + t.g, s.h + t.h⟩

def words (s : State) : List UInt32 := [s.a, s.b, s.c, s.d, s.e, s.f, s.g, s.h]

end State

def constants : List UInt32 :=
  [0x428A2F98, 0x71374491, 0xB5C0FBCF, 0xE9B5DBA5, 0x3956C25B, 0x59F111F1, 0x923F82A4, 0xAB1C5ED5,
    0xD807AA98, 0x12835B01, 0x243185BE, 0x550C7DC3, 0x72BE5D74, 0x80DEB1FE, 0x9BDC06A7, 0xC19BF174,
    0xE49B69C1, 0xEFBE4786, 0x0FC19DC6, 0x240CA1CC, 0x2DE92C6F, 0x4A7484AA, 0x5CB0A9DC, 0x76F988DA,
    0x983E5152, 0xA831C66D, 0xB00327C8, 0xBF597FC7, 0xC6E00BF3, 0xD5A79147, 0x06CA6351, 0x14292967,
    0x27B70A85, 0x2E1B2138, 0x4D2C6DFC, 0x53380D13, 0x650A7354, 0x766A0ABB, 0x81C2C92E, 0x92722C85,
    0xA2BFE8A1, 0xA81A664B, 0xC24B8B70, 0xC76C51A3, 0xD192E819, 0xD6990624, 0xF40E3585, 0x106AA070,
    0x19A4C116, 0x1E376C08, 0x2748774C, 0x34B0BCB5, 0x391C0CB3, 0x4ED8AA4A, 0x5B9CCA4F, 0x682E6FF3,
    0x748F82EE, 0x78A5636F, 0x84C87814, 0x8CC70208, 0x90BEFFFA, 0xA4506CEB, 0xBEF9A3F7, 0xC67178F2]

/-- The bits of a word, moved to the right by `n` places in a circle. -/
def rotate (n x : UInt32) : UInt32 := x >>> n ||| x <<< (32 - n)

/-- The next word of a schedule whose words are given from the last to the first. -/
def nextWord (later : List UInt32) : UInt32 :=
  let w (i : Nat) : UInt32 := later.getD (i - 1) 0
  let s0 := rotate 7 (w 15) ^^^ rotate 18 (w 15) ^^^ w 15 >>> 3
  let s1 := rotate 17 (w 2) ^^^ rotate 19 (w 2) ^^^ w 2 >>> 10
  w 16 + s0 + w 7 + s1

/-- The words of a schedule from the last to the first, with `n` words more. -/
def extend : (n : Nat) → List UInt32 → List UInt32
  | 0, later => later
  | n + 1, later => extend n (nextWord later :: later)

def schedule (block : List UInt8) : List UInt32 :=
  let first := (List.range 16).map fun i =>
    UInt32.ofNat (ofBigEndian ((block.drop (4 * i)).take 4))
  (extend 48 first.reverse).reverse

def round (s : State) (k w : UInt32) : State :=
  let s1 := rotate 6 s.e ^^^ rotate 11 s.e ^^^ rotate 25 s.e
  let choice := (s.e &&& s.f) ^^^ (~~~s.e &&& s.g)
  let t1 := s.h + s1 + choice + k + w
  let s0 := rotate 2 s.a ^^^ rotate 13 s.a ^^^ rotate 22 s.a
  let majority := (s.a &&& s.b) ^^^ (s.a &&& s.c) ^^^ (s.b &&& s.c)
  ⟨t1 + s0 + majority, s.a, s.b, s.c, s.d + t1, s.e, s.f, s.g⟩

def compress (s : State) (block : List UInt8) : State :=
  s.add ((constants.zip (schedule block)).foldl (fun s (k, w) => round s k w) s)

/-- The words after `n` blocks. -/
def compressAll : (n : Nat) → State → List UInt8 → State
  | 0, s, _ => s
  | n + 1, s, bytes => compressAll n (compress s (bytes.take 64)) (bytes.drop 64)

/-- The bytes with a mark behind them, and their number in bits at the end of the last block. -/
def padded (bytes : List UInt8) : List UInt8 :=
  bytes ++ 0x80 :: List.replicate ((119 - bytes.length % 64) % 64) 0 ++
    bigEndian 8 (8 * bytes.length)

def digest (bytes : List UInt8) : List UInt8 :=
  let input := padded bytes
  (compressAll (input.length / 64) .start input).words.flatMap fun w => bigEndian 4 w.toNat

example : digest "abc".toUTF8.toList =
    [0xBA, 0x78, 0x16, 0xBF, 0x8F, 0x01, 0xCF, 0xEA, 0x41, 0x41, 0x40, 0xDE, 0x5D, 0xAE, 0x22, 0x23,
      0xB0, 0x03, 0x61, 0xA3, 0x96, 0x17, 0x7A, 0x9C, 0xB4, 0x10, 0xFF, 0x61, 0xF2, 0x00, 0x15,
      0xAD] := by
  decide +kernel

end MiniJam.Text.Sha256
