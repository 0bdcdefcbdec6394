import MiniJam.Text.Bytes

/-!
# Concise binary objects

Data items of the CBOR format: numbers, byte and text strings, arrays, maps, tagged items and simple
values.  `encode` writes the shortest form of every length and number; `decode` also takes the
longer ones and strings, arrays and maps that end with a break instead of giving their length.
-/

namespace MiniJam.Text

/-- A data item. -/
inductive Cbor where
  | nonneg (n : Nat)
  | negative (n : Nat)
  | bytes (content : List UInt8)
  | text (chunks : List (List UInt8))
  | array (items : List Cbor)
  /-- A map: a key and its value, the next key and its value, and so on. -/
  | map (items : List Cbor)
  | tag (number : Nat) (content : Cbor)
  | simple (value : Nat)
  | float (content : List UInt8)

namespace Cbor

def null : Cbor := simple 22

def ofString (s : String) : Cbor := text [s.toUTF8.toList]

def ofInt (n : Int) : Cbor :=
  if 0 ≤ n then nonneg n.toNat else negative (-1 - n).toNat

/-- The first byte of an item: its major type and five bits that give, or say how to find, its
argument. -/
def leadByte (major info : Nat) : UInt8 := UInt8.ofNat (major * 32 + info)

def encodeHead (major n : Nat) : List UInt8 :=
  if n < 24 then [leadByte major n]
  else if n < 256 then leadByte major 24 :: bigEndian 1 n
  else if n < 65536 then leadByte major 25 :: bigEndian 2 n
  else if n < 4294967296 then leadByte major 26 :: bigEndian 4 n
  else leadByte major 27 :: bigEndian 8 n

mutual

def encode : Cbor → List UInt8
  | nonneg n => encodeHead 0 n
  | negative n => encodeHead 1 n
  | bytes content => encodeHead 2 content.length ++ content
  | text chunks => encodeHead 3 chunks.flatten.length ++ chunks.flatten
  | array items => encodeHead 4 items.length ++ encodeItems items
  | map items => encodeHead 5 (items.length / 2) ++ encodeItems items
  | tag number content => encodeHead 6 number ++ content.encode
  | simple value => encodeHead 7 value
  | float content =>
    leadByte 7 (if content.length = 2 then 25 else if content.length = 4 then 26 else 27) :: content

def encodeItems : List Cbor → List UInt8
  | [] => []
  | item :: items => item.encode ++ encodeItems items

end

/-- What was read from the front of `n` bytes, with less than `n` bytes left. -/
structure Part (α : Type) (n : Nat) where
  value : α
  rest : List UInt8
  shorter : rest.length < n

/-- The head of an item. -/
structure Head where
  major : Nat
  info : Nat
  argument : Nat

/-- The `info` of a string, array or map that ends with a break. -/
def indefinite : Nat := 31

/-- The byte that ends an item without a length. -/
def breakByte : UInt8 := 255

/-- The number of bytes that an argument takes which does not fit into `info` itself. -/
def argumentBytes (info : Nat) : Nat :=
  if info = 24 then 1 else if info = 25 then 2 else if info = 26 then 4 else 8

def head? (bs : List UInt8) : Option (Part Head bs.length) :=
  match bs with
  | [] => none
  | b :: bs =>
    let major := b.toNat / 32
    let info := b.toNat % 32
    if info < 24 then some ⟨⟨major, info, info⟩, bs, by simp⟩
    else if info < 28 then
      let k := argumentBytes info
      let argument := ofBigEndian (bs.take k)
      if bs.length < k then none
      else if major = 7 ∧ info = 24 ∧ argument < 32 then none
      else some ⟨⟨major, info, argument⟩, bs.drop k, Nat.lt_succ_of_le (by simp)⟩
    else if info = indefinite ∧ 2 ≤ major ∧ major ≤ 5 then some ⟨⟨major, info, 0⟩, bs, by simp⟩
    else none

/-- Reads the chunks of a string up to its break; each has the major type of the string and a
length. -/
def chunks? (major : Nat) (bs : List UInt8) : Option (Part (List (List UInt8)) bs.length) :=
  match bs with
  | [] => none
  | b :: rest =>
    if b = breakByte then some ⟨[], rest, by simp⟩
    else
      match head? (b :: rest) with
      | none => none
      | some ⟨h, content, hc⟩ =>
        if h.major ≠ major ∨ h.info = indefinite ∨ content.length < h.argument then none
        else
          match chunks? major (content.drop h.argument) with
          | none => none
          | some ⟨more, left, hl⟩ =>
            some ⟨content.take h.argument :: more, left, by
              rw [List.length_drop] at hl; omega⟩
termination_by bs.length
decreasing_by rw [List.length_drop]; omega

def string? (h : Head) (bs : List UInt8) : Option (List (List UInt8) × { r : List UInt8 // r.length ≤ bs.length }) :=
  if h.info = indefinite then
    (chunks? h.major bs).map fun p => (p.value, ⟨p.rest, by have := p.shorter; omega⟩)
  else if bs.length < h.argument then none
  else some ([bs.take h.argument], ⟨bs.drop h.argument, by simp⟩)

def maxLevels : Nat := 32

mutual

/-- Reads an item inside which others lie at most `levels` deep. -/
def item? (levels : Nat) (bs : List UInt8) : Option (Part Cbor bs.length) :=
  match head? bs with
  | none => none
  | some ⟨h, rest, hr⟩ =>
    match h.major with
    | 0 => some ⟨nonneg h.argument, rest, hr⟩
    | 1 => some ⟨negative h.argument, rest, hr⟩
    | 2 =>
      match string? h rest with
      | none => none
      | some (chunks, left) => some ⟨bytes chunks.flatten, left, by have := left.2; omega⟩
    | 3 =>
      match string? h rest with
      | none => none
      | some (chunks, left) => some ⟨text chunks, left, by have := left.2; omega⟩
    | 4 =>
      match levels with
      | 0 => none
      | levels + 1 =>
        match if h.info = indefinite then open? levels rest else items? levels h.argument rest with
        | none => none
        | some (items, left) => some ⟨array items, left, by have := left.2; omega⟩
    | 5 =>
      match levels with
      | 0 => none
      | levels + 1 =>
        match if h.info = indefinite then open? levels rest
            else items? levels (2 * h.argument) rest with
        | none => none
        | some (items, left) =>
          if items.length % 2 = 1 then none
          else some ⟨map items, left, by have := left.2; omega⟩
    | 6 =>
      match tagged? levels rest with
      | none => none
      | some ⟨content, left, hl⟩ => some ⟨tag h.argument content, left, by omega⟩
    | _ =>
      if 25 ≤ h.info then
        let k := argumentBytes h.info
        some ⟨float (bigEndian k h.argument), rest, hr⟩
      else some ⟨simple h.argument, rest, hr⟩
termination_by (bs.length, 0)

/-- Reads the item behind a tag; a tag behind a tag lies one level deeper. -/
def tagged? (levels : Nat) (bs : List UInt8) : Option (Part Cbor bs.length) :=
  match bs with
  | [] => none
  | b :: rest =>
    if b.toNat / 32 = 6 then
      match levels with
      | 0 => none
      | levels + 1 => item? levels (b :: rest)
    else item? levels (b :: rest)
termination_by (bs.length, 1)

def items? (levels n : Nat) (bs : List UInt8) :
    Option (List Cbor × { r : List UInt8 // r.length ≤ bs.length }) :=
  match n with
  | 0 => some ([], ⟨bs, Nat.le_refl _⟩)
  | n + 1 =>
    match item? levels bs with
    | none => none
    | some ⟨item, rest, hr⟩ =>
      match items? levels n rest with
      | none => none
      | some (items, left) => some (item :: items, ⟨left, by have := left.2; omega⟩)
termination_by (bs.length, 1)

def open? (levels : Nat) (bs : List UInt8) :
    Option (List Cbor × { r : List UInt8 // r.length ≤ bs.length }) :=
  match bs with
  | [] => none
  | b :: rest =>
    if b = breakByte then some ([], ⟨rest, by simp⟩)
    else
      match item? levels (b :: rest) with
      | none => none
      | some ⟨item, rest, hr⟩ =>
        match open? levels rest with
        | none => none
        | some (items, left) => some (item :: items, ⟨left, by have := left.2; omega⟩)
termination_by (bs.length, 1)

end

def decode (bs : List UInt8) : Option Cbor :=
  match item? maxLevels bs with
  | some ⟨item, [], _⟩ => some item
  | _ => none

end Cbor

end MiniJam.Text
