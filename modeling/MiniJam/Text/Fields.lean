import MiniJam.Text.Blank

/-!
# Words and lines of a text
-/

namespace MiniJam.Text

/-- The words of a list of characters, of which the characters `word` were read in reverse. -/
def fieldsFrom (word : List Char) : List Char → List String
  | [] => if word.isEmpty then [] else [String.ofList word.reverse]
  | c :: cs =>
    if isBlank c then
      if word.isEmpty then fieldsFrom [] cs else String.ofList word.reverse :: fieldsFrom [] cs
    else fieldsFrom (c :: word) cs

def fields (s : String) : List String := fieldsFrom [] s.toList

/-- The text without the white space at its ends. -/
def trim (s : String) : String :=
  String.ofList ((s.toList.dropWhile isBlank).reverse.dropWhile isBlank).reverse

/-- The parts of bytes between line ends, of which the bytes `part` were read in reverse. -/
def splitLinesFrom (part : List UInt8) : List UInt8 → List (List UInt8)
  | [] => [part.reverse]
  | b :: bs => if b = 10 then part.reverse :: splitLinesFrom [] bs else splitLinesFrom (b :: part) bs

/-- The lines of bytes; the last one need not have a line end. -/
def lines (bytes : List UInt8) : List (List UInt8) :=
  let parts := splitLinesFrom [] bytes
  if parts.getLast? = some [] then parts.dropLast else parts

end MiniJam.Text
