/-!
# Columns of text

Texts are padded with blanks to a least width, counted in characters; a longer text is left as it is.
-/

namespace MiniJam.Text

/-- The text `s` with blanks after it up to `width` characters. -/
def padRight (width : Nat) (s : String) : String :=
  s ++ String.ofList (List.replicate (width - s.length) ' ')

/-- The text `s` with blanks before it up to `width` characters. -/
def padLeft (width : Nat) (s : String) : String :=
  String.ofList (List.replicate (width - s.length) ' ') ++ s

/-- The text `s` without the blanks at its end. -/
def trimBlanks (s : String) : String :=
  String.ofList (s.toList.reverse.dropWhile (· == ' ')).reverse

end MiniJam.Text
