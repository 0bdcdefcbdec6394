import MiniJam.Span
import MiniJam.Text.Quoted

/-!
# Tokens

A token is a word of a program: an identifier, a number, a keyword, a piece of punctuation or an
operator.  What is none of these becomes an invalid token, whose spelling says what is wrong, and
the end of the source is a token of its own.
-/

namespace MiniJam

/-- The kinds of tokens. -/
inductive Kind where
  | invalid | eof | id | num
  | kwClass | kwPublic | kwPrivate | kwStatic | kwVoid | kwInt | kwBoolean | kwThis | kwIf | kwElse
  | kwWhile | kwReturn | kwNew | kwTrue | kwFalse
  | lcurly | rcurly | lparen | rparen | lsquare | rsquare | semicolon | comma | dot
  | assign | or | and | eq | ne | lt | le | gt | ge | plus | minus | mul | div | not
  deriving DecidableEq, Repr

namespace Kind

def names : Array (Kind × String) :=
  #[(invalid, "INVALID"), (eof, "EOF"), (id, "ID"), (num, "NUM"), (kwClass, "CLASS"),
    (kwPublic, "PUBLIC"), (kwPrivate, "PRIVATE"), (kwStatic, "STATIC"), (kwVoid, "VOID"),
    (kwInt, "INT"), (kwBoolean, "BOOLEAN"), (kwThis, "THIS"), (kwIf, "IF"), (kwElse, "ELSE"),
    (kwWhile, "WHILE"), (kwReturn, "RETURN"), (kwNew, "NEW"), (kwTrue, "TRUE"),
    (kwFalse, "FALSE"), (lcurly, "LCURLY"), (rcurly, "RCURLY"), (lparen, "LPAREN"),
    (rparen, "RPAREN"), (lsquare, "LSQUARE"), (rsquare, "RSQUARE"), (semicolon, "SEMICOLON"),
    (comma, "COMMA"), (dot, "DOT"), (assign, "ASSIGN"), (or, "OR"), (and, "AND"), (eq, "EQ"),
    (ne, "NE"), (lt, "LT"), (le, "LE"), (gt, "GT"), (ge, "GE"), (plus, "PLUS"), (minus, "MINUS"),
    (mul, "MUL"), (div, "DIV"), (not, "NOT")]

def name (k : Kind) : String :=
  match names.find? (·.1 == k) with
  | some (_, s) => s
  | none => ""

def nameOf (code : Int) : String :=
  match if code < 0 then none else names[code.toNat]? with
  | some (_, s) => s
  | none => s!"token{code}"

def keywords : List (String × Kind) :=
  [("boolean", kwBoolean), ("class", kwClass), ("else", kwElse), ("false", kwFalse), ("if", kwIf),
   ("int", kwInt), ("new", kwNew), ("private", kwPrivate), ("public", kwPublic),
   ("return", kwReturn), ("static", kwStatic), ("this", kwThis), ("true", kwTrue),
   ("void", kwVoid), ("while", kwWhile)]

def ofWord (s : String) : Kind :=
  (keywords.lookup s).getD id

def spelling? : Kind → Option String
  | kwClass => some "class" | kwPublic => some "public" | kwPrivate => some "private"
  | kwStatic => some "static" | kwVoid => some "void" | kwInt => some "int"
  | kwBoolean => some "boolean" | kwThis => some "this" | kwIf => some "if"
  | kwElse => some "else" | kwWhile => some "while" | kwReturn => some "return"
  | kwNew => some "new" | kwTrue => some "true" | kwFalse => some "false"
  | lcurly => some "\x7b" | rcurly => some "\x7d" | lparen => some "(" | rparen => some ")"
  | lsquare => some "[" | rsquare => some "]" | semicolon => some ";" | comma => some ","
  | dot => some "." | assign => some "=" | or => some "||" | and => some "&&" | eq => some "=="
  | ne => some "!=" | lt => some "<" | le => some "<=" | gt => some ">" | ge => some ">="
  | plus => some "+" | minus => some "-" | mul => some "*" | div => some "/" | not => some "!"
  | invalid | eof | id | num => none

end Kind

/-- A token. -/
structure Token where
  kind : Kind
  /-- Its text in the source, or the message of an invalid token. -/
  spelling : String
  span : Span
  deriving DecidableEq, Repr

def Token.text (t : Token) : String :=
  s!"{t.kind.name}({Text.quote t.spelling},{t.span.text})"

end MiniJam
