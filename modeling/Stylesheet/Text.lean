/-! Text as a list of characters, and the character classes of the lexical grammar of CSS 2.1.
Only ASCII letters have case; every character beyond ASCII belongs to names. -/
namespace Stylesheet

abbrev Text := List Char

/-- The end of a line, apart from the pair CR LF. -/
def isNewline (c : Char) : Bool :=
  c == '\n' || c == '\r' || c == '\x0c'

def isBlank (c : Char) : Bool :=
  c == ' ' || c == '\t' || isNewline c

def isQuote (c : Char) : Bool :=
  c == '"' || c == '\''

def isHexDigit (c : Char) : Bool :=
  c.isDigit || ('a' ≤ c && c ≤ 'f') || ('A' ≤ c && c ≤ 'F')

/-- A character that may begin a name, escapes apart. -/
def isNameStart (c : Char) : Bool :=
  c.isAlpha || c == '_' || 128 ≤ c.toNat

/-- A character that may stand inside a name, escapes apart. -/
def isNameChar (c : Char) : Bool :=
  isNameStart c || c.isDigit || c == '-'

/-- Lower case for the letters A to Z; all else stays. -/
def foldCase (s : Text) : Text := s.map Char.toLower

/-- One layer of matching quotes is removed, or an opening quote that nothing closes. -/
def unquote : Text → Text
  | [] => []
  | c :: s =>
    if isQuote c then
      if s.getLast? = some c then s.dropLast else s
    else c :: s

/-- Decimal digits of a number, without leading zeros. -/
def decimal (n : Nat) : Text := Nat.toDigits 10 n

end Stylesheet
