import Stylesheet.Token
import Stylesheet.Proofs.Languages

/-! The lexical grammar, as languages of characters: what the tokens of each kind look like. -/
namespace Stylesheet.Lexical
open Computability

/-- One character of a class. -/
def char (p : Char → Bool) : Language Char := {w | ∃ c, p c ∧ w = [c]}

/-- One text. -/
def exactly (s : String) : Language Char := {s.toList}

def blank : Language Char := char isBlank

/-- One blank, where the pair CR LF counts as one. -/
def oneBlank : Language Char := blank + exactly "\r\n"

/-- A backslash with one to six hexadecimal digits and at most one blank. -/
def hexEscape : Language Char :=
  {w | ∃ ds b, w = '\\' :: (ds ++ b) ∧ ds ≠ [] ∧ ds.length ≤ 6 ∧ (∀ d ∈ ds, isHexDigit d) ∧
    b ∈ opt oneBlank}

/-- A backslash with a character that is neither a hexadecimal digit nor a newline. -/
def plainEscape : Language Char :=
  {w | ∃ c, isHexDigit c = false ∧ isNewline c = false ∧ w = ['\\', c]}

def escape : Language Char := hexEscape + plainEscape

def nmstart : Language Char := char isNameStart + escape

def nmchar : Language Char := char isNameChar + escape

def name : Language Char := nmchar * nmchar∗

def ident : Language Char := opt (exactly "-") * (nmstart * nmchar∗)

def digit : Language Char := char Char.isDigit

/-- Digits, or a point with digits after it and maybe before it. -/
def number : Language Char := digit * digit∗ + digit∗ * (exactly "." * (digit * digit∗))

/-- A backslash and the newline it keeps from ending a string. -/
def continuation : Language Char := exactly "\\" * (char isNewline + exactly "\r\n")

/-- What may stand in a string between the quotes `q`. -/
def stringItem (q : Char) : Language Char :=
  char (fun c => c != q && !isNewline c && c != '\\') + continuation + escape

/-- A string up to where something goes wrong or the text ends. -/
def openString : Language Char :=
  {w | ∃ q s, isQuote q ∧ s ∈ (stringItem q)∗ ∧ w = q :: s}

def closedString : Language Char :=
  {w | ∃ q s, isQuote q ∧ s ∈ (stringItem q)∗ ∧ w = q :: s ++ [q]}

/-- The names in small letters of the units of a kind. -/
def unitNames : Kind → List Text
  | .ems => ["em".toList]
  | .exs => ["ex".toList]
  | .length => ["px".toList, "cm".toList, "mm".toList, "in".toList, "pt".toList, "pc".toList]
  | .angle => ["deg".toList, "rad".toList, "grad".toList]
  | .time => ["ms".toList, "s".toList]
  | .freq => ["hz".toList, "khz".toList]
  | _ => []

/-- The at-keywords in small letters that have kinds of their own. -/
def atNames : Kind → List Text
  | .importSym => ["import".toList]
  | .pageSym => ["page".toList]
  | .mediaSym => ["media".toList]
  | .charsetSym => ["charset".toList]
  | _ => []

/-- The identifiers that the names of `k` spell in capital or small letters. -/
def spelling (names : Kind → List Text) (k : Kind) : Language Char :=
  {u | u ∈ ident ∧ foldCase u ∈ names k}

/-- The identifiers that no kind has a name for. -/
def otherSpelling (names : Kind → List Text) : Language Char :=
  {u | u ∈ ident ∧ ∀ k, foldCase u ∉ names k}

/-- What may follow a number. -/
def suffix : Language Char := 1 + exactly "%" + ident

/-- The kinds of tokens that start with a number. -/
def numericKinds : List Kind :=
  [.number, .percentage, .ems, .exs, .length, .angle, .time, .freq, .dimension]

/-- What follows the number in a token of a numeric kind. -/
def suffixOf : Kind → Language Char
  | .number => 1
  | .percentage => exactly "%"
  | .dimension => otherSpelling unitNames
  | k => spelling unitNames k

/-- What follows the `@` in the at-keywords of a kind. -/
def atWord : Kind → Language Char
  | .atKeyword => otherSpelling atNames
  | k => spelling atNames k

/-- The texts of the tokens of a kind. Addresses and `!important` are not described here, and
neither are the characters that mean nothing. -/
def production : Kind → Language Char
  | .space => blank * blank∗
  | .cdo => exactly "<!--"
  | .cdc => exactly "-->"
  | .includes => exactly "~="
  | .dashMatch => exactly "|="
  | .string => closedString + openString * opt (exactly "\\")
  | .invalid => openString
  | .ident => ident
  | .function => ident * exactly "("
  | .hash => exactly "#" * name
  | .lbrace => exactly "\x7b"
  | .rbrace => exactly "\x7d"
  | .lbracket => exactly "["
  | .rbracket => exactly "]"
  | .lparen => exactly "("
  | .rparen => exactly ")"
  | .colon => exactly ":"
  | .semicolon => exactly ";"
  | .comma => exactly ","
  | .dot => exactly "."
  | .star => exactly "*"
  | .plus => exactly "+"
  | .greater => exactly ">"
  | .minus => exactly "-"
  | .slash => exactly "/"
  | .equals => exactly "="
  | .uri | .importantSym | .delim | .eof => 0
  | k => if k ∈ numericKinds then number * suffixOf k else exactly "@" * atWord k

end Stylesheet.Lexical
