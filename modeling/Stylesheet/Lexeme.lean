import Stylesheet.Scan
import Stylesheet.Token

/-! Lexemes: a text is cut, without gaps, into comments and the texts of tokens. -/
namespace Stylesheet

/-- What the lexeme at the front of a text is and how many characters it has after its first.
Comments have no kind. A comment or string that lacks its end is not closed. -/
structure Extent where
  kind : Option Kind
  more : Nat
  closed : Bool

namespace Extent

def ofLength (k : Kind) (n : Nat) : Extent := ⟨some k, n - 1, true⟩

/-- Single characters that are tokens of their own kind. -/
def punctuation (c : Char) : Kind :=
  match c with
  | '(' => .lparen
  | ')' => .rparen
  | '[' => .lbracket
  | ']' => .rbracket
  | '{' => .lbrace
  | '}' => .rbrace
  | ':' => .colon
  | ';' => .semicolon
  | ',' => .comma
  | '.' => .dot
  | '*' => .star
  | '>' => .greater
  | '/' => .slash
  | '=' => .equals
  | '+' => .plus
  | '-' => .minus
  | _ => .delim

def ofString (q : Char) (s : Text) : Extent :=
  let tail := stringTail q s
  ⟨some (if tail.2 = .broken then .invalid else .string), tail.1, tail.2 = .closed⟩

/-- The units with kinds of their own, in lower case. -/
def units : List (Text × Kind) :=
  [("em".toList, .ems), ("ex".toList, .exs),
    ("px".toList, .length), ("cm".toList, .length), ("mm".toList, .length),
    ("in".toList, .length), ("pt".toList, .length), ("pc".toList, .length),
    ("deg".toList, .angle), ("rad".toList, .angle), ("grad".toList, .angle),
    ("ms".toList, .time), ("s".toList, .time), ("hz".toList, .freq), ("khz".toList, .freq)]

def unitKind (unit : Text) : Kind := (units.lookup (foldCase unit)).getD .dimension

/-- A number with the unit or percent sign that follows it. -/
def ofNumber (s : Text) : Extent :=
  let n := numberLength s
  let rest := s.drop n
  let u := identLength rest
  if u ≠ 0 then ofLength (unitKind (rest.take u)) (n + u)
  else if rest.head? = some '%' then ofLength .percentage (n + 1)
  else ofLength .number n

/-- An identifier, the opening of a function, or a whole `url(...)`. Only the plain three letters
open an address; a text after them that is none leaves the opening of a function. -/
def ofWord (s : Text) : Extent :=
  let n := nameLength s
  let rest := s.drop n
  if rest.head? = some '(' then
    if foldCase (s.take n) = "url".toList then
      match uriTail? rest.tail with
      | some m => ofLength .uri (n + 1 + m)
      | none => ofLength .function (n + 1)
    else ofLength .function (n + 1)
  else ofLength .ident n

/-- The at-keywords with kinds of their own, in lower case. -/
def atKeywords : List (Text × Kind) :=
  [("import".toList, .importSym), ("page".toList, .pageSym), ("media".toList, .mediaSym),
    ("charset".toList, .charsetSym)]

def atKind (name : Text) : Kind := (atKeywords.lookup (foldCase name)).getD .atKeyword

/-- What an `@` opens when `s` follows it. -/
def ofAt (s : Text) : Extent :=
  let n := identLength s
  if n = 0 then ofLength .delim 1 else ofLength (atKind (s.take n)) (1 + n)

/-- The lexeme that starts with `c` when `s` follows. -/
def measure (c : Char) (s : Text) : Extent :=
  if isBlank c then ofLength .space (1 + blanksLength s)
  else if isQuote c then ofString c s
  else if c.isDigit then ofNumber (c :: s)
  else if startsName (c :: s) then ofWord (c :: s)
  else match c with
    | '/' =>
      if s.head? = some '*' then ⟨none, 1 + (commentTail s.tail).1, (commentTail s.tail).2⟩
      else ofLength .slash 1
    | '#' => if nameLength s = 0 then ofLength .delim 1 else ofLength .hash (1 + nameLength s)
    | '-' =>
      if s.take 2 = "->".toList then ofLength .cdc 3
      else if startsName s then ofWord (c :: s)
      else ofLength .minus 1
    | '.' => if fractionLength (c :: s) = 0 then ofLength .dot 1 else ofNumber (c :: s)
    | '<' => if s.take 3 = "!--".toList then ofLength .cdo 4 else ofLength .delim 1
    | '@' => ofAt s
    | '!' =>
      match importantTail? s with
      | some n => ofLength .importantSym (1 + n)
      | none => ofLength .delim 1
    | '~' => if s.head? = some '=' then ofLength .includes 2 else ofLength .delim 1
    | '|' => if s.head? = some '=' then ofLength .dashMatch 2 else ofLength .delim 1
    | _ => ofLength (punctuation c) 1

end Extent

structure Lexeme where
  kind : Option Kind
  text : Text
  closed : Bool

/-- The lexemes of a text, in order. -/
def lexemes : Text → List Lexeme
  | [] => []
  | c :: s =>
    let e := Extent.measure c s
    ⟨e.kind, c :: s.take e.more, e.closed⟩ :: lexemes (s.drop e.more)
termination_by s => s.length
decreasing_by simp only [List.length_drop, List.length_cons]; omega

/-- The lexemes put together are the text again. -/
theorem flatten_lexemes (s : Text) : ((lexemes s).map Lexeme.text).flatten = s := by
  fun_induction lexemes s with
  | case1 => rfl
  | case2 c s e ih => simp [ih]

end Stylesheet
