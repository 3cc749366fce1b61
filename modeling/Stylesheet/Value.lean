import Stylesheet.Position

/-! Values of declarations: terms, and the slashes and commas written between them. -/
namespace Stylesheet

inductive TermKind where
  | number
  | percentage
  | length
  | ems
  | exs
  | angle
  | time
  | frequency
  | string
  | identifier
  | uri
  | hexColor
  | function
deriving DecidableEq

inductive Sign where
  | plus
  | minus
deriving DecidableEq

def Sign.symbol : Sign → Char
  | plus => '+'
  | minus => '-'

/-- A term with its text, sign included, and the place of its first token. -/
structure Term where
  text : Text
  kind : TermKind
  position : Position
deriving DecidableEq

def Term.ofSigned (sign : Option Sign) (text : Text) (kind : TermKind) (p : Position) : Term :=
  ⟨(sign.map Sign.symbol).toList ++ text, kind, p⟩

inductive Operator where
  | slash
  | comma
deriving DecidableEq

def Operator.symbol : Operator → Char
  | slash => '/'
  | comma => ','

namespace Value

inductive Part where
  | term (t : Term)
  | operator (o : Operator)
deriving DecidableEq

namespace Part

def text : Part → Text
  | term t => t.text
  | operator o => [o.symbol]

def term? : Part → Option Term
  | term t => some t
  | operator _ => none

end Part
end Value

abbrev Value := List Value.Part

namespace Value

/-- What is written before a part that another one precedes: nothing before an operator or after
a slash, else one space. -/
def gap : Part → Part → Text
  | .operator .slash, _ => []
  | _, .operator _ => []
  | _, .term _ => [' ']

/-- The parts after `before`, with the gaps between them. -/
def renderAfter (before : Part) : Value → Text
  | [] => []
  | p :: v => gap before p ++ p.text ++ renderAfter p v

def render : Value → Text
  | [] => []
  | p :: v => p.text ++ renderAfter p v

end Value
end Stylesheet
