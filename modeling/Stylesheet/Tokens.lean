import Stylesheet.Lexeme
import Stylesheet.Warning

/-! The tokens of a text and the lexical faults in it, both read off its placed lexemes. -/
namespace Stylesheet

structure Placed where
  lexeme : Lexeme
  position : Position

/-- Lexemes with the places of their first characters, the first one standing at `p`. -/
def placeFrom (p : Position) : List Lexeme → List Placed
  | [] => []
  | l :: ls => ⟨l, p⟩ :: placeFrom (p.after l.text) ls

namespace Placed

def token? (l : Placed) : Option Token :=
  l.lexeme.kind.map fun k => ⟨k, l.lexeme.text, l.position⟩

def fault? (l : Placed) : Option Fault :=
  match l.lexeme.kind with
  | none => if l.lexeme.closed then none else some (.unclosedComment l.position)
  | some .invalid => some (.brokenString l.position)
  | some .string => if l.lexeme.closed then none else some (.unclosedString l.position)
  | some _ => none

end Placed

def placed (css : Text) : List Placed := placeFrom .start (lexemes css)

/-- The token after all others, at the end of the text. -/
def endToken (css : Text) : Token := ⟨.eof, [], Position.start.after css⟩

def tokens (css : Text) : List Token :=
  (placed css).filterMap Placed.token? ++ [endToken css]

def faults (css : Text) : List Fault := (placed css).filterMap Placed.fault?

def warnings (css : Text) : List Warning := (faults css).map Fault.warning

end Stylesheet
