import Stylesheet.Token

/-! The one way a parse fails: at a token that does not fit. -/
namespace Stylesheet

/-- The text of the token that does not fit, empty at the end of the input, and its place. -/
structure ParseError where
  text : Text
  position : Position
deriving DecidableEq

namespace ParseError

def atToken (t : Token) : ParseError := ⟨t.text, t.position⟩

def message (e : ParseError) : Text :=
  "Unexpected token '".toList ++ e.text ++ "' at ".toList ++ e.position.describe ++ ".".toList

end ParseError
end Stylesheet
