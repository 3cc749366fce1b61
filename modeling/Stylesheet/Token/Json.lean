import Stylesheet.Json
import Stylesheet.Token

/-! Tokens as JSON. -/
namespace Stylesheet

def Token.json (t : Token) : Json :=
  .obj [("kind".toList, .str t.kind.name), ("value".toList, .str t.text),
    ("start_row".toList, .num t.position.row), ("start_col".toList, .num t.position.column)]

end Stylesheet
