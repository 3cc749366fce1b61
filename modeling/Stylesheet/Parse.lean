import Stylesheet.Grammar.Statements

/-! Parsing a text: the events it reports, and the error if it fails. -/
namespace Stylesheet

/-- The events of a parse, those before a failure included. -/
structure Parse where
  events : List Event
  error : Option ParseError
deriving DecidableEq

def parseFrom (c : Cursor) : Parse :=
  let o := Grammar.stylesheet c
  ⟨o.events, match o.result with
    | .ok () => none
    | .error e => some e⟩

def parse (css : Text) : Parse := parseFrom (.ofText css)

/-- All events of a text that parses. -/
def Parse.complete (p : Parse) : Except ParseError (List Event) :=
  match p.error with
  | none => .ok p.events
  | some e => .error e

end Stylesheet
