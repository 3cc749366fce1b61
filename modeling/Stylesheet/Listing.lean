import Stylesheet.Event
import Stylesheet.Quoted

/-! Events as lines for a terminal: the name of the kind in color, and what the event carries. -/
namespace Stylesheet

/-- Terminal colors, each set for a text and taken back after it. -/
inductive Style where
  | dim
  | cyan
  | yellow
  | boldGreen

namespace Style

def control (code : Text) : Text := '\x1b' :: '[' :: code ++ ['m']

def apply (st : Style) (s : Text) : Text :=
  match st with
  | dim => control ['2'] ++ s ++ control ['0']
  | cyan => control ['3', '6'] ++ s ++ control ['3', '9']
  | yellow => control ['3', '3'] ++ s ++ control ['3', '9']
  | boldGreen => control ['1'] ++ control ['3', '2'] ++ s ++ control ['3', '9'] ++ control ['0']

end Style

namespace Event

/-- What an event carries, as text. -/
def detail : Event → Text
  | startStylesheet | endStylesheet => []
  | charset name => quoted name
  | importSheet uri none => quoted uri
  | importSheet uri (some l) => quoted uri ++ ' ' :: l.text
  | startMedia l | endMedia l => l.text
  | startPage p | endPage p => p.elim [] (':' :: ·)
  | startRule ss | endRule ss => ", ".toList.intercalate (ss.map Selector.text)
  | property name v important =>
    name ++ ": ".toList ++ v.render ++ if important then " !important".toList else []

/-- Declarations are set off by two spaces; the ends of a style sheet carry nothing. -/
def listed (e : Event) : Text :=
  match e with
  | startStylesheet | endStylesheet => Style.dim.apply e.kind.name
  | property _ _ _ => "  ".toList ++ Style.cyan.apply e.kind.name ++ ' ' :: e.detail
  | _ => Style.boldGreen.apply e.kind.name ++ ' ' :: e.detail

end Event
end Stylesheet
