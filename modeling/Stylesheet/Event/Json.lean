import Stylesheet.Event
import Stylesheet.Json

/-! Events and what they carry as JSON. -/
namespace Stylesheet

def ElementName.json : ElementName → Json
  | named name => .obj [("Named".toList, .str name)]
  | universal => .str "Universal".toList

def Modifier.json : Modifier → Json
  | id s => .obj [("Id".toList, .str s)]
  | className s => .obj [("Class".toList, .str s)]
  | attrib s => .obj [("Attribute".toList, .str s)]
  | pseudo s => .obj [("Pseudo".toList, .str s)]

def SimpleSelector.json (u : SimpleSelector) : Json :=
  .obj [("element_name".toList, .ofOption ElementName.json u.element),
    ("modifiers".toList, .arr (u.modifiers.map Modifier.json)),
    ("text".toList, .str u.text)]

def Combinator.name : Combinator → Text
  | descendant => "Descendant".toList
  | child => "Child".toList
  | adjacentSibling => "AdjacentSibling".toList

def Selector.Part.json : Selector.Part → Json
  | unit u => .obj [("Unit".toList, u.json)]
  | combinator c => .obj [("Combinator".toList, .str c.name)]

def Selector.json (s : Selector) : Json := .arr (s.parts.map Selector.Part.json)

def TermKind.name : TermKind → Text
  | number => "Number".toList
  | percentage => "Percentage".toList
  | length => "Length".toList
  | ems => "Ems".toList
  | exs => "Exs".toList
  | angle => "Angle".toList
  | time => "Time".toList
  | frequency => "Frequency".toList
  | string => "String".toList
  | identifier => "Identifier".toList
  | uri => "Uri".toList
  | hexColor => "HexColor".toList
  | function => "Function".toList

def TermKind.all : List TermKind :=
  [number, percentage, length, ems, exs, angle, time, frequency, string, identifier, uri,
    hexColor, function]

/-- The kind of a given name. -/
def TermKind.ofName? (s : Text) : Option TermKind := all.find? (·.name = s)

def Term.json (t : Term) : Json :=
  .obj [("text".toList, .str t.text), ("kind".toList, .str t.kind.name),
    ("line".toList, .num t.position.row), ("column".toList, .num t.position.column)]

def Operator.name : Operator → Text
  | slash => "Slash".toList
  | comma => "Comma".toList

def Value.Part.json : Value.Part → Json
  | term t => .obj [("Term".toList, t.json)]
  | operator o => .obj [("Operator".toList, .str o.name)]

def Value.json (v : Value) : Json := .arr (v.map Value.Part.json)

def MediaList.json (l : MediaList) : Json := .arr (l.toList.map .str)

namespace Event

/-- What an event carries, under the names of its members. -/
def payload : Event → List (Text × Json)
  | startStylesheet | endStylesheet => []
  | charset name => [("charset".toList, .str name)]
  | importSheet uri l => [("uri".toList, .str uri), ("media".toList, .ofOption MediaList.json l)]
  | startMedia l | endMedia l => [("media".toList, l.json)]
  | startPage p | endPage p => [("pseudo".toList, .ofOption .str p)]
  | startRule ss | endRule ss => [("selectors".toList, .arr (ss.map Selector.json))]
  | property name v important =>
    [("property".toList, .str name), ("value".toList, v.json),
      ("important".toList, .bool important)]

/-- The kind under the name `type`, and the payload. -/
def json (e : Event) : Json := .obj (("type".toList, .str e.kind.name) :: e.payload)

end Event
end Stylesheet
