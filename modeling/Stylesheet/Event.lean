import Stylesheet.Media
import Stylesheet.Selector
import Stylesheet.Value

/-! Events: what a parse reports of a stylesheet, each construct once and in source order. -/
namespace Stylesheet

inductive Event where
  | startStylesheet
  | charset (name : Text)
  | importSheet (uri : Text) (media : Option MediaList)
  | startMedia (media : MediaList)
  | endMedia (media : MediaList)
  | startPage (pseudo : Option Text)
  | endPage (pseudo : Option Text)
  | startRule (selectors : List Selector)
  | endRule (selectors : List Selector)
  | property (name : Text) (value : Value) (important : Bool)
  | endStylesheet
deriving DecidableEq

inductive EventKind where
  | startStylesheet
  | charset
  | importSheet
  | startMedia
  | endMedia
  | startPage
  | endPage
  | startRule
  | endRule
  | property
  | endStylesheet
deriving DecidableEq

def Event.kind : Event → EventKind
  | startStylesheet => .startStylesheet
  | charset _ => .charset
  | importSheet _ _ => .importSheet
  | startMedia _ => .startMedia
  | endMedia _ => .endMedia
  | startPage _ => .startPage
  | endPage _ => .endPage
  | startRule _ => .startRule
  | endRule _ => .endRule
  | property _ _ _ => .property
  | endStylesheet => .endStylesheet

namespace EventKind

def name : EventKind → Text
  | startStylesheet => "startstylesheet".toList
  | charset => "charset".toList
  | importSheet => "import".toList
  | startMedia => "startmedia".toList
  | endMedia => "endmedia".toList
  | startPage => "startpage".toList
  | endPage => "endpage".toList
  | startRule => "startrule".toList
  | endRule => "endrule".toList
  | property => "property".toList
  | endStylesheet => "endstylesheet".toList

def all : List EventKind :=
  [startStylesheet, charset, importSheet, startMedia, endMedia, startPage, endPage, startRule,
    endRule, property, endStylesheet]

/-- The kind of a given name, in lower case as written. -/
def ofName? (s : Text) : Option EventKind := all.find? (·.name = s)

/-- The answer to a name that is no kind. -/
def unknownMessage : Text := "Matching variant not found".toList

end EventKind
end Stylesheet
