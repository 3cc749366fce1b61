import Stylesheet.Text

/-! Selectors: simple selectors joined by combinators, kept as written. -/
namespace Stylesheet

inductive ElementName where
  | named (name : Text)
  | universal
deriving DecidableEq

def ElementName.text : ElementName → Text
  | named name => name
  | universal => ['*']

/-- A modifier with its source text, leading punctuation included. -/
inductive Modifier where
  | id (text : Text)
  | className (text : Text)
  | attrib (text : Text)
  | pseudo (text : Text)
deriving DecidableEq

def Modifier.text : Modifier → Text
  | id s | className s | attrib s | pseudo s => s

/-- An element name, modifiers, or both: nothing else can be written. -/
structure SimpleSelector where
  element : Option ElementName
  modifiers : List Modifier
  nonempty : element.isSome ∨ modifiers ≠ []
deriving DecidableEq

namespace SimpleSelector

def ofParts? (element : Option ElementName) (modifiers : List Modifier) : Option SimpleSelector :=
  if h : element.isSome ∨ modifiers ≠ [] then some ⟨element, modifiers, h⟩ else none

def text (u : SimpleSelector) : Text :=
  u.element.elim [] ElementName.text ++ u.modifiers.flatMap Modifier.text

end SimpleSelector

inductive Combinator where
  | descendant
  | child
  | adjacentSibling
deriving DecidableEq

namespace Combinator

def symbol : Combinator → Text
  | descendant => [' ']
  | child => ['>']
  | adjacentSibling => ['+']

/-- The combinator written with a symbol of its own; blanks are no symbol. -/
def ofSymbol? (s : Text) : Option Combinator :=
  if s = ['>'] then some child else if s = ['+'] then some adjacentSibling else none

/-- How a combinator stands between two simple selectors. -/
def spaced : Combinator → Text
  | descendant => [' ']
  | child => " > ".toList
  | adjacentSibling => " + ".toList

end Combinator

/-- A chain of simple selectors, each but the first led to by a combinator. -/
structure Selector where
  first : SimpleSelector
  rest : List (Combinator × SimpleSelector)
deriving DecidableEq

namespace Selector

inductive Part where
  | unit (u : SimpleSelector)
  | combinator (c : Combinator)
deriving DecidableEq

def ofUnit (u : SimpleSelector) : Selector := ⟨u, []⟩

def push (s : Selector) (c : Combinator) (u : SimpleSelector) : Selector :=
  ⟨s.first, s.rest ++ [(c, u)]⟩

/-- Simple selectors and combinators in turn. -/
def parts (s : Selector) : List Part :=
  .unit s.first :: s.rest.flatMap fun (c, u) => [.combinator c, .unit u]

def units (s : Selector) : List SimpleSelector := s.first :: s.rest.map Prod.snd

def combinators (s : Selector) : List Combinator := s.rest.map Prod.fst

/-- One space for a descendant, and spaces around the other combinators. -/
def text (s : Selector) : Text :=
  s.first.text ++ s.rest.flatMap fun (c, u) => c.spaced ++ u.text

end Selector
end Stylesheet
