import Stylesheet.Production

/-! The productions of values. They are lenient: an operator may end a value, a sign without a
term is dropped, and a function may lack its closing parenthesis. -/
namespace Stylesheet

/-- The kinds of tokens that are terms by themselves. -/
def TermKind.ofKind? : Kind → Option TermKind
  | .number => some .number
  | .percentage => some .percentage
  | .length => some .length
  | .ems => some .ems
  | .exs => some .exs
  | .angle => some .angle
  | .time => some .time
  | .freq => some .frequency
  | .string => some .string
  | .ident => some .identifier
  | .uri => some .uri
  | _ => none

def Sign.ofKind? : Kind → Option Sign
  | .minus => some .minus
  | .plus => some .plus
  | _ => none

def Operator.ofKind? : Kind → Option Operator
  | .slash => some .slash
  | .comma => some .comma
  | _ => none

/-- Colors have three or six hexadecimal digits after their `#`. -/
def isHexColor (digits : Text) : Bool :=
  (digits.length = 3 || digits.length = 6) && digits.all isHexDigit

namespace Grammar
open Production

def operator : Production (Option Operator) := do
  match ← classify Operator.ofKind? with
  | some (o, _) => pure (some o)
  | none => pure none

def sign : Production (Option Sign) := do
  match ← classify Sign.ofKind? with
  | some (s, _) => pure (some s)
  | none => pure none

/-- A term that is one token, with its kind. -/
def plainTerm : Production (Option (TermKind × Text)) := do
  match ← classify TermKind.ofKind? with
  | some (k, t) => pure (some (k, t.text))
  | none => pure none

/-- A hash token must be a color where a term is read. -/
def hexColor : Production (Option (TermKind × Text)) := do
  match ← accept [.hash] with
  | some t =>
    if isHexColor (t.text.drop 1) then pure (some (.hexColor, t.text)) else fail (.atToken t)
  | none => pure none

/-- A call whose arguments `arguments` reads. It is closed in the text even if not in the source. -/
def function (arguments : Production Value) : Production (Option (TermKind × Text)) := do
  match ← accept [.function] with
  | some t => do
    let v ← arguments
    let _ ← accept [.rparen]
    pure (some (.function, t.text ++ v.flatMap Value.Part.text ++ [')']))
  | none => pure none

def term (arguments : Production Value) : Production (Option Term) := do
  let start ← next
  let s ← sign
  match ← orElse plainTerm (orElse hexColor (function arguments)) with
  | some (k, text) => pure (some (.ofSigned s text k start.position))
  | none => pure none

/-- The parts of a value after its first term. -/
def moreParts (arguments : Production Value) : Production Value :=
  recursive fun again => do
    let o ← operator
    let parts := (o.map Value.Part.operator).toList
    match ← term arguments with
    | some t => return parts ++ .term t :: (← again)
    | none => pure parts

def parts (arguments : Production Value) : Production Value := do
  match ← term arguments with
  | some t => return .term t :: (← moreParts arguments)
  | none => pure []

/-- A value, empty if no term starts here. -/
def value : Production Value := recursive parts

end Grammar
end Stylesheet
