import Stylesheet.Production

/-! The productions of selectors. Blanks separate simple selectors and are hidden elsewhere; inside
a simple selector none may stand between its parts. -/
namespace Stylesheet

def ElementName.ofToken? (t : Token) : Option ElementName :=
  match t.kind with
  | .ident => some (.named t.text)
  | .star => some .universal
  | _ => none

def Combinator.ofKind? : Kind → Option Combinator
  | .plus => some .adjacentSibling
  | .greater => some .child
  | _ => none

namespace Grammar
open Production

def elementName : Production (Option ElementName) := do
  match ← accept [.ident, .star] with
  | some t => pure (ElementName.ofToken? t)
  | none => pure none

def hash : Production (Option Modifier) := do
  match ← accept [.hash] with
  | some t => pure (some (.id t.text))
  | none => pure none

/-- A point and a name. -/
def className : Production (Option Modifier) := do
  match ← accept [.dot] with
  | some _ => do
    let name ← expect [.ident]
    pure (some (.className ('.' :: name.text)))
  | none => pure none

/-- The comparison inside an attribute selector, if there is one. -/
def attribTest : Production Text := do
  match ← accept [.equals, .includes, .dashMatch] with
  | some op => do
    let value ← expect [.ident, .string]
    pure (op.text ++ value.text)
  | none => pure []

/-- A name in brackets, with a comparison or without. -/
def attrib : Production (Option Modifier) := do
  match ← accept [.lbracket] with
  | some opening => do
    let name ← expect [.ident]
    let test ← attribTest
    let closing ← expect [.rbracket]
    pure (some (.attrib (opening.text ++ name.text ++ test ++ closing.text)))
  | none => pure none

/-- A function with at most one name as its argument. -/
def pseudoFunction : Production Text := do
  let function ← expect [.function]
  let argument ← accept [.ident]
  let closing ← expect [.rparen]
  pure (function.text ++ argument.elim [] Token.text ++ closing.text)

/-- A colon and a name or a function. -/
def pseudo : Production (Option Modifier) := do
  match ← accept [.colon] with
  | some colon => do
    match ← accept [.ident] with
    | some name => pure (some (.pseudo (colon.text ++ name.text)))
    | none => do
      let function ← pseudoFunction
      pure (some (.pseudo (colon.text ++ function)))
  | none => pure none

def modifier : Production (Option Modifier) :=
  orElse hash (orElse className (orElse attrib pseudo))

/-- A modifier right behind the previous token, with no blank between them. -/
def adjoiningModifier : Production (Option Modifier) := do
  if (← withSpace true next).isSpace then pure none else modifier

def simpleSelector : Production (Option SimpleSelector) := do
  match ← elementName with
  | some e => do
    let ms ← many adjoiningModifier
    pure (some ⟨some e, ms, .inl rfl⟩)
  | none => do
    match ← modifier with
    | some m => do
      let ms ← many adjoiningModifier
      pure (some ⟨none, m :: ms, .inr (List.cons_ne_nil m ms)⟩)
    | none => pure none

def combinator : Production (Option Combinator) := do
  match ← classify Combinator.ofKind? with
  | some (c, _) => pure (some c)
  | none => pure none

/-- The simple selector that a written combinator demands. -/
def linked (c : Combinator) : Production (Option (Combinator × SimpleSelector)) := do
  match ← simpleSelector with
  | some u => pure (some (c, u))
  | none => reject

/-- After blanks: a written combinator or none, and a simple selector. Blanks alone end a chain. -/
def linkedAfterSpace : Production (Option (Combinator × SimpleSelector)) := do
  match ← combinator with
  | some c => linked c
  | none => do
    match ← simpleSelector with
    | some u => pure (some (.descendant, u))
    | none => pure none

/-- The next link of a chain, with or without blanks before it. -/
def link : Production (Option (Combinator × SimpleSelector)) := do
  match ← combinator with
  | some c => linked c
  | none => do
    match ← withSpace true (accept [.space]) with
    | some _ => linkedAfterSpace
    | none => pure none

def selector : Production (Option Selector) := do
  match ← simpleSelector with
  | some first => do
    let rest ← many link
    pure (some ⟨first, rest⟩)
  | none => pure none

end Grammar
end Stylesheet
