import Stylesheet.Grammar.Selectors
import Stylesheet.Grammar.Values
import Stylesheet.WhiteSpace

/-! The productions of declarations, rules and whole style sheets. Each reports its events as soon
as it is sure of them; the end of a block repeats what its start carried. -/
namespace Stylesheet

/-- The address of an import: the wrapping `url(...)`, white space around it, and quotes go. -/
def importAddress (s : Text) : Text :=
  if foldCase (s.take 4) = "url(".toList then
    let inner := s.drop 4
    unquote (trim (if inner.getLast? = some ')' then inner.dropLast else inner))
  else unquote (trim s)

namespace Grammar
open Production

/-- A property, a colon, a value that is not empty, and `!important` or not. -/
def declaration : Production (Option Unit) := do
  match ← accept [.ident] with
  | some name => do
    let _ ← expect [.colon]
    let v ← value
    if v.isEmpty then reject
    else do
      let important ← accept [.importantSym]
      fire (.property name.text v important.isSome)
      pure (some ())
  | none => pure none

/-- A semicolon and a declaration or nothing. -/
def nextDeclaration : Production (Option Unit) := do
  match ← accept [.semicolon] with
  | some _ => do
    let _ ← declaration
    pure (some ())
  | none => pure none

def declarations : Production Unit := do
  let _ ← declaration
  let _ ← many nextDeclaration
  pure ()

/-- A comma and the selector that it demands. -/
def nextSelector : Production (Option Selector) := do
  match ← accept [.comma] with
  | some _ => do
    match ← selector with
    | some s => pure (some s)
    | none => reject
  | none => pure none

/-- The block of a rule whose selectors have been read. -/
def ruleBlock (selectors : List Selector) : Production Unit := do
  let _ ← expect [.lbrace]
  fire (.startRule selectors)
  declarations
  let _ ← expect [.rbrace]
  fire (.endRule selectors)

def ruleset : Production (Option Unit) := do
  match ← selector with
  | some first => do
    let rest ← many nextSelector
    ruleBlock (first :: rest)
    pure (some ())
  | none => pure none

/-- A comma and the name that it demands. -/
def nextMedium : Production (Option Text) := do
  match ← accept [.comma] with
  | some _ => do
    let name ← expect [.ident]
    pure (some name.text)
  | none => pure none

def mediaList : Production MediaList := do
  let first ← expect [.ident]
  let rest ← many nextMedium
  pure ⟨first.text, rest⟩

def media : Production Unit := do
  let _ ← expect [.mediaSym]
  let l ← mediaList
  let _ ← expect [.lbrace]
  fire (.startMedia l)
  let _ ← many ruleset
  let _ ← expect [.rbrace]
  fire (.endMedia l)

def pagePseudo : Production (Option Text) := do
  match ← accept [.colon] with
  | some _ => do
    let name ← expect [.ident]
    pure (some name.text)
  | none => pure none

def page : Production Unit := do
  let _ ← expect [.pageSym]
  let pseudo ← pagePseudo
  let _ ← expect [.lbrace]
  fire (.startPage pseudo)
  declarations
  let _ ← expect [.rbrace]
  fire (.endPage pseudo)

def charset : Production Unit := do
  match ← accept [.charsetSym] with
  | some _ => do
    let name ← expect [.string]
    let _ ← expect [.semicolon]
    fire (.charset name.content)
  | none => pure ()

/-- The marks `<!--` and `-->`, which mean nothing. -/
def marks : Production Unit := do
  let _ ← many (accept [.cdo, .cdc])
  pure ()

def importMedia : Production (Option MediaList) := do
  if (← next).kind = .ident then return some (← mediaList) else pure none

/-- An import with the marks after it. -/
def importSheet : Production (Option Unit) := do
  match ← accept [.importSym] with
  | some _ => do
    let target ← expect [.string, .uri]
    let l ← importMedia
    let _ ← expect [.semicolon]
    fire (.importSheet (importAddress target.text) l)
    marks
    pure (some ())
  | none => pure none

/-- A mark, a block or a rule; nothing only at the end. -/
def statement : Production (Option Unit) := do
  match (← next).kind with
  | .eof => pure none
  | .cdo | .cdc => do
    let _ ← accept [.cdo, .cdc]
    pure (some ())
  | .mediaSym => do
    media
    pure (some ())
  | .pageSym => do
    page
    pure (some ())
  | _ => do
    match ← ruleset with
    | some () => pure (some ())
    | none => reject

def stylesheet : Production Unit := do
  fire .startStylesheet
  charset
  marks
  let _ ← many importSheet
  let _ ← many statement
  fire .endStylesheet

end Grammar
end Stylesheet
