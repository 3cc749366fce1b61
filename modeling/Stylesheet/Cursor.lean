import Stylesheet.Tokens

/-! A place in a sequence of tokens that ends with an end token. Blanks are passed over unless
they are visible, and nothing behind an end token is ever reached by consuming. -/
namespace Stylesheet

/-- The tokens still ahead, the end token behind them all, and the token consumed last. -/
structure Cursor where
  ahead : List Token
  last : Token
  current : Token
  spaceVisible : Bool
deriving DecidableEq

namespace Cursor

/-- The end token for tokens that lack one: directly behind the last, counted in characters. -/
def endAfter (ts : List Token) : Token :=
  match ts.getLast? with
  | some t => ⟨.eof, [], ⟨t.position.row, t.position.column + t.text.length⟩⟩
  | none => ⟨.eof, [], .start⟩

/-- The tokens with an end token behind them, unless the last is one. -/
def withEnd (ts : List Token) : List Token :=
  if ts.getLast?.any Token.isEof then ts else ts ++ [endAfter ts]

/-- Before the first of `ts`, which counts as current until something is consumed. -/
def ofTokens (ts : List Token) : Cursor :=
  let all := withEnd ts
  ⟨all.dropLast, all.getLastD (endAfter ts), all.headD (endAfter ts), false⟩

def ofText (css : Text) : Cursor := ofTokens (tokens css)

/-- What lies ahead from the next visible token on. -/
def visible (c : Cursor) : List Token :=
  if c.spaceVisible then c.ahead else c.ahead.dropWhile Token.isSpace

def next (c : Cursor) : Token := c.visible.headD c.last

/-- Consumes the next visible token. At an end token the place stays. -/
def advance (c : Cursor) : Cursor :=
  match c.visible with
  | [] => { c with current := c.last }
  | t :: ts => if t.isEof then { c with current := t } else { c with ahead := ts, current := t }

/-- The `n`-th visible token ahead, the end token from there on. Zero counts as one. -/
def lookahead (c : Cursor) (n : Nat) : Token :=
  (if c.spaceVisible then c.ahead else c.ahead.filter (!·.isSpace)).getD (n - 1) c.last

def withSpace (c : Cursor) (seen : Bool) : Cursor := { c with spaceVisible := seen }

end Cursor
end Stylesheet
