import Stylesheet.Cursor
import Stylesheet.ParseError

/-! A cursor with one level of pushback, and the scripts of operations that run on it. -/
namespace Stylesheet

/-- What a consuming operation saves: the tokens that were ahead and the current token.
Visibility of blanks is not part of it. -/
structure Saved where
  ahead : List Token
  current : Token
deriving DecidableEq

structure Stream where
  cursor : Cursor
  saved : Option Saved
deriving DecidableEq

namespace Stream

def ofTokens (ts : List Token) : Stream := ⟨.ofTokens ts, none⟩

def ofText (css : Text) : Stream := ⟨.ofText css, none⟩

def current (s : Stream) : Token := s.cursor.current

def lookahead (s : Stream) (n : Nat) : Token := s.cursor.lookahead n

def spaceVisible (s : Stream) : Bool := s.cursor.spaceVisible

def setSpaceVisible (s : Stream) (seen : Bool) : Stream :=
  { s with cursor := s.cursor.withSpace seen }

def peek (s : Stream) : Kind := s.cursor.next.kind

def get (s : Stream) : Stream :=
  ⟨s.cursor.advance, some ⟨s.cursor.ahead, s.cursor.current⟩⟩

/-- Takes the last consuming operation back; a second time in a row it does nothing. -/
def unget (s : Stream) : Stream :=
  match s.saved with
  | some old => ⟨{ s.cursor with ahead := old.ahead, current := old.current }, none⟩
  | none => s

/-- Consumes the next token if its kind is one of `ks`. -/
def accept? (s : Stream) (ks : List Kind) : Option Stream :=
  if s.peek ∈ ks then some s.get else none

/-- As `accept?`, where any other token is an error. -/
def expect (s : Stream) (ks : List Kind) : Except ParseError Stream :=
  match s.accept? ks with
  | some t => .ok t
  | none => .error (.atToken s.cursor.next)

/-- One operation. A scope runs its script under its own visibility of blanks. -/
inductive Step where
  | get
  | unget
  | peek
  | accept (ks : List Kind)
  | expect (ks : List Kind)
  | token
  | lookahead (n : Nat)
  | setSpace (seen : Bool)
  | scope (seen : Bool) (script : List Step)

/-- What one operation answers. -/
inductive Reply where
  | kind (k : Kind)
  | matched (b : Bool)
  | failed (e : ParseError)
  | token (t : Token)
  | nothing

/-- The answer of an operation with those of the script inside it, and the stream as it then is. -/
inductive Report where
  | mk (reply : Reply) (inner : Option (List Report)) (after : Stream)

mutual

def runStep (s : Stream) : Step → Report
  | .get => .mk (.kind s.get.current.kind) none s.get
  | .unget => .mk .nothing none s.unget
  | .peek => .mk (.kind s.peek) none s
  | .accept ks =>
    match s.accept? ks with
    | some t => .mk (.matched true) none t
    | none => .mk (.matched false) none s
  | .expect ks =>
    match s.expect ks with
    | .ok t => .mk (.matched true) none t
    | .error e => .mk (.failed e) none s
  | .token => .mk (.token s.current) none s
  | .lookahead n => .mk (.token (s.lookahead n)) none s
  | .setSpace seen => .mk .nothing none (s.setSpaceVisible seen)
  | .scope seen script =>
    let inner := runScript (s.setSpaceVisible seen) script
    .mk .nothing (some inner.1) (inner.2.setSpaceVisible s.spaceVisible)

def runScript (s : Stream) : List Step → List Report × Stream
  | [] => ([], s)
  | step :: script =>
    match runStep s step with
    | .mk reply inner after =>
      let tail := runScript after script
      (.mk reply inner after :: tail.1, tail.2)

end

end Stream
end Stylesheet
