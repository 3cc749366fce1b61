import Stylesheet.Cursor
import Stylesheet.Event
import Stylesheet.ParseError

/-! Productions: they read tokens at a cursor, report events, and end with a value or at a token
that does not fit. Sequencing keeps the events of both parts, those before a failure included. -/
namespace Stylesheet

structure Outcome (α : Type) where
  events : List Event
  cursor : Cursor
  result : Except ParseError α

def Production (α : Type) : Type := Cursor → Outcome α

namespace Production
variable {α β : Type}

/-- Goes on with `f` where an outcome stopped, unless it is a failure. -/
def andThen (o : Outcome α) (f : α → Production β) : Outcome β :=
  match o.result with
  | .ok a =>
    let rest := f a o.cursor
    ⟨o.events ++ rest.events, rest.cursor, rest.result⟩
  | .error e => ⟨o.events, o.cursor, .error e⟩

instance : Monad Production where
  pure a := fun c => ⟨[], c, .ok a⟩
  bind p f := fun c => andThen (p c) f

theorem andThen_pure (o : Outcome α) : andThen o (pure : α → Production α) = o := by
  rcases o with ⟨es, d, e | a⟩ <;> simp [andThen, pure]

theorem andThen_assoc {γ : Type} (o : Outcome α) (f : α → Production β) (g : β → Production γ) :
    andThen (andThen o f) g = andThen o fun a => f a >>= g := by
  rcases o with ⟨es, d, e | a⟩
  · rfl
  · rcases h : f a d with ⟨fs, d', e | b⟩ <;> simp [andThen, bind, h]

instance : LawfulMonad Production :=
  LawfulMonad.mk' Production (fun p => funext fun c => andThen_pure (p c)) (fun _ _ => rfl)
    fun p f g => funext fun c => andThen_assoc (p c) f g

def fire (e : Event) : Production Unit := fun c => ⟨[e], c, .ok ()⟩

def fail (e : ParseError) : Production α := fun c => ⟨[], c, .error e⟩

/-- The next visible token, not consumed. -/
def next : Production Token := fun c => ⟨[], c, .ok c.next⟩

/-- Fails at the next visible token. -/
def reject : Production α := fun c => ⟨[], c, .error (.atToken c.next)⟩

/-- Consumes the next token if `f` classifies its kind, and else nothing. -/
def classify (f : Kind → Option β) : Production (Option (β × Token)) := fun c =>
  match f c.next.kind with
  | some b => ⟨[], c.advance, .ok (some (b, c.next))⟩
  | none => ⟨[], c, .ok none⟩

/-- Consumes the next token if its kind is one of `ks`, and else nothing. -/
def accept (ks : List Kind) : Production (Option Token) := fun c =>
  if c.next.kind ∈ ks then ⟨[], c.advance, .ok (some c.next)⟩ else ⟨[], c, .ok none⟩

/-- Consumes the next token, which must be of one of the kinds `ks`. -/
def expect (ks : List Kind) : Production Token := do
  match ← accept ks with
  | some t => pure t
  | none => reject

/-- The first of two alternatives that matches. -/
def orElse (p q : Production (Option α)) : Production (Option α) := do
  match ← p with
  | some a => pure (some a)
  | none => q

/-- Runs `p` under its own visibility of blanks. -/
def withSpace (seen : Bool) (p : Production α) : Production α := fun c =>
  let o := p (c.withSpace seen)
  ⟨o.events, o.cursor.withSpace c.spaceVisible, o.result⟩

/-- A production that refers to itself. It may do so only after a token has been passed; the check
is what ends the recursion, and a reference without progress fails at the next token. -/
def recursive (body : Production α → Production α) : Production α := fun c =>
  body (fun d => if d.ahead.length < c.ahead.length then recursive body d else reject d) c
termination_by c => c.ahead.length

/-- Repeats `p` while it matches. -/
def many (p : Production (Option α)) : Production (List α) :=
  recursive fun again => do
    match ← p with
    | some a => return a :: (← again)
    | none => pure []

end Production
end Stylesheet
