import Stylesheet.Parse

/-! Listeners: each is registered for one kind of event or for all, and is called with every
such event fired from then on. -/
namespace Stylesheet

/-- The call of the listener registered `listener`-th, counted from zero. -/
structure Call where
  listener : Nat
  event : Event
deriving DecidableEq

/-- What each listener waits for, in the order of registration; all events where no kind is given. -/
structure Listeners where
  filters : List (Option EventKind)
deriving DecidableEq

namespace Listeners

def empty : Listeners := ⟨[]⟩

def on (l : Listeners) (k : EventKind) : Listeners := ⟨l.filters ++ [some k]⟩

def onAny (l : Listeners) : Listeners := ⟨l.filters ++ [none]⟩

def size (l : Listeners) : Nat := l.filters.length

def isEmpty (l : Listeners) : Bool := l.filters.isEmpty

def wants (filter : Option EventKind) (e : Event) : Bool := filter.all (· = e.kind)

/-- The calls one event causes, in the order of registration. -/
def fire (l : Listeners) (e : Event) : List Call :=
  (l.filters.zipIdx.filter fun (filter, _) => wants filter e).map fun (_, i) => ⟨i, e⟩

inductive Step where
  | on (k : EventKind)
  | onAny
  | fire (e : Event)
  | parse (css : Text)

/-- The calls made during a step, and the error of a parse that failed. -/
structure Reply where
  calls : List Call
  error : Option ParseError

def reply (l : Listeners) : Step → Reply
  | .on _ | .onAny => ⟨[], none⟩
  | .fire e => ⟨l.fire e, none⟩
  | .parse css =>
    let p := Stylesheet.parse css
    ⟨p.events.flatMap l.fire, p.error⟩

def after (l : Listeners) : Step → Listeners
  | .on k => l.on k
  | .onAny => l.onAny
  | .fire _ | .parse _ => l

/-- The reply to each step, with the listeners as they then are. -/
def run (l : Listeners) : List Step → List (Reply × Listeners)
  | [] => []
  | s :: script => (l.reply s, l.after s) :: run (l.after s) script

end Listeners
end Stylesheet
