import Stylesheet.Tokens

/-! The record of warnings: each text once, in the order of its first appearance since the record
was last cleared. -/
namespace Stylesheet

structure Record where
  texts : List Text
deriving DecidableEq

namespace Record

def empty : Record := ⟨[]⟩

def note (r : Record) (w : Warning) : Record :=
  if r.texts.contains w.text then r else ⟨r.texts ++ [w.text]⟩

def noteAll (r : Record) (ws : List Warning) : Record := ws.foldl note r

/-- What can happen to the record. Parsing a text warns of what tokenizing it warns of, whether it
succeeds or not. -/
inductive Step where
  | warn (w : Warning)
  | clear
  | tokenize (css : Text)
  | parse (css : Text)

def step (r : Record) : Step → Record
  | .warn w => r.note w
  | .clear => empty
  | .tokenize css | .parse css => r.noteAll (warnings css)

/-- The record after each step. -/
def run (r : Record) : List Step → List Record
  | [] => []
  | s :: script => r.step s :: run (r.step s) script

end Record
end Stylesheet
