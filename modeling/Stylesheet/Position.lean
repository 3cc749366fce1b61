import Stylesheet.Text

/-! Places in a text: rows and columns counted from one, in characters.
LF, FF, CR and the pair CR LF each end a row. -/
namespace Stylesheet

structure Position where
  row : Nat
  column : Nat
deriving DecidableEq

namespace Position

def start : Position := ⟨1, 1⟩

def nextRow (p : Position) : Position := ⟨p.row + 1, 1⟩

def nextColumn (p : Position) : Position := ⟨p.row, p.column + 1⟩

/-- The place reached from `p` by reading a text. -/
def after (p : Position) : Text → Position
  | [] => p
  | '\r' :: '\n' :: s => after p.nextRow s
  | c :: s => after (if isNewline c then p.nextRow else p.nextColumn) s

/-- How messages name a place. -/
def describe (p : Position) : Text :=
  "line ".toList ++ decimal p.row ++ ", char ".toList ++ decimal p.column

end Position
end Stylesheet
