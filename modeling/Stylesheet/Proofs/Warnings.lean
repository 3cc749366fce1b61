import Stylesheet.Proofs.Places

/-! What a text is warned of: each string that a newline breaks, and then the last string or the last
comment, if it lacks its end. The comments are those that the text leaves between its tokens. -/
namespace Stylesheet
open Computability Lexical

/-! There is one way to lay out a text around its tokens. -/

variable {css before s u v x y : Text} {ts : List Token} {cs ds : List Comment}

/-- Where a comment stands in a text is where reading leads. -/
theorem Comment.Stands.position_eq {c : Comment} {behind : Text} (h : c.Stands css before behind) :
    c.position = Position.start.after before := (h .delim).counted

theorem Comment.Stands.unique {c d : Comment} {behind behind' : Text} (hc : c.Stands css before behind)
    (hd : d.Stands css before behind') (h : c.text = d.text) : c = d := by
  obtain ⟨text, p⟩ := c
  obtain ⟨text', q⟩ := d
  obtain rfl : text = text' := h
  obtain rfl : p = q := hc.position_eq.trans hd.position_eq.symm
  rfl

/-- How a warning about a place in a style sheet reads. -/
def located (what : Text) (p : Position) : Text :=
  "[CSS] ".toList ++ what ++ " at line ".toList ++ decimal p.row ++ ", char ".toList ++
    decimal p.column

section
variable {before : List Placed} {l : Placed}

end

end Stylesheet
