import Stylesheet.Record
import Stylesheet.Proofs.Warnings

/-! The record over any history of steps: the texts issued since it was last cleared, each where it
first appeared. -/
namespace Stylesheet
namespace Record

/-- The texts that a step issues, in order. -/
def Step.issued : Step → List Text
  | .warn w => [w.text]
  | .clear => []
  | .tokenize css | .parse css => (warnings css).map Warning.text

def Step.isClear : Step → Bool
  | .clear => true
  | .warn _ | .tokenize _ | .parse _ => false

/-- The texts issued since the record was last cleared. -/
def issued (past : List Step) : List Text :=
  (past.rtakeWhile fun s => !s.isClear).flatMap Step.issued

variable {r : Record} {l : List Text}

/-- The texts in order, and the set that tells whether one is new. -/
structure Ledger where
  seen : Std.HashSet Text
  ordered : List Text

namespace Ledger

def empty : Ledger := ⟨∅, []⟩

def note (l : Ledger) (t : Text) : Ledger :=
  if t ∈ l.seen then l else ⟨l.seen.insert t, l.ordered ++ [t]⟩

def step (l : Ledger) : Step → Ledger
  | .clear => empty
  | s => s.issued.foldl note l

def run (l : Ledger) : List Step → List Ledger
  | [] => []
  | s :: script => l.step s :: run (l.step s) script

/-- The set holds what the list holds, and the list is that of the record. -/
structure Matches (l : Ledger) (r : Record) : Prop where
  ordered : l.ordered = r.texts
  seen : ∀ t, t ∈ l.seen ↔ t ∈ r.texts

variable {l : Ledger}

theorem empty_matches : empty.Matches .empty := ⟨rfl, by simp [empty, Record.empty]⟩

theorem Matches.note (h : l.Matches r) (w : Warning) : (l.note w.text).Matches (r.note w) := by
  by_cases hw : w.text ∈ r.texts
  · rw [Ledger.note, if_pos ((h.seen w.text).mpr hw), Record.note, if_pos (by simpa using hw)]
    exact h
  · rw [Ledger.note, if_neg (mt (h.seen w.text).mp hw), Record.note, if_neg (by simpa using hw)]
    refine ⟨by rw [h.ordered], fun t => ?_⟩
    rw [Std.HashSet.mem_insert, h.seen t, List.mem_append, List.mem_singleton, beq_iff_eq, or_comm,
      eq_comm]

theorem Matches.noteAll (ws : List Warning) (h : l.Matches r) :
    ((ws.map Warning.text).foldl Ledger.note l).Matches (r.noteAll ws) := by
  induction ws generalizing l r with
  | nil => exact h
  | cons w ws ih => exact ih (h.note w)

theorem Matches.step (h : l.Matches r) (s : Step) : (l.step s).Matches (r.step s) := by
  cases s with
  | warn w => exact h.note w
  | clear => exact empty_matches
  | tokenize css => exact h.noteAll (warnings css)
  | parse css => exact h.noteAll (warnings css)

end Ledger

end Record
end Stylesheet
