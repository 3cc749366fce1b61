import Stylesheet.Event
import Stylesheet.Proofs.Languages

/-! The order of events: a block ends with what it started with, media blocks hold rules, and
rules and pages hold properties. -/
namespace Stylesheet

inductive Brace where
  | opening
  | closing
deriving DecidableEq

def Kind.brace? : Kind → Option Brace
  | .lbrace => some .opening
  | .rbrace => some .closing
  | _ => none

def Token.brace? (t : Token) : Option Brace := t.kind.brace?

/-- The brace that an event at the border of a block stands for. -/
def Event.brace? : Event → Option Brace
  | .startRule _ | .startMedia _ | .startPage _ => some .opening
  | .endRule _ | .endMedia _ | .endPage _ => some .closing
  | _ => none

namespace EventWords
open Computability

def only (e : Event) : Language Event := {[e]}

theorem only_le {e : Event} {K : Language Event} (h : [e] ∈ K) : only e ≤ K :=
  Set.singleton_subset_iff.mpr h

def property : Language Event := {es | ∃ name v important, es = [.property name v important]}

def ruleOf (ss : List Selector) : Language Event :=
  only (.startRule ss) * property∗ * only (.endRule ss)

def rule : Language Event := {es | ∃ ss, es ∈ ruleOf ss}

def mediaOf (l : MediaList) : Language Event := only (.startMedia l) * rule∗ * only (.endMedia l)

def media : Language Event := {es | ∃ l, es ∈ mediaOf l}

def pageOf (pseudo : Option Text) : Language Event :=
  only (.startPage pseudo) * property∗ * only (.endPage pseudo)

def page : Language Event := {es | ∃ pseudo, es ∈ pageOf pseudo}

def charset : Language Event := {es | ∃ name, es = [.charset name]}

def importSheet : Language Event := {es | ∃ uri l, es = [.importSheet uri l]}

/-- All events but the last one. -/
def content : Language Event :=
  only .startStylesheet * opt charset * importSheet∗ * (rule + media + page)∗

def stylesheet : Language Event := content * only .endStylesheet

theorem only_le_without {e e' : Event} (h : e ≠ e') : only e ≤ without e' :=
  only_le fun hm => h (List.mem_singleton.mp hm).symm

theorem property_le_without : property ≤ without .endStylesheet := by
  intro w ⟨name, v, important, hw⟩
  simp [hw, without]

theorem rule_le_without : rule ≤ without .endStylesheet := by
  intro w ⟨ss, hw⟩
  have hle : ruleOf ss ≤ without .endStylesheet :=
    mul_le_without (mul_le_without (only_le_without (by simp)) (kstar_le_without property_le_without))
      (only_le_without (by simp))
  exact mem_of_le hle hw

/-- The last event comes only at the end. -/
theorem content_le_without : content ≤ without .endStylesheet := by
  have hcharset : charset ≤ without .endStylesheet := by
    intro w ⟨name, hw⟩
    simp [hw, without]
  have himport : importSheet ≤ without .endStylesheet := by
    intro w ⟨uri, l, hw⟩
    simp [hw, without]
  have hmedia : media ≤ without .endStylesheet := by
    intro w ⟨l, hw⟩
    have hle : mediaOf l ≤ without .endStylesheet :=
      mul_le_without (mul_le_without (only_le_without (by simp)) (kstar_le_without rule_le_without))
        (only_le_without (by simp))
    exact mem_of_le hle hw
  have hpage : page ≤ without .endStylesheet := by
    intro w ⟨pseudo, hw⟩
    have hle : pageOf pseudo ≤ without .endStylesheet :=
      mul_le_without (mul_le_without (only_le_without (by simp))
        (kstar_le_without property_le_without)) (only_le_without (by simp))
    exact mem_of_le hle hw
  have hblocks : rule + media + page ≤ without .endStylesheet :=
    add_le (add_le rule_le_without hmedia) hpage
  exact mul_le_without (mul_le_without (mul_le_without (only_le_without (by simp))
    (opt_le_without hcharset)) (kstar_le_without himport)) (kstar_le_without hblocks)

end EventWords
end Stylesheet
