import Stylesheet.Parse
import Stylesheet.Proofs.Statements
import Stylesheet.Proofs.Tiling

/-! Whole parses: they succeed at the end of the tokens, or fail at one of them whatever follows. -/
namespace Stylesheet
open Computability Grammar

theorem Tiles.terminated {s : Text} {ts : List Token} (h : Tiles s ts) : Terminated ts := by
  induction h with
  | last _ he _ => exact .eof he
  | token _ _ hk _ ih => exact .cons hk ih

theorem tokens_terminated (css : Text) : Terminated (tokens css) := (tiles_tokens css).terminated

/-- What a parse of terminated tokens is. -/
theorem parseFrom_cases {x : List Token} (hx : Terminated x) :
    (∃ w r es, x = w ++ r ∧ AtEnd r ∧ Trace bodyWords EventWords.content w es ∧
      parseFrom (.ofTokens x) = ⟨es ++ [.endStylesheet], none⟩) ∨
    ∃ w t r es, x = w ++ t :: r ∧ t.isSpace = false ∧ Viable bodyWords EventWords.content w es ∧
      ∀ r', Terminated (w ++ t :: r') →
        parseFrom (.ofTokens (w ++ t :: r')) = ⟨es, some (.atToken t)⟩ := by
  cases stylesheet_reads hx with
  | @success w r es a hw hr run spec =>
    obtain ⟨hend, fs, rfl, htrace⟩ := spec
    subst hw
    obtain ⟨d, hd, -⟩ := run r hr.sameNext hx _ hx.before
    exact .inl ⟨w, r, fs, rfl, hend, htrace, by simp [parseFrom, hd]⟩
  | @failure w r t es hw ht run spec =>
    refine .inr ⟨w, t, r, es, hw, ht, spec, fun r' hr => ?_⟩
    obtain ⟨d, hd⟩ := run r' hr _ hr.before
    simp [parseFrom, hd]

end Stylesheet
