import Stylesheet.Proofs.Acceptance
import Stylesheet.Proofs.EventOrder

/-! A parse that fails does so at the earliest token that cannot be right: what stands before it
can be completed, and nothing behind it matters. -/
namespace Stylesheet
open Computability Grammar

/-- Tokens as texts give them: the only end token is the last, and the texts of combinator signs
and hashes are those of their kinds. -/
structure Sound (ts : List Token) : Prop where
  terminated : Terminated ts
  regular : ∀ t ∈ ts, t.Regular

instance (t : Token) : Decidable t.Regular :=
  decidable_of_iff ((t.kind = .plus → t.text = ['+']) ∧ (t.kind = .greater → t.text = ['>']) ∧
      (t.kind = .hash → t.text.head? = some '#'))
    ⟨fun h => ⟨h.1, h.2.1, h.2.2⟩, fun h => ⟨h.plus, h.greater, h.hash⟩⟩

/-- The `k`-th token is the first one that does not fit. -/
structure Misfit (ts : List Token) (k : Nat) (t : Token) : Prop where
  at_index : ts[k]? = some t
  not_space : t.isSpace = false
  /-- Whatever follows the token, the parse fails there after the same events. -/
  decided : ∀ us, Terminated us → us.take (k + 1) = ts.take (k + 1) →
    parseFrom (.ofTokens us) = parseFrom (.ofTokens ts)
  /-- Something else in its place could have led to a success. -/
  viable : ∃ x, Sound (ts.take k ++ x) ∧ (parseFrom (.ofTokens (ts.take k ++ x))).error = none

theorem Terminated.snoc {w : List Token} {t : Token} (hw : ∀ u ∈ w, u.kind ≠ .eof)
    (ht : t.kind = .eof) : Terminated (w ++ [t]) := by
  induction w with
  | nil => exact .eof ht
  | cons u w ih => exact .cons (hw u (by simp)) (ih fun v hv => hw v (List.mem_cons_of_mem u hv))

/-- The beginning of a style sheet goes on to a whole one. -/
theorem exists_completion {w x : List Token} (h : Sound (w ++ x)) (hx : x ≠ [])
    (hw : Completes bodyWords w) :
    ∃ y, Sound (w ++ y) ∧ (parseFrom (.ofTokens (w ++ y))).error = none := by
  obtain ⟨v, hv, hbody⟩ := hw
  have hend : Terminated (w ++ v ++ [Kind.eof.sample]) := by
    refine .snoc (fun u hu => ?_) rfl
    cases List.mem_append.mp hu with
    | inl hu => exact h.terminated.ne_eof_of_mem hx hu
    | inr hu => exact (hv u hu).2
  have hmem : w ++ v ++ [Kind.eof.sample] ∈ Syntax.stylesheet :=
    Language.append_mem_mul hbody (mem_tok (s := []) (by simp) (by simp [Kind.sample]))
  rw [List.append_assoc] at hend hmem
  refine ⟨v ++ [Kind.eof.sample], ⟨hend, fun t ht => ?_⟩, (parseFrom_error_eq_none_iff hend).mpr hmem⟩
  simp only [List.mem_append, List.mem_singleton] at ht
  rcases ht with ht | ht | rfl
  · exact h.regular t (List.mem_append_left x ht)
  · exact (hv t ht).1
  · exact Kind.eof.sample_regular

theorem parse_fails_at_misfit {ts : List Token} {e : ParseError} (h : Sound ts)
    (he : (parseFrom (.ofTokens ts)).error = some e) :
    ∃ k t, Misfit ts k t ∧ e = .atToken t := by
  obtain ⟨w, r, es, rfl, -, -, hp⟩ | ⟨w, t, r, es, rfl, ht, hv, hp⟩ := parseFrom_cases h.terminated
  · simp [hp] at he
  · have hrun := hp r h.terminated
    have htake : (w ++ t :: r).take w.length = w := by simp
    refine ⟨w.length, t, ⟨by simp, ht, fun us hus hu => ?_, ?_⟩, ?_⟩
    · have hus' := eq_append_of_take hu
      rw [hus'] at hus ⊢
      rw [hp _ hus, hrun]
    · rw [htake]
      exact exists_completion h (by simp) hv.tokens
    · rw [hrun] at he
      exact (Option.some.inj he).symm

/-- The tokens of `a{c:#12}`. -/
def shade : List Token :=
  [⟨.ident, ['a'], ⟨1, 1⟩⟩, ⟨.lbrace, ['{'], ⟨1, 2⟩⟩, ⟨.ident, ['c'], ⟨1, 3⟩⟩,
    ⟨.colon, [':'], ⟨1, 4⟩⟩, ⟨.hash, "#12".toList, ⟨1, 5⟩⟩, ⟨.rbrace, ['}'], ⟨1, 8⟩⟩,
    ⟨.eof, [], ⟨1, 9⟩⟩]

theorem shade_sound : Sound shade where
  terminated := .snoc (w := shade.dropLast) (by decide) rfl
  regular := by decide

/-- The hash has been passed when it turns out to be no color, and is reported all the same. -/
theorem shade_misfit : Sound shade ∧
    (parseFrom (.ofTokens shade)).error = some ⟨"#12".toList, ⟨1, 5⟩⟩ ∧
    ∃ k t, Misfit shade k t ∧ (⟨"#12".toList, ⟨1, 5⟩⟩ : ParseError) = .atToken t :=
  ⟨shade_sound, by decide +kernel, parse_fails_at_misfit shade_sound (by decide +kernel)⟩

end Stylesheet
