import Stylesheet.Proofs.AcceptedStatements
import Stylesheet.Proofs.Parsing

/-! A parse succeeds for the tokens of the grammar and for no others. -/
namespace Stylesheet
open Computability Production

namespace Grammar
open Syntax

/-- A style sheet from its first block on, or from its end if it has none. -/
def blocksOnward : Language Token := opt (blockWords * statementWords∗) * tok [.eof]

/-- The kinds a block starts with, and that of the end. -/
def blockKinds : List Kind := .eof :: .mediaSym :: .pageSym :: unitKinds

theorem blocksOnward_begins : Begins blockKinds blocksOnward := by
  have hrule : Begins blockKinds Syntax.ruleset := ruleset_begins.mono (tok_mono (by decide))
  have hmedia : Begins blockKinds Syntax.media := by
    simp only [Syntax.media, mul_assoc]
    exact Starts.refl.mono (tok_mono (by decide))
  have hpage : Begins blockKinds Syntax.page := by
    simp only [Syntax.page, mul_assoc]
    exact Starts.refl.mono (tok_mono (by decide))
  have hend : Begins blockKinds (tok [.eof]) :=
    ((Starts.refl (Z := 1)).anti (mul_one _).ge).mono (tok_mono (by decide))
  exact Starts.opt_mul ((hrule.add hmedia).add hpage).mul hend

theorem statement_advances : Advances statement := by
  intro x hx
  refine Reads.mono (statement_reads hx) (fun {o w r es} _ h hs hw => ?_) fun _ _ => trivial
  cases o with
  | none => simp at hs
  | some a => exact nil_notMem_statementWords (hw ▸ Trace.tokens h)

theorem statements_leave : Leaves (statementWords∗ * tok [.eof]) (many statement)
    fun _ => tok [.eof] := .star statement_advances statement_ends (statement_leaves _)

theorem blocks_leave : Leaves blocksOnward (many statement) fun _ => tok [.eof] := by
  have hle : opt (blockWords * statementWords∗) ≤ statementWords∗ :=
    add_le one_le_kstar ((mul_le_mul_left le_sup_left _).trans mul_kstar_le_kstar)
  exact statements_leave.mono (mul_le_mul_left hle _) fun _ => le_rfl

theorem importsOnward_begins : Begins (.importSym :: blockKinds)
    ((Syntax.importSheet * mark∗)∗ * blocksOnward) := by
  have hsheet : Begins (.importSym :: blockKinds) (Syntax.importSheet * mark∗) := by
    simp only [Syntax.importSheet, mul_assoc]
    exact Starts.refl.mono (tok_mono (by decide))
  exact hsheet.kstar_mul (blocksOnward_begins.mono (tok_mono (by decide)))

theorem imports_leave : Leaves ((Syntax.importSheet * mark∗)∗ * blocksOnward) (many importSheet)
    fun _ => blocksOnward :=
  .star (importSheet_tracks.advances (by simp [Syntax.importSheet, tok]))
    (.missed blocksOnward_begins (by decide) (by decide) rfl)
    (importSheet_leaves importsOnward_begins (by decide))

theorem stylesheet_leaves : Leaves Syntax.stylesheet stylesheet fun _ => tok [.eof] := by
  have hmarks : Begins (.cdo :: .cdc :: .importSym :: blockKinds)
      (mark∗ * ((Syntax.importSheet * mark∗)∗ * blocksOnward)) :=
    Starts.kstar_mul (((Starts.refl (Z := 1)).anti (mul_one _).ge).mono (tok_mono (by decide)))
      (importsOnward_begins.mono (tok_mono (by decide)))
  have hsum : Syntax.stylesheet ≤
      opt Syntax.charset * (mark∗ * ((Syntax.importSheet * mark∗)∗ * blocksOnward)) := by
    have hle : mark∗ * (Syntax.importSheet * mark∗)∗ * statementWords∗ ≤
        mark∗ * (Syntax.importSheet * mark∗)∗ * opt (blockWords * statementWords∗) := by
      calc mark∗ * (Syntax.importSheet * mark∗)∗ * statementWords∗
          ≤ mark∗ * (Syntax.importSheet * mark∗)∗ *
              (mark∗ * opt (blockWords * statementWords∗)) := mul_le_mul_right statements_le _
        _ = mark∗ * (Syntax.importSheet * mark∗)∗ * mark∗ *
              opt (blockWords * statementWords∗) := (mul_assoc _ _ _).symm
        _ ≤ _ := mul_le_mul_left imports_mul_marks_le _
    have := mul_le_mul_right (mul_le_mul_left hle (tok [.eof])) (opt Syntax.charset)
    simpa only [Syntax.stylesheet, statementWords, blocksOnward, mul_assoc] using this
  refine Leaves.mono ?_ hsum fun _ => le_rfl
  exact (Leaves.fire _).bind fun _ => (charset_leaves hmarks (by decide)).bind fun _ =>
    (marks_leave importsOnward_begins (by decide)).bind fun _ => imports_leave.bind fun _ =>
      blocks_leave.bind fun _ => .fire _

end Grammar

open Grammar

theorem mem_tok_eof {r : List Token} (h : AtEnd r) : r ∈ Syntax.tok [.eof] := by
  obtain ⟨s, t, rfl, hs, ht⟩ := h
  exact mem_tok hs (by simp [ht])

theorem parseFrom_error_eq_none_iff {ts : List Token} (h : Terminated ts) :
    (parseFrom (.ofTokens ts)).error = none ↔ ts ∈ Syntax.stylesheet := by
  constructor
  · intro he
    obtain ⟨w, r, es, rfl, hend, htrace, -⟩ | ⟨w, t, r, es, rfl, -, -, hp⟩ := parseFrom_cases h
    · exact Language.append_mem_mul htrace.tokens (mem_tok_eof hend)
    · simp [hp r h] at he
  · intro hm
    have hreads : LeavesAt ts Grammar.stylesheet fun _ => Syntax.tok [.eof] := stylesheet_leaves ts h hm
    cases hreads with
    | @success w r es a hw hr run spec =>
      subst hw
      obtain ⟨d, hd, -⟩ := run r hr.sameNext h _ h.before
      simp [parseFrom, hd]
    | failure _ _ _ spec => exact spec.elim

theorem parse_succeeds_iff (css : Text) :
    (parse css).error = none ↔ tokens css ∈ Syntax.stylesheet := by
  have hbefore : Cursor.ofText css = .ofTokens (tokens css) := rfl
  rw [parse, hbefore]
  exact parseFrom_error_eq_none_iff (tokens_terminated css)

end Stylesheet
