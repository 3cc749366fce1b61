import Stylesheet.Proofs.AcceptedSelectors
import Stylesheet.Proofs.AcceptedValues
import Stylesheet.Proofs.Statements

/-! Every style sheet of the grammar is accepted. -/
namespace Stylesheet.Grammar
open Computability Syntax Production

variable {X Z : Language Token} {ls : List Kind}

/-- The kinds behind a declaration. -/
def declarationEnds : List Kind := [.semicolon, .rbrace]

theorem declaration_leaves (hZ : Begins declarationEnds Z) :
    Leaves (Syntax.declaration * Z) declaration (either 0 Z) := by
  have hend : ∀ name v, Leaves (opt (tok [.importantSym]) * Z) (accept [.importantSym] >>= fun o =>
      fire (.property name v o.isSome) >>= fun _ => pure (some ())) (either 0 Z) := by
    intro name v
    rw [opt, add_mul, one_mul]
    refine .add ?_ ?_
    · exact .declined hZ (by decide) (by decide) ((Leaves.fire _).bind fun _ => .pure le_rfl)
    · exact .opened (by decide) fun _ => (Leaves.fire _).bind fun _ => .pure le_rfl
  have hstop : Begins stopKinds (opt (tok [.importantSym]) * Z) :=
    Starts.opt_mul (((Starts.refl (Z := 1)).anti (mul_one _).ge).mono (tok_mono (by decide)))
      (hZ.mono (tok_mono (by decide)))
  have hsum : Syntax.declaration * Z = tok [.ident] * (tok [.colon] *
      (chain Syntax.term * opt Syntax.sign * (opt (tok [.importantSym]) * Z))) := by
    simp only [Syntax.declaration, mul_assoc]
  rw [hsum]
  refine .opened (by decide) fun name => (Leaves.expect (by decide) _).bind fun _ =>
    (value_leaves hstop).bind fun v => ?_
  cases v with
  | nil => exact .zero _
  | cons t v => exact hend name.text (t :: v)

theorem optDeclaration_leaves (hZ : Begins declarationEnds Z) :
    Leaves (opt Syntax.declaration * Z) declaration fun _ => Z := by
  rw [opt, add_mul, one_mul]
  refine .add ?_ ?_
  · exact .declined hZ (by decide) (by decide) (.pure le_rfl)
  · refine (declaration_leaves hZ).mono le_rfl fun o => ?_
    cases o with
    | none => exact bot_le
    | some a => exact le_rfl

theorem declarations_leaves :
    Leaves (block * (tok [.rbrace] * Z)) declarations fun _ => tok [.rbrace] * Z := by
  have hrest : Begins declarationEnds
      ((tok [.semicolon] * opt Syntax.declaration)∗ * (tok [.rbrace] * Z)) :=
    Starts.kstar_mul (Starts.refl.mono (tok_mono (by decide)))
      (Starts.refl.mono (tok_mono (by decide)))
  have hmany : Leaves ((tok [.semicolon] * opt Syntax.declaration)∗ * (tok [.rbrace] * Z))
      (many nextDeclaration) fun _ => tok [.rbrace] * Z := by
    refine .star (nextDeclaration_tracks.advances (by simp [tok]))
      (.missed .refl (by decide) (by decide) rfl) ?_
    rw [mul_assoc]
    exact .opened (by decide) fun _ => (optDeclaration_leaves hrest).bind fun _ => .pure le_rfl
  rw [block, mul_assoc]
  exact (optDeclaration_leaves hrest).bind fun _ => hmany.bind fun _ => .pure le_rfl

theorem selectors_leave : Leaves ((tok [.comma] * (blanks * Syntax.selector))∗ * (tok [.lbrace] * Z))
    (many nextSelector) fun _ => tok [.lbrace] * Z := by
  have hpadded : Padded endKinds
      ((tok [.comma] * (blanks * Syntax.selector))∗ * (tok [.lbrace] * Z)) :=
    .kstar_mul (by decide) (by decide) (.tok (by decide) (by decide) Z)
  refine .star (nextSelector_tracks.advances (by simp [tok]))
    (.missed .refl (by decide) (by decide) rfl) ?_
  rw [mul_assoc]
  refine .opened (by decide) fun _ => (selector_leaves hpadded).bind fun o => ?_
  cases o with
  | none => exact .zero _
  | some s => exact .pure le_rfl

theorem ruleBlock_leaves (ss : List Selector) :
    Leaves (tok [.lbrace] * (block * (tok [.rbrace] * Z))) (ruleBlock ss) fun _ => Z :=
  (Leaves.expect (by decide) _).bind fun _ => (Leaves.fire _).bind fun _ =>
    declarations_leaves.bind fun _ => (Leaves.expect (by decide) Z).bind fun _ => .fire _

theorem ruleset_leaves : Leaves (Syntax.ruleset * Z) ruleset (either 0 Z) := by
  have hpadded : Padded endKinds ((tok [.comma] * (blanks * Syntax.selector))∗ *
      (tok [.lbrace] * (block * (tok [.rbrace] * Z)))) :=
    .kstar_mul (by decide) (by decide) (.tok (by decide) (by decide) _)
  have hsum : Syntax.ruleset * Z = blanks * Syntax.selector *
      ((tok [.comma] * (blanks * Syntax.selector))∗ *
        (tok [.lbrace] * (block * (tok [.rbrace] * Z)))) := by
    simp only [Syntax.ruleset, mul_assoc]
  rw [hsum]
  refine (selector_leaves hpadded).bind fun o => ?_
  cases o with
  | none => exact .zero _
  | some first => exact selectors_leave.bind fun rest => (ruleBlock_leaves _).bind fun _ => .pure le_rfl

theorem ruleset_declines (hX : Begins ls X) (hl : Apart ls unitKinds) :
    Leaves X ruleset (either X 0) := by
  refine (selector_declines hX hl).bind fun o => ?_
  cases o with
  | none => exact .pure le_rfl
  | some s => exact .zero _

theorem mediaList_leaves (hZ : Begins ls Z) (hl : Apart ls [.comma]) :
    Leaves (Syntax.mediaList * Z) mediaList fun _ => Z := by
  have hmany : Leaves ((tok [.comma] * tok [.ident])∗ * Z) (many nextMedium) fun _ => Z := by
    refine .star (nextMedium_tracks.advances (by simp [tok])) (.missed hZ hl (by decide) rfl) ?_
    rw [mul_assoc]
    exact .opened (by decide) fun _ => (Leaves.expect (by decide) _).bind fun _ => .pure le_rfl
  rw [Syntax.mediaList, mul_assoc]
  exact (Leaves.expect (by decide) _).bind fun _ => hmany.bind fun _ => .pure le_rfl

theorem media_leaves : Leaves (Syntax.media * Z) media fun _ => Z := by
  have hmany : Leaves (Syntax.ruleset∗ * (tok [.rbrace] * Z)) (many ruleset)
      fun _ => tok [.rbrace] * Z :=
    .star (ruleset_tracks.advances (by simp [Syntax.ruleset, tok]))
      (ruleset_declines .refl (by decide))
      ruleset_leaves
  have hsum : Syntax.media * Z = tok [.mediaSym] * (Syntax.mediaList *
      (tok [.lbrace] * (Syntax.ruleset∗ * (tok [.rbrace] * Z)))) := by
    simp only [Syntax.media, mul_assoc]
  rw [hsum]
  exact (Leaves.expect (by decide) _).bind fun _ => (mediaList_leaves .refl (by decide)).bind
    fun _ => (Leaves.expect (by decide) _).bind fun _ => (Leaves.fire _).bind fun _ =>
      hmany.bind fun _ => (Leaves.expect (by decide) Z).bind fun _ => .fire _

theorem page_leaves : Leaves (Syntax.page * Z) page fun _ => Z := by
  have hpseudo : Leaves (opt (tok [.colon] * tok [.ident]) *
      (tok [.lbrace] * (block * (tok [.rbrace] * Z)))) pagePseudo
      fun _ => tok [.lbrace] * (block * (tok [.rbrace] * Z)) := by
    rw [opt, add_mul, one_mul, mul_assoc]
    refine .add ?_ ?_
    · exact .declined .refl (by decide) (by decide) (.pure le_rfl)
    · exact .opened (by decide) fun _ => (Leaves.expect (by decide) _).bind fun _ => .pure le_rfl
  have hsum : Syntax.page * Z = tok [.pageSym] * (opt (tok [.colon] * tok [.ident]) *
      (tok [.lbrace] * (block * (tok [.rbrace] * Z)))) := by
    simp only [Syntax.page, mul_assoc]
  rw [hsum]
  exact (Leaves.expect (by decide) _).bind fun _ => hpseudo.bind fun _ =>
    (Leaves.expect (by decide) _).bind fun _ => (Leaves.fire _).bind fun _ =>
      declarations_leaves.bind fun _ => (Leaves.expect (by decide) Z).bind fun _ => .fire _

theorem charset_leaves (hZ : Begins ls Z) (hl : Apart ls [.charsetSym]) :
    Leaves (opt Syntax.charset * Z) charset fun _ => Z := by
  rw [opt, add_mul, one_mul, Syntax.charset, mul_assoc, mul_assoc]
  refine .add ?_ ?_
  · exact .declined hZ hl (by decide) (.pure le_rfl)
  · exact .opened (by decide) fun _ => (Leaves.expect (by decide) _).bind fun _ =>
      (Leaves.expect (by decide) Z).bind fun _ => .fire _

theorem marks_leave (hZ : Begins ls Z) (hl : Apart ls [.cdo, .cdc]) :
    Leaves (mark∗ * Z) marks fun _ => Z := by
  have hmany : Leaves (mark∗ * Z) (many (accept [.cdo, .cdc])) fun _ => Z :=
    .star ((Tracks.accept [.cdo, .cdc] (by decide)).advances (by simp [tok]))
      (.decline hZ hl (by decide))
      (.accept (by decide) _)
  exact hmany.bind fun _ => .pure le_rfl

theorem importMedia_leaves : Leaves (opt Syntax.mediaList * (tok [.semicolon] * Z)) importMedia
    fun _ => tok [.semicolon] * Z := by
  have hlist : Begins [.ident] (Syntax.mediaList * (tok [.semicolon] * Z)) := by
    rw [Syntax.mediaList, mul_assoc]
    exact .refl
  have hsemicolon : Begins [.semicolon] (tok [.semicolon] * Z) := .refl
  rw [opt, add_mul, one_mul]
  refine .add ?_ ?_
  · refine .peeked hsemicolon (by decide) fun t ht => ?_
    simp only [List.mem_singleton.mp ht, reduceCtorEq, if_false]
    exact .pure le_rfl
  · refine .peeked hlist (by decide) fun t ht => ?_
    simp only [List.mem_singleton.mp ht, if_true]
    exact (mediaList_leaves hsemicolon (by decide)).bind fun l => .pure le_rfl

theorem importSheet_leaves (hZ : Begins ls Z) (hl : Apart ls [.cdo, .cdc]) :
    Leaves (Syntax.importSheet * mark∗ * Z) importSheet (either 0 Z) := by
  have hsum : Syntax.importSheet * mark∗ * Z = tok [.importSym] * (tok [.string, .uri] *
      (opt Syntax.mediaList * (tok [.semicolon] * (mark∗ * Z)))) := by
    simp only [Syntax.importSheet, mul_assoc]
  rw [hsum]
  exact .opened (by decide) fun _ => (Leaves.expect (by decide) _).bind fun target =>
    importMedia_leaves.bind fun l => (Leaves.expect (by decide) _).bind fun _ =>
      (Leaves.fire _).bind fun _ => (marks_leave hZ hl).bind fun _ => .pure le_rfl

theorem ruleset_begins : Begins unitKinds Syntax.ruleset := by
  have hle := selector_begins.mul (Z := (tok [.comma] * (blanks * Syntax.selector))∗ *
    (tok [.lbrace] * (block * tok [.rbrace])))
  simpa only [Syntax.ruleset, mul_assoc] using hle

/-- A statement is found by the kind of its first token. -/
theorem statement_leaves (X : Language Token) :
    Leaves (statementWords * X) statement (either 0 X) := by
  have hrule : Leaves (Syntax.ruleset * X) statement (either 0 X) := by
    have hbegins : Begins unitKinds (Syntax.ruleset * X) := ruleset_begins.mul
    refine .peeked hbegins (by decide) fun t ht => ?_
    split
    case h_6 =>
      refine ruleset_leaves.bind fun o => ?_
      cases o with
      | none => exact .zero _
      | some a => exact .pure le_rfl
    all_goals
      rename_i hk
      rw [hk] at ht
      exact absurd ht (by decide)
  have hmedia : Leaves (Syntax.media * X) statement (either 0 X) := by
    have hbegins : Begins [.mediaSym] (Syntax.media * X) := by
      simp only [Syntax.media, mul_assoc]
      exact .refl
    refine .peeked hbegins (by decide) fun t ht => ?_
    simp only [List.mem_singleton.mp ht]
    exact media_leaves.bind fun _ => .pure le_rfl
  have hpage : Leaves (Syntax.page * X) statement (either 0 X) := by
    have hbegins : Begins [.pageSym] (Syntax.page * X) := by
      simp only [Syntax.page, mul_assoc]
      exact .refl
    refine .peeked hbegins (by decide) fun t ht => ?_
    simp only [List.mem_singleton.mp ht]
    exact page_leaves.bind fun _ => .pure le_rfl
  have hmark : Leaves (mark * X) statement (either 0 X) := by
    have hbody : Leaves (mark * X) (accept [.cdo, .cdc] >>= fun _ => pure (some ())) (either 0 X) := by
      refine (Leaves.accept (by decide) X).bind fun o => ?_
      cases o with
      | none => exact .zero _
      | some t => exact .pure le_rfl
    have hbegins : Begins [.cdo, .cdc] (mark * X) := .refl
    refine .peeked hbegins (by decide) fun t ht => ?_
    cases List.mem_cons.mp ht with
    | inl h =>
      simp only [h]
      exact hbody
    | inr h =>
      simp only [List.mem_singleton.mp h]
      exact hbody
  simp only [statementWords, add_mul]
  exact ((hrule.add hmedia).add hpage).add hmark

theorem statement_ends : Leaves (tok [.eof]) statement (either (tok [.eof]) 0) := by
  have hbegins : Begins [.eof] (tok [.eof]) := (Starts.refl (Z := 1)).anti (mul_one _).ge
  refine .peeked hbegins (by decide) fun t ht => ?_
  simp only [List.mem_singleton.mp ht]
  exact .pure le_rfl

/-- A style sheet from its first block on. -/
def blockWords : Language Token := Syntax.ruleset + Syntax.media + Syntax.page

theorem blockWords_add_mark : blockWords + mark = statementWords := rfl

/-- The marks before the first block can be counted to what stands before them. -/
theorem statements_le : statementWords∗ ≤ mark∗ * opt (blockWords * statementWords∗) := by
  have hmark : mark∗ ≤ statementWords∗ := kstar_mono le_sup_right
  have hblock : blockWords * statementWords∗ ≤ statementWords∗ :=
    (mul_le_mul_left le_sup_left _).trans mul_kstar_le_kstar
  have hle : mark∗ * opt (blockWords * statementWords∗) ≤ statementWords∗ := by
    have := mul_le_mul' hmark (add_le one_le_kstar hblock)
    rwa [kstar_mul_kstar] at this
  refine kstar_le_of_mul_le_right ?_ ?_
  · have := mul_le_mul' (one_le_kstar (a := mark)) (one_le_opt (blockWords * statementWords∗))
    rwa [one_mul] at this
  · rw [← blockWords_add_mark, add_mul, blockWords_add_mark]
    refine add_le ?_ ?_
    · have := mul_le_mul' (one_le_kstar (a := mark))
        ((mul_le_mul_right hle blockWords).trans (le_opt _))
      rwa [one_mul] at this
    · rw [← mul_assoc]
      exact mul_le_mul_left mul_kstar_le_kstar _

/-- Marks may stand behind imports as well. -/
theorem imports_mul_marks_le : mark∗ * (Syntax.importSheet * mark∗)∗ * mark∗ ≤
    mark∗ * (Syntax.importSheet * mark∗)∗ := by
  have hmark : mark∗ * mark ≤ mark∗ := kstar_mul_le_kstar
  have himport : Syntax.importSheet * mark∗ * mark ≤ Syntax.importSheet * mark∗ := by
    rw [mul_assoc]
    exact mul_le_mul_right hmark _
  refine mul_kstar_le_self ?_
  rw [← Language.one_add_kstar_mul_self_eq_kstar (Syntax.importSheet * mark∗)]
  rw [mul_add, mul_one, add_mul]
  refine add_le_add hmark ?_
  rw [mul_assoc, mul_assoc]
  exact mul_le_mul_right (mul_le_mul_right himport _) _

end Stylesheet.Grammar
