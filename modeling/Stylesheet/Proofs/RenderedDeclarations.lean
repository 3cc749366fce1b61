import Stylesheet.Proofs.LegibleCalls
import Stylesheet.Proofs.WrittenSelectors

/-! Declarations are read back from their texts, up to the places of their terms. -/
namespace Stylesheet
open Computability Lexical Production

/-- A declaration as text. -/
def declarationText (name : Text) (v : Value) (important : Bool) : Text :=
  name ++ ':' :: (v.render ++ if important then " !important".toList else [])

/-- The selector `a`. -/
def plainSelector : Selector := ⟨⟨some (.named ['a']), [], .inl rfl⟩, []⟩

/-- In a rule of its own the text of a declaration is read as that declaration and nothing else, up
to the places of the terms. -/
def ReadsBack (name : Text) (v : Value) (important : Bool) : Prop :=
  blur .places (parse ("a\x7b".toList ++ declarationText name v important ++ "\x7d".toList)) =
    blur .places ⟨[.startStylesheet, .startRule [plainSelector], .property name v important,
      .endRule [plainSelector], .endStylesheet], none⟩

instance (name : Text) (v : Value) (important : Bool) : Decidable (ReadsBack name v important) :=
  inferInstanceAs (Decidable (_ = _))

namespace Grammar
open Value

theorem mark_runs (important : Bool) (z : Text) :
    Runs (accept [.importantSym]) (ending important ++ z) ('\x7d' :: z) [] (·.isSome = important) := by
  cases important with
  | false => exact (Runs.skip (ending_next false z) (by decide)).mono fun o ho => by rw [ho]; rfl
  | true =>
    have hblank : ∀ c ∈ ([' '] : Text), isBlank c := List.all_eq_true.mp (by decide)
    refine (Runs.accept hblank (measured_important z) (by decide) (by decide)).mono fun o ho => ?_
    obtain ⟨u, rfl, -⟩ := ho
    rfl

theorem same_ne_nil {v w : Value} (h : Same v w) (hv : v ≠ []) : w ≠ [] := by
  rintro rfl
  exact hv (List.map_eq_nil_iff.mp h.symm)

variable {name : Text} {v : Value} {important : Bool}

theorem declaration_fires (hname : name ∈ ident) (hv : v ∈ shape (Term.Of Token.Lexed))
    (hl : Legible important v) (z : Text) :
    Fires (Same v) declaration (name ++ ':' :: (v.render ++ (ending important ++ z))) ('\x7d' :: z)
      (fun w => [.property name w important]) fun _ => True := by
  have hident : Measured .ident name (':' :: (v.render ++ (ending important ++ z))) :=
    measured_ident_before hname (by decide) (fun h => absurd h (by decide)) _
  have hcolon : Measured .colon [':'] (v.render ++ (ending important ++ z)) :=
    measured_symbol (c := ':') (by decide) _
  have hne : v ≠ [] := by
    obtain ⟨_, ⟨t, -, rfl⟩, w, -, rfl⟩ := Language.mem_mul.mp hv
    simp
  refine .silent (Runs.accept_here hident (by decide) (by decide)) fun o ho => ?_
  obtain ⟨u, rfl, -, rfl⟩ := ho
  refine .silent (Runs.expect_here hcolon (by decide) (by decide)) fun _ _ =>
    (value_runs hv hl z).leads fun w hw => ?_
  rw [if_neg (by simpa using same_ne_nil hw hne)]
  refine (mark_runs important z).silent fun o ho => ?_
  subst ho
  exact Runs.fire.bind fun _ _ => .pure trivial

/-- A block of this one declaration. -/
theorem declarations_fires (hname : name ∈ ident) (hv : v ∈ shape (Term.Of Token.Lexed))
    (hl : Legible important v) (z : Text) :
    Fires (Same v) declarations (name ++ ':' :: (v.render ++ (ending important ++ z))) ('\x7d' :: z)
      (fun w => [.property name w important]) fun _ => True :=
  (declaration_fires hname hv hl z).done fun _ _ => (declaration_ends z).2.quiet (.pure trivial)

end Grammar

theorem plainSelector_wellFormed : ∀ t ∈ [plainSelector], t.WellFormed := by
  intro t ht
  obtain rfl := List.mem_singleton.mp ht
  refine ⟨⟨fun e he => ?_, by simp [plainSelector]⟩, by simp [plainSelector]⟩
  obtain rfl : .named ['a'] = e := Option.some.inj he
  exact mem_plainIdent (c := 'a') (n := []) (by decide) (by decide) (by decide)

theorem ruleText_eq (name : Text) (v : Value) (important : Bool) :
    "a\x7b".toList ++ declarationText name v important ++ "\x7d".toList =
      ['a'] ++ '{' :: (name ++ ':' :: (v.render ++ (ending important ++ []))) := by
  show ['a', '{'] ++ declarationText name v important ++ ['\x7d'] = _
  simp only [declarationText, ending, List.append_assoc, List.cons_append, List.nil_append,
    List.append_nil]

/-- Every declaration of a style sheet is read back from its text if its value is legible, whether
the parse that reported it succeeds or not. -/
theorem readsBack_of_legible {css name : Text} {v : Value} {important : Bool}
    (h : .property name v important ∈ (parse css).events) (hl : v.Legible important) :
    ReadsBack name v important := by
  obtain ⟨hname, hv⟩ := events_of_tokens (lexed_tokens css) _ h
  have hname : name ∈ ident := hname.mem_production (by decide)
  have hblock := Grammar.ruleBlock_fires [plainSelector] (Grammar.declarations_fires hname hv hl [])
  obtain ⟨w, hw, hparse⟩ := parse_of_fires
    (Grammar.rule_fires plainSelector_wellFormed ⟨['a'], text_mem_layouts plainSelector, [], rfl, rfl⟩ hblock)
  rw [ReadsBack, ruleText_eq]
  refine (congrArg (blur .places) hparse).trans ?_
  exact congrArg (fun u => (⟨[.startStylesheet, blur .places (.startRule [plainSelector]),
    .property (blur .places name) u important, blur .places (.endRule [plainSelector]),
    .endStylesheet], none⟩ : Parse)) hw

/-- A rule that lacks its end. -/
def unendedTerms : Text := "a\x7bb:f(1, + g(c)) -d/\"e\" h!important".toList

/-- A call with a call in it, a name with a hyphen before it, a string and a name. -/
def unendedTermsValue : Value :=
  [.term ⟨"f(1,+g(c))".toList, .function, ⟨1, 5⟩⟩, .term ⟨"-d".toList, .identifier, ⟨1, 18⟩⟩,
    .operator .slash, .term ⟨"\"e\"".toList, .string, ⟨1, 21⟩⟩, .term ⟨['h'], .identifier, ⟨1, 25⟩⟩]

/-- The arguments of the inner call, and of the outer one. -/
def innerArguments : Value := [.term ⟨['c'], .identifier, ⟨1, 5⟩⟩]

def outerArguments : Value := [.term ⟨['1'], .number, ⟨1, 9⟩⟩, .operator .comma,
  .term ⟨"+g(c)".toList, .function, ⟨1, 11⟩⟩]

/-- By themselves they are the values of declarations. -/
theorem arguments_mem : innerArguments ∈ Value.shape (Term.Of Token.Lexed) ∧
    outerArguments ∈ Value.shape (Term.Of Token.Lexed) := by
  have hevents : (parse "a\x7bb:c;d:1,+g(c)\x7d".toList).events = [.startStylesheet,
      .startRule [plainSelector], .property ['b'] innerArguments false,
      .property ['d'] outerArguments false, .endRule [plainSelector], .endStylesheet] := by cbv
  have hof := events_of_tokens (lexed_tokens "a\x7bb:c;d:1,+g(c)\x7d".toList)
  rw [hevents] at hof
  exact ⟨(hof (.property ['b'] innerArguments false) (by simp)).2,
    (hof (.property ['d'] outerArguments false) (by simp)).2⟩

theorem legible_plain {s : Text} {p : Position} {spaced : Bool}
    (h : spaced → nameLength (unsigned s ++ [' ']) = (unsigned s).length) :
    Term.Legible spaced ⟨s, .identifier, p⟩ := ⟨by simp, fun _ => h, by simp, by simp⟩

/-- An operator stands between any two arguments of the calls. -/
theorem unendedTerms_calls : Term.Legible true ⟨"f(1,+g(c))".toList, .function, ⟨1, 5⟩⟩ := by
  obtain ⟨hinner, houter⟩ := arguments_mem
  obtain ⟨hf, -⟩ : ['f'] ∈ plainIdent := mem_plainIdent (by decide) (by decide) (by decide)
  obtain ⟨hg, -⟩ : ['g'] ∈ plainIdent := mem_plainIdent (by decide) (by decide) (by decide)
  have hcall : Term.Legible false ⟨"+g(c)".toList, .function, ⟨1, 11⟩⟩ :=
    Term.legible_call (some .plus) (v := innerArguments) hg (by decide) (.inr hinner)
      ⟨legible_plain fun h => absurd h (by decide), trivial⟩ (by simp [Value.Operated, innerArguments]) _ _
  have hone : Term.Legible false ⟨['1'], .number, ⟨1, 9⟩⟩ := ⟨by simp, by simp, by simp, by simp⟩
  exact Term.legible_call none (v := outerArguments) hf (by decide) (.inr houter)
    ⟨hone, hcall, trivial⟩ (by simp [Value.Operated, outerArguments, Value.Part.term?]) _ _

theorem unendedTerms_readsBack :
    .property ['b'] unendedTermsValue true ∈ (parse unendedTerms).events ∧
    unendedTermsValue.Legible true ∧ ReadsBack ['b'] unendedTermsValue true := by
  have hmem : .property ['b'] unendedTermsValue true ∈ (parse unendedTerms).events := by
    have hevents : (parse unendedTerms).events = [.startStylesheet, .startRule [plainSelector],
      .property ['b'] unendedTermsValue true] := by cbv
    rw [hevents]
    simp
  have hquoted : Term.Legible true ⟨"\"e\"".toList, .string, ⟨1, 21⟩⟩ :=
    ⟨fun _ => by cbv, by simp, by simp, by simp⟩
  have hlegible : unendedTermsValue.Legible true :=
    ⟨unendedTerms_calls, legible_plain fun h => absurd h (by decide), hquoted,
      legible_plain fun _ => by cbv, trivial⟩
  exact ⟨hmem, hlegible, readsBack_of_legible hmem hlegible⟩

/-- A style sheet reports a declaration of `b` that is not read back. -/
def Loses (css : Text) (v : Value) (important : Bool) : Prop :=
  .property ['b'] v important ∈ (parse css).events ∧ ¬ ReadsBack ['b'] v important

instance (css : Text) (v : Value) (important : Bool) : Decidable (Loses css v important) :=
  inferInstanceAs (Decidable (_ ∧ _))

/-- Values that are not legible: a call whose arguments run together, a hyphen before an address, a
name whose escape takes the blank behind it, and a string that lacks its quote. -/
theorem illegible_lost :
    Loses "a\x7bb:f(1px 2px)\x7d".toList [.term ⟨"f(1px2px)".toList, .function, ⟨1, 5⟩⟩] false ∧
    Loses "a\x7bb:- url(c)\x7d".toList [.term ⟨"-url(c)".toList, .uri, ⟨1, 5⟩⟩] false ∧
    Loses "a\x7bb:\\62!important\x7d".toList [.term ⟨"\\62".toList, .identifier, ⟨1, 5⟩⟩] true ∧
    Loses "a\x7bb:\"c".toList [.term ⟨"\"c".toList, .string, ⟨1, 5⟩⟩] false := by
  refine ⟨?_, ?_, ?_, ?_⟩
  all_goals exact of_decide_eq_true (by cbv)

end Stylesheet
