import Stylesheet.Grammar.Selectors
import Stylesheet.Proofs.Tracks

/-! The productions of selectors track the grammar of selectors. -/
namespace Stylesheet.Grammar
open Computability Syntax Production

theorem hash_tracks : Tracks hash (either 1 (tok [.hash])) fun _ => 1 := by
  unfold hash
  refine .ifAccept [.hash] (by decide) (fun _ => .found) rfl (fun o => ?_) le_rfl le_rfl
  cases o <;> simp

theorem className_tracks :
    Tracks className (either 1 (tok [.dot] * tok [.ident])) fun _ => 1 := by
  refine .ifAccept [.dot] (by decide) (fun _ => .next (.expect [.ident] (by decide)) fun _ => .found) rfl
    (fun o => ?_) le_rfl le_rfl
  cases o <;> simp

theorem attribTest_tracks : Tracks attribTest
    (fun _ => opt (tok [.equals, .includes, .dashMatch] * tok [.ident, .string])) fun _ => 1 := by
  have hvalue : ∀ op : Token, Tracks (expect [.ident, .string] >>= fun value =>
      Pure.pure (op.text ++ value.text)) (fun _ => tok [.ident, .string] * 1) fun _ => 1 :=
    fun op => .next (.expect _ (by decide)) fun _ => .done
  refine .option (.accept _ (by decide)) hvalue .done ?_ ?_
  · intro _
    simp [opt]
  · intro _
    simp [opt]

theorem attrib_tracks : Tracks attrib (either 1 (tok [.lbracket] * tok [.ident] *
    opt (tok [.equals, .includes, .dashMatch] * tok [.ident, .string]) * tok [.rbracket]))
    fun _ => 1 := by
  refine .ifAccept [.lbracket] (by decide) (fun _ => .next (.expect [.ident] (by decide)) fun _ =>
    .next attribTest_tracks fun _ => .next (.expect [.rbracket] (by decide)) fun _ => .found) rfl
    (fun o => ?_) le_rfl le_rfl
  cases o <;> simp [mul_assoc]

theorem pseudoFunction_tracks : Tracks pseudoFunction
    (fun _ => tok [.function] * opt (tok [.ident]) * tok [.rparen]) fun _ => 1 := by
  have hargument : Tracks (accept [.ident]) (fun _ => opt (tok [.ident])) fun _ => 1 :=
    (Tracks.accept [.ident] (by decide)).mono (either_le_opt _) fun _ => le_rfl
  refine .mono (.next (.expect [.function] (by decide)) fun _ => .next hargument fun _ =>
    .next (.expect [.rparen] (by decide)) fun _ => .done) ?_ fun _ => le_rfl
  intro _
  simp [mul_assoc]

theorem pseudo_tracks : Tracks pseudo (either 1 (tok [.colon] *
    (tok [.ident] + tok [.function] * opt (tok [.ident]) * tok [.rparen]))) fun _ => 1 := by
  refine .ifAccept
    (P := either 0 (tok [.ident] + tok [.function] * opt (tok [.ident]) * tok [.rparen]))
    [.colon] (by decide) (fun colon => ?_) rfl (fun o => ?_) le_rfl le_rfl
  · refine .option (.accept _ (by decide)) (fun _ => .found) (.next pseudoFunction_tracks fun _ => .found) ?_ ?_
    all_goals
      intro o
      cases o <;> simp
  · cases o <;> simp

/-- A modifier whose first token may have blanks before it. -/
theorem modifier_tracks : Tracks modifier (either 1 (blanks * Syntax.modifier)) fun _ => 1 := by
  refine (Tracks.orElse hash_tracks (.orElse className_tracks
    (.orElse attrib_tracks pseudo_tracks))).mono (fun o => ?_) fun _ => le_rfl
  cases o with
  | none => simp
  | some m => simp only [either_some, Syntax.modifier, tok, mul_add, mul_assoc, add_assoc, le_refl]

theorem isSome_elementName {t : Token} (ht : t.kind ∈ [Kind.ident, .star]) :
    (ElementName.ofToken? t).isSome := by
  simp only [List.mem_cons, List.not_mem_nil, or_false] at ht
  cases ht with
  | inl h => simp [ElementName.ofToken?, h]
  | inr h => simp [ElementName.ofToken?, h]

theorem elementName_tracks :
    Tracks elementName (either 1 (tok [.ident, .star])) fun _ => 1 where
  reads x hx := by
    refine Reads.bind (F := fun _ _ => False)
      (T := fun o w _ es => Trace (either 1 (tok [.ident, .star]) o) 1 w es ∧
        ∀ t ∈ o, (ElementName.ofToken? t).isSome) (.accept hx (by decide) ?_ ?_) ?_ False.elim
    · intro s t r _ hs _ ht
      exact ⟨Plain.trace (by decide) hs ht, fun u hu => Option.some.inj hu ▸ isSome_elementName ht⟩
    · intro s t r _ _ _ _
      exact ⟨.nil Language.nil_mem_one Language.nil_mem_one, by simp⟩
    · intro o w r es _ hr h
      cases o with
      | none => exact .pure hr (by simpa using h.1)
      | some t =>
        obtain ⟨e, he⟩ := Option.isSome_iff_exists.mp (h.2 t rfl)
        exact .pure hr (by simpa [he] using h.1)
  completable := ⟨none, (Trace.nil Language.nil_mem_one Language.nil_mem_one).viable⟩

theorem adjoiningModifier_tracks :
    Tracks adjoiningModifier (either 1 Syntax.modifier) fun _ => 1 where
  reads x hx := by
    refine Reads.bind (F := fun _ _ => False) (T := fun t w r es => w = [] ∧ es = [] ∧ r.head? = some t)
      (.nextVisible hx fun h => by simp [h]) ?_ False.elim
    intro t w r es _ hr ⟨hw, he, ht⟩
    subst hw he
    cases hs : t.isSpace with
    | true =>
      rw [if_pos rfl]
      exact .pure hr (.nil Language.nil_mem_one Language.nil_mem_one)
    | false =>
      have hhead : ∀ {v q : List Token}, r = v ++ q → ∀ u ∈ v.head?, u.isSpace = false := by
        intro v q hv u hu
        cases v with
        | nil => simp at hu
        | cons u' v =>
          simp only [hv, List.cons_append, List.head?_cons, Option.some.injEq, Option.mem_def] at ht hu
          rw [← hu, ht, hs]
      rw [if_neg (by simp)]
      refine Reads.mono (modifier_tracks.reads r hr) (fun {o v q es} hv h => ?_)
        fun {v u q es} hv h => ?_
      · cases o with
        | none => exact h
        | some m => exact ⟨mem_of_mem_blanks_mul (hhead hv) h.tokens, h.events, h.braces⟩
      · obtain ⟨o, h⟩ := h
        cases o with
        | none => exact ⟨none, h⟩
        | some m => exact ⟨some m, h.tokens.of_blanks_mul (hhead hv), h.events, h.braces⟩
  completable := ⟨none, (Trace.nil Language.nil_mem_one Language.nil_mem_one).viable⟩

/-- Modifiers with no blanks before them. -/
theorem manyAdjoining_tracks :
    Tracks (many adjoiningModifier) (fun _ => Syntax.modifier∗ * 1) fun _ => 1 :=
  adjoiningModifier_tracks.manyQuiet (by simp [Syntax.modifier]) Language.nil_mem_one

theorem simpleSelector_tracks :
    Tracks simpleSelector (either 1 (blanks * unit)) fun _ => 1 := by
  refine .option elementName_tracks (fun _ => .next manyAdjoining_tracks fun _ => .found)
    (.option (L := either 1 (blanks * Syntax.modifier * Syntax.modifier∗)) modifier_tracks
      (fun _ => .next manyAdjoining_tracks fun _ => .found)
      .missed ?_ ?_) ?_ ?_
  · intro o
    cases o <;> simp
  · intro o
    cases o <;> simp
  · intro o
    cases o with
    | none => simp
    | some u => simpa [unit, tok, mul_assoc] using mul_le_mul_right le_sup_left blanks
  · intro o
    cases o with
    | none => simp
    | some u => simpa [unit, mul_assoc] using mul_le_mul_right le_sup_right blanks

theorem isSome_combinator (k : Kind) :
    (Combinator.ofKind? k).isSome ↔ k ∈ [Kind.plus, .greater] := by
  cases k <;> simp [Combinator.ofKind?]

theorem combinator_tracks : Tracks combinator (either 1 (tok [.plus, .greater])) fun _ => 1 :=
  .classified (by decide) isSome_combinator (fun _ => ⟨_, rfl⟩) rfl

/-- What a unit can be replaced by in a beginning of a selector. -/
theorem viable_unit : Viable (blanks * unit) 1 [] [] := by
  have hident : [Kind.ident.sample] ∈ here [.ident, .star] := ⟨_, by simp [Kind.sample], rfl⟩
  have hunit : [Kind.ident.sample] ∈ unit :=
    .inl (Language.append_mem_mul hident (Language.nil_mem_kstar Syntax.modifier))
  have hname : [Kind.ident.sample] ∈ blanks * unit :=
    Language.append_mem_mul (Language.nil_mem_kstar _) hunit
  refine ⟨⟨[Kind.ident.sample], ?_, hname⟩, ⟨[], Language.nil_mem_one⟩, rfl⟩
  intro t ht
  obtain rfl := List.mem_singleton.mp ht
  exact ⟨Kind.ident.sample_regular, by decide⟩

theorem linked_tracks (c : Combinator) :
    Tracks (linked c) (either 0 (blanks * unit)) fun _ => 1 := by
  have hreject : Tracks (reject : Production (Option (Combinator × SimpleSelector)))
      (either 0 (blanks * unit)) fun _ => 1 :=
    .reject (a := some (c, ⟨some .universal, [], .inl rfl⟩)) viable_unit (by simp)
  refine .option simpleSelector_tracks (fun _ => .found) hreject ?_ ?_
  all_goals
    intro o
    cases o <;> simp

theorem linkedAfterSpace_tracks : Tracks linkedAfterSpace
    (either 1 (tok [.plus, .greater] * (blanks * unit) + blanks * unit)) fun _ => 1 := by
  refine .option (Q := either 1 (blanks * unit)) combinator_tracks linked_tracks
    (.option simpleSelector_tracks (fun _ => .found) .missed ?_ ?_) ?_ ?_
  all_goals
    intro o
    cases o <;> simp

theorem acceptBlank_tracks :
    Tracks (withSpace true (accept [.space])) (either 1 (here [.space])) fun _ => 1 where
  reads x hx := by
    refine .acceptBlank hx ?_ ?_
    · intro t r _ ht
      have hs : t.isSpace := by simp [Token.isSpace, ht]
      exact ⟨⟨t, by simp [ht], rfl⟩, rfl, (braces_blanks (by simp [hs])).symm⟩
    · intro t r _ _
      exact .nil Language.nil_mem_one Language.nil_mem_one
  completable := ⟨none, (Trace.nil Language.nil_mem_one Language.nil_mem_one).viable⟩

theorem link_tracks : Tracks link (either (opt (here [.space])) Syntax.link) fun _ => 1 := by
  refine .option (Q := either (opt (here [.space]))
      (here [.space] * (tok [.plus, .greater] * (blanks * unit) + blanks * unit)))
    combinator_tracks linked_tracks
    (.option acceptBlank_tracks (fun _ => linkedAfterSpace_tracks) .missed ?_ ?_) ?_ ?_
  · intro o
    cases o <;> simp [opt]
  · intro o
    cases o <;> simp [opt]
  · intro o
    cases o with
    | none => simp
    | some u => simp [Syntax.link, tok, mul_assoc]
  · intro o
    cases o with
    | none => simp
    | some u =>
      have hblank : here [.space] * blanks ≤ blanks := mul_kstar_le_kstar
      have hcombined : here [.space] * (tok [.plus, .greater] * (blanks * unit)) ≤ Syntax.link := by
        refine le_trans ?_ le_sup_left
        simpa [tok, mul_assoc] using mul_le_mul_left hblank (here [.plus, .greater] * (blanks * unit))
      have hplain : here [.space] * (blanks * unit) ≤ Syntax.link := by
        simp [Syntax.link, mul_assoc]
      simpa only [either_some, one_mul, mul_add] using add_le hcombined hplain

/-- A selector with the blanks around it. -/
theorem selector_tracks : Tracks selector (either 1 (blanks * Syntax.selector)) fun _ => 1 := by
  have hlinks : Tracks (many link) (fun _ => Syntax.link∗ * opt (here [.space])) fun _ => 1 :=
    link_tracks.manyQuiet (by simp [Syntax.link, unit, Syntax.modifier]) (nil_mem_opt _)
  refine .option simpleSelector_tracks (fun _ => .next hlinks fun _ => .found) .missed ?_ ?_
  · intro o
    cases o with
    | none => simp
    | some s =>
      have hblank : opt (here [.space]) ≤ blanks := add_le (one_le_kstar) (le_kstar)
      have := mul_le_mul_right hblank (blanks * unit * Syntax.link∗)
      simpa [Syntax.selector, mul_assoc] using this
  · intro o
    cases o <;> simp

end Stylesheet.Grammar
