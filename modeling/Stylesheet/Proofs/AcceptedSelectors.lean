import Stylesheet.Proofs.Leaves
import Stylesheet.Proofs.Selectors

/-! Every selector of the grammar is accepted, up to the blanks behind it. -/
namespace Stylesheet.Grammar
open Computability Syntax Production

/-- The kinds a modifier starts with. -/
def modifierKinds : List Kind := [.hash, .dot, .lbracket, .colon]

/-- The kinds a selector starts with. -/
def unitKinds : List Kind := [.ident, .star, .hash, .dot, .lbracket, .colon]

variable {X Z : Language Token} {ls : List Kind}

theorem className_leaves :
    Leaves (tok [.dot] * (tok [.ident] * Z)) className (either 0 Z) :=
  .opened (by decide) fun _ => (Leaves.expect (by decide) Z).bind fun _ => .pure le_rfl

theorem attribTest_leaves : Leaves
    (opt (tok [.equals, .includes, .dashMatch] * tok [.ident, .string]) * (tok [.rbracket] * Z))
    attribTest fun _ => tok [.rbracket] * Z := by
  rw [opt, add_mul, one_mul, mul_assoc]
  have hnone : Leaves (tok [.rbracket] * Z) attribTest fun _ => tok [.rbracket] * Z :=
    .declined .refl (by decide) (by decide) (.pure le_rfl)
  have hsome : Leaves (tok [.equals, .includes, .dashMatch] *
      (tok [.ident, .string] * (tok [.rbracket] * Z))) attribTest fun _ => tok [.rbracket] * Z :=
    .opened (by decide) fun _ => (Leaves.expect (by decide) _).bind fun _ => .pure le_rfl
  exact hnone.add hsome

theorem attrib_leaves : Leaves (tok [.lbracket] * (tok [.ident] *
    (opt (tok [.equals, .includes, .dashMatch] * tok [.ident, .string]) * (tok [.rbracket] * Z))))
    attrib (either 0 Z) :=
  .opened (by decide) fun _ => (Leaves.expect (by decide) _).bind fun _ =>
    attribTest_leaves.bind fun _ => (Leaves.expect (by decide) Z).bind fun _ => .pure le_rfl

theorem pseudoFunction_leaves : Leaves
    (tok [.function] * (opt (tok [.ident]) * (tok [.rparen] * Z))) pseudoFunction fun _ => Z := by
  have hclosing : Leaves (tok [.rparen] * Z) (expect [.rparen]) fun _ => Z :=
    .expect (by decide) Z
  refine (Leaves.expect (by decide) _).bind fun function => ?_
  rw [opt, add_mul, one_mul]
  refine .add ?_ ?_
  · exact .declined .refl (by decide) (by decide) (hclosing.bind fun _ => .pure le_rfl)
  · exact .opened (by decide) fun _ => hclosing.bind fun _ => .pure le_rfl

theorem pseudo_leaves : Leaves (tok [.colon] * ((tok [.ident] +
    tok [.function] * opt (tok [.ident]) * tok [.rparen]) * Z)) pseudo (either 0 Z) := by
  refine .opened (by decide) fun colon => ?_
  rw [add_mul, mul_assoc, mul_assoc]
  refine .add ?_ ?_
  · exact .opened (by decide) fun _ => .pure le_rfl
  · exact .declined .refl (by decide) (by decide) (pseudoFunction_leaves.bind fun _ => .pure le_rfl)

theorem modifier_leaves : Leaves (blanks * Syntax.modifier * Z) modifier (either 0 Z) := by
  have hhash : Leaves (tok [.hash] * Z) modifier (either 0 Z) :=
    .orElse_left (.opened (by decide) fun _ => .pure le_rfl)
  have hclass : Leaves (tok [.dot] * (tok [.ident] * Z)) modifier (either 0 Z) :=
    .orElse_right (.missed .refl (by decide) (by decide) rfl) (.orElse_left className_leaves)
  have hattrib : Leaves (tok [.lbracket] * (tok [.ident] * (opt (tok [.equals, .includes,
      .dashMatch] * tok [.ident, .string]) * (tok [.rbracket] * Z)))) modifier (either 0 Z) :=
    .orElse_right (.missed .refl (by decide) (by decide) rfl)
      (.orElse_right (.missed .refl (by decide) (by decide) rfl) (.orElse_left attrib_leaves))
  have hpseudo : Leaves (tok [.colon] * ((tok [.ident] + tok [.function] * opt (tok [.ident]) *
      tok [.rparen]) * Z)) modifier (either 0 Z) :=
    .orElse_right (.missed .refl (by decide) (by decide) rfl)
      (.orElse_right (.missed .refl (by decide) (by decide) rfl)
        (.orElse_right (.missed .refl (by decide) (by decide) rfl) pseudo_leaves))
  have hsum : blanks * Syntax.modifier * Z = tok [.hash] * Z + tok [.dot] * (tok [.ident] * Z) +
      tok [.lbracket] * (tok [.ident] * (opt (tok [.equals, .includes, .dashMatch] *
        tok [.ident, .string]) * (tok [.rbracket] * Z))) +
      tok [.colon] * ((tok [.ident] + tok [.function] * opt (tok [.ident]) * tok [.rparen]) * Z) := by
    simp only [Syntax.modifier, tok, mul_add, add_mul, mul_assoc]
  rw [hsum]
  exact ((hhash.add hclass).add hattrib).add hpseudo

theorem modifier_declines (hX : Begins ls X) (hl : Apart ls modifierKinds) :
    Leaves X modifier (either X 0) := by
  have hhash : Leaves X hash (either X 0) :=
    .missed hX (hl.anti (List.Subset.refl _) (by decide)) (by decide) rfl
  have hclass : Leaves X className (either X 0) :=
    .missed hX (hl.anti (List.Subset.refl _) (by decide)) (by decide) rfl
  have hattrib : Leaves X attrib (either X 0) :=
    .missed hX (hl.anti (List.Subset.refl _) (by decide)) (by decide) rfl
  have hpseudo : Leaves X pseudo (either X 0) :=
    .missed hX (hl.anti (List.Subset.refl _) (by decide)) (by decide) rfl
  exact .orElse_right hhash (.orElse_right hclass (.orElse_right hattrib hpseudo))

theorem elementName_leaves : Leaves (tok [.ident, .star] * Z) elementName (either 0 Z) := by
  intro x hx hm
  obtain ⟨s, t, z, rfl, hs, hk, hz⟩ := split_tok hm
  have ht : t.isSpace = false := (show Apart _ [] by decide).isSpace hk
  refine Reads.bind (T := fun o _ r _ => (o.bind ElementName.ofToken?).isSome ∧ r ∈ Z)
    (F := fun _ _ => False) (.accept hx (by decide) ?_ ?_) ?_ id
  · intro s' t' r' hr hs' ht' hk'
    exact ⟨isSome_elementName hk', (split_unique hr hs ht hs' ht').2 ▸ hz⟩
  · intro s' t' r' hr hs' ht' hk'
    exact absurd ((split_unique hr hs ht hs' ht').1 ▸ hk) hk'
  · intro o w r es _ hr h
    cases o with
    | none => simp at h
    | some t =>
      obtain ⟨e, he⟩ := Option.isSome_iff_exists.mp h.1
      refine .pure hr ?_
      rw [show ElementName.ofToken? t = some e from he]
      exact h.2

/-- No modifier comes next where a blank does, nor where its kind is that of none. -/
theorem adjoiningModifier_declines (hX : Starts (here (.space :: ls)) X)
    (hl : Apart ls modifierKinds) : Leaves X adjoiningModifier (either X 0) := by
  intro x hx hm
  refine Reads.bind (T := fun t w r _ => r = x ∧ r.head? = some t) (F := fun _ _ => False)
    (.nextVisible hx fun h => ⟨rfl, by simp [h]⟩) ?_ id
  intro t w r es _ hr ⟨he, ht⟩
  subst he
  cases hs : t.isSpace with
  | true =>
    rw [if_pos rfl]
    exact .pure hr hm
  | false =>
    have hbegins : Begins ls {r} := by
      intro y hy
      obtain rfl : y = r := hy
      obtain ⟨u, ⟨t', hk, rfl⟩, v, -, rfl⟩ := Language.mem_mul.mp (mem_of_le hX hm)
      obtain rfl : t' = t := by simpa using ht
      have hls : t'.kind ∈ ls := by
        cases List.mem_cons.mp hk with
        | inl h => simp [Token.isSpace, h] at hs
        | inr h => exact h
      exact Language.append_mem_mul (mem_tok (s := []) (by simp) hls) (Set.mem_univ v)
    rw [if_neg (by simp)]
    refine Reads.mono (modifier_declines hbegins hl r hr rfl) (fun {o _ q _} _ hq => ?_) fun _ h => h
    cases o with
    | none => exact (show q = r from hq) ▸ hm
    | some m => exact hq

theorem modifier_starts : Starts (here modifierKinds) Syntax.modifier := by
  refine .add (.add (.add ?_ ?_) ?_) ?_
  · exact (Starts.refl (Z := 1)).mono (here_mono (by decide)) |>.anti (mul_one _).ge
  · exact Starts.refl.mono (here_mono (by decide))
  · simpa only [mul_assoc] using Starts.refl.mono (here_mono (by decide))
  · exact Starts.refl.mono (here_mono (by decide))

theorem adjoiningModifier_leaves :
    Leaves (Syntax.modifier * Z) adjoiningModifier (either 0 Z) := by
  intro x hx hm
  refine Reads.bind (T := fun t w r _ => r = x ∧ r.head? = some t) (F := fun _ _ => False)
    (.nextVisible hx fun h => ⟨rfl, by simp [h]⟩) ?_ id
  intro t w r es _ hr ⟨he, ht⟩
  subst he
  have hs : t.isSpace = false := by
    obtain ⟨u, ⟨t', hk, rfl⟩, v, -, rfl⟩ := Language.mem_mul.mp (mem_of_le modifier_starts.mul hm)
    obtain rfl : t' = t := by simpa using ht
    exact (show Apart _ [] by decide).isSpace hk
  rw [hs, if_neg (by simp)]
  have hblanks : Syntax.modifier * Z ≤ blanks * Syntax.modifier * Z :=
    mul_le_mul_left (le_blanks_mul _) Z
  exact Reads.mono (modifier_leaves r hr (mem_of_le hblanks hm)) (fun _ h => h) fun _ h => h

theorem manyAdjoining_leaves (hZ : Starts (here (.space :: ls)) Z) (hl : Apart ls modifierKinds) :
    Leaves (Syntax.modifier∗ * Z) (many adjoiningModifier) fun _ => Z := by
  exact .star (adjoiningModifier_tracks.advances (by simp [Syntax.modifier]))
    (adjoiningModifier_declines hZ hl) adjoiningModifier_leaves

theorem simpleSelector_leaves (hZ : Starts (here (.space :: ls)) Z) (hl : Apart ls modifierKinds) :
    Leaves (blanks * unit * Z) simpleSelector (either 0 Z) := by
  have hname : Leaves (tok [.ident, .star] * (Syntax.modifier∗ * Z)) simpleSelector (either 0 Z) := by
    refine elementName_leaves.bind fun o => ?_
    cases o with
    | none => exact .zero _
    | some e => exact (manyAdjoining_leaves hZ hl).bind fun _ => .pure le_rfl
  have hbegins : Begins modifierKinds (blanks * Syntax.modifier * (Syntax.modifier∗ * Z)) :=
    modifier_starts.blanks_mul.mul
  have hmodifier : Leaves (blanks * Syntax.modifier * (Syntax.modifier∗ * Z)) simpleSelector
      (either 0 Z) := by
    have hdecline : Leaves (blanks * Syntax.modifier * (Syntax.modifier∗ * Z)) elementName
        (either (blanks * Syntax.modifier * (Syntax.modifier∗ * Z)) 0) :=
      .missed hbegins (by decide) (by decide) rfl
    refine hdecline.bind fun o => ?_
    cases o with
    | some e => exact .zero _
    | none =>
      refine modifier_leaves.bind fun o => ?_
      cases o with
      | none => exact .zero _
      | some m => exact (manyAdjoining_leaves hZ hl).bind fun _ => .pure le_rfl
  have hsum : blanks * unit * Z = tok [.ident, .star] * (Syntax.modifier∗ * Z) +
      blanks * Syntax.modifier * (Syntax.modifier∗ * Z) := by
    simp only [unit, tok, mul_add, add_mul, mul_assoc]
  rw [hsum]
  exact hname.add hmodifier

theorem simpleSelector_declines (hX : Begins ls X) (hl : Apart ls unitKinds) :
    Leaves X simpleSelector (either X 0) := by
  have hname : Leaves X elementName (either X 0) :=
    .missed hX (hl.anti (List.Subset.refl _) (by decide)) (by decide) rfl
  have hmodifier : Leaves X modifier (either X 0) :=
    modifier_declines hX (hl.anti (List.Subset.refl _) (by decide))
  refine hname.bind fun o => ?_
  cases o with
  | some e => exact .zero _
  | none =>
    refine hmodifier.bind fun o => ?_
    cases o with
    | none => exact .pure le_rfl
    | some m => exact .zero _

theorem unit_begins : Begins unitKinds (blanks * unit) := by
  have hname : Starts (here unitKinds) (here [.ident, .star] * Syntax.modifier∗) :=
    Starts.refl.mono (here_mono (by decide))
  have hmodifier : Starts (here unitKinds) (Syntax.modifier * Syntax.modifier∗) :=
    (modifier_starts.mono (here_mono (by decide))).mul
  exact (hname.add hmodifier).blanks_mul

theorem combinator_leaves : Leaves (tok [.plus, .greater] * Z) combinator (either 0 Z) :=
  .classified (by decide) isSome_combinator fun _ => ⟨_, rfl⟩

theorem combinator_declines (hX : Begins ls X) (hl : Apart ls [.plus, .greater]) :
    Leaves X combinator (either X 0) :=
  .unclassified hX hl (by decide) isSome_combinator rfl

theorem linked_leaves (c : Combinator) (hZ : Starts (here (.space :: ls)) Z)
    (hl : Apart ls modifierKinds) : Leaves (blanks * unit * Z) (linked c) (either 0 Z) := by
  refine (simpleSelector_leaves hZ hl).bind fun o => ?_
  cases o with
  | none => exact .zero _
  | some u => exact .pure le_rfl

theorem acceptBlank_leaves :
    Leaves (here [.space] * Z) (withSpace true (accept [.space])) (either 0 Z) := by
  intro x hx hm
  obtain ⟨u, ⟨t, ht, rfl⟩, z, hz, rfl⟩ := Language.mem_mul.mp hm
  refine .acceptBlank hx ?_ ?_
  · intro t' r hr _
    obtain ⟨-, rfl⟩ := List.cons.inj hr
    exact hz
  · intro t' r hr hk
    obtain ⟨rfl, -⟩ := List.cons.inj hr
    exact absurd (List.mem_singleton.mp ht) hk

/-- One blank fewer does not matter before a token that is none. -/
theorem acceptBlank_stays {ks : List Kind} (hZ : Padded ks Z) :
    Leaves Z (withSpace true (accept [.space])) fun _ => Z := by
  intro x hx hm
  refine .acceptBlank hx ?_ ?_
  · intro b r hr hb
    exact hZ.trim (hr ▸ hm) (by simp [Token.isSpace, hb])
  · intro b r _ _
    exact hm

/-- The kinds behind a selector. -/
def endKinds : List Kind := [.comma, .lbrace]

/-- The kinds behind a unit, blanks counted. -/
def behindKinds : List Kind := [.space, .plus, .greater, .comma, .lbrace]

theorem space_starts : Starts (here behindKinds) (here [.space]) :=
  ((Starts.refl (Z := 1)).anti (mul_one _).ge).mono (here_mono (by decide))

theorem links_start (hZ : Padded endKinds Z) :
    Starts (here behindKinds) (Syntax.link∗ * Z) := by
  have hlink : Starts (here behindKinds) Syntax.link := by
    refine .add ?_ ?_
    · have hsign : Starts (here behindKinds) (here [.plus, .greater] * (blanks * unit)) :=
        Starts.refl.mono (here_mono (by decide))
      simp only [mul_assoc]
      exact space_starts.kstar_mul hsign
    · simpa only [mul_assoc] using space_starts.mul
  have hend : Starts (here behindKinds) Z := by
    have hkind : Starts (here behindKinds) (here endKinds * ⊤) :=
      Starts.refl.mono (here_mono (by decide))
    have htok := space_starts.kstar_mul hkind
    rw [← mul_assoc] at htok
    exact htok.anti hZ.begins
  exact hlink.kstar_mul hend

theorem unit_leaves (hZ : Padded endKinds Z) : Leaves (blanks * unit * (Syntax.link∗ * Z)) simpleSelector
    (either 0 (Syntax.link∗ * Z)) :=
  simpleSelector_leaves (links_start hZ) (by decide)

theorem link_leaves (hZ : Padded endKinds Z) : Leaves (Syntax.link * (Syntax.link∗ * Z)) link
    (either 0 (Syntax.link∗ * Z)) := by
  have hsigned : Leaves (tok [.plus, .greater] *
      (blanks * unit * (Syntax.link∗ * Z))) link
      (either 0 (Syntax.link∗ * Z)) := by
    refine combinator_leaves.bind fun o => ?_
    cases o with
    | none => exact .zero _
    | some c => exact linked_leaves c (links_start hZ) (by decide)
  have hbegins : ∀ K : Language Token, Begins unitKinds (blanks * unit * K) := fun K =>
    unit_begins.mul
  have hspaced : Leaves (here [.space] *
      (blanks * unit * (Syntax.link∗ * Z))) link
      (either 0 (Syntax.link∗ * Z)) := by
    have hle : here [.space] * (blanks * unit * (Syntax.link∗ * Z)) ≤
        blanks * unit * (Syntax.link∗ * Z) := by
      have := mul_le_mul_left (mul_kstar_le_kstar (a := here [.space]))
        (unit * (Syntax.link∗ * Z))
      simpa only [blanks, mul_assoc] using this
    refine (combinator_declines ((hbegins _).anti hle) (by decide)).bind fun o => ?_
    cases o with
    | some c => exact .zero _
    | none =>
      refine acceptBlank_leaves.bind fun o => ?_
      cases o with
      | none => exact .zero _
      | some b =>
        refine (combinator_declines (hbegins _) (by decide)).bind fun o => ?_
        cases o with
        | some c => exact .zero _
        | none =>
          refine (unit_leaves hZ).bind fun o => ?_
          cases o with
          | none => exact .zero _
          | some u => exact .pure le_rfl
  have hsum : Syntax.link * (Syntax.link∗ * Z) =
      tok [.plus, .greater] * (blanks * unit * (Syntax.link∗ * Z)) +
        here [.space] * (blanks * unit * (Syntax.link∗ * Z)) := by
    nth_rewrite 1 [Syntax.link]
    simp only [tok, add_mul, mul_assoc]
  rw [hsum]
  exact hsigned.add hspaced

/-- Behind the last unit there is no link; at most one blank is passed. -/
theorem link_declines (hZ : Padded endKinds Z) : Leaves Z link (either Z 0) := by
  have hcombinator : Leaves Z combinator (either Z 0) :=
    combinator_declines hZ.begins (by decide)
  refine hcombinator.bind fun o => ?_
  cases o with
  | some c => exact .zero _
  | none =>
    refine (acceptBlank_stays hZ).bind fun o => ?_
    cases o with
    | none => exact .pure le_rfl
    | some b =>
      refine hcombinator.bind fun o => ?_
      cases o with
      | some c => exact .zero _
      | none =>
        refine (simpleSelector_declines hZ.begins (by decide)).bind fun o => ?_
        cases o with
        | none => exact .pure le_rfl
        | some u => exact .zero _

theorem selector_leaves (hZ : Padded endKinds Z) :
    Leaves (blanks * Syntax.selector * Z) selector (either 0 Z) := by
  have hlinks : Leaves (Syntax.link∗ * Z) (many link) fun _ => Z :=
    .star (link_tracks.advances (by simp [Syntax.link, unit, Syntax.modifier])) (link_declines hZ)
      (link_leaves hZ)
  have hpad : blanks * Syntax.selector * Z ≤ blanks * unit * (Syntax.link∗ * Z) := by
    have := mul_le_mul_right hZ.pad (blanks * unit * Syntax.link∗)
    simpa only [Syntax.selector, mul_assoc] using this
  refine Leaves.mono ?_ hpad fun _ => le_rfl
  refine (unit_leaves hZ).bind fun o => ?_
  cases o with
  | none => exact .zero _
  | some u => exact hlinks.bind fun _ => .pure le_rfl

theorem selector_declines (hX : Begins ls X) (hl : Apart ls unitKinds) :
    Leaves X selector (either X 0) := by
  refine (simpleSelector_declines hX hl).bind fun o => ?_
  cases o with
  | none => exact .pure le_rfl
  | some u => exact .zero _

theorem selector_begins : Begins unitKinds (blanks * Syntax.selector) := by
  simpa only [Syntax.selector, mul_assoc] using (unit_begins.mul (Z := Syntax.link∗ * blanks))

end Stylesheet.Grammar
