import Stylesheet.Proofs.Likeness

/-! The productions of selectors cannot tell tokens apart that are alike. Only the two that look for
a blank need care: where the two sides differ, nothing that could start a simple selector comes
next, and then the blank makes no difference. -/
namespace Stylesheet.Grammar
open Computability Production

variable {v : Blur} {before : Bool}

theorem elementName_alike : ActAlike v before (behind before true) elementName elementName := by
  refine .option (.accept true (by decide) (by decide)) (fun t t' h => ?_) (.pure rfl id)
  have hkind := Token.kind_eq h
  have htext := Token.text_eq h
  have hname : blur v (ElementName.ofToken? t) = blur v (ElementName.ofToken? t') := by
    simp only [ElementName.ofToken?, ← hkind]
    split
    · exact congrArg (fun s => some (ElementName.named s)) htext
    · rfl
    · rfl
  exact .pure hname fun _ => rfl

theorem hash_alike : ActAlike v before (behind before true) hash hash :=
  .option (.accept true (by decide) (by decide))
    (fun _ _ h => .pure (congrArg (fun s => some (Modifier.id s)) (Token.text_eq h)) id)
    (.pure rfl id)

theorem append_blur (s t : Text) : blur v (s ++ t) = blur v s ++ blur v t := List.map_append

theorem className_alike : ActAlike v before (behind before true) className className := by
  refine .option (.accept false (by decide) (by decide)) (fun _ _ _ => ?_) (.pure rfl id)
  refine .bind (.expect true (by decide) (by decide)) fun t t' h => .pure ?_ id
  exact congrArg (fun s => some (Modifier.className (blur v '.' :: s))) (Token.text_eq h)

theorem attribTest_alike : ActAlike v before (fun _ => false) attribTest attribTest := by
  refine .option (.accept false (by decide) (by decide)) (fun op op' h => ?_) (.pure rfl (by simp))
  refine .bind (.expect false (by decide) (by decide)) fun t t' ht => .pure ?_ id
  rw [append_blur, append_blur, Token.text_eq h, Token.text_eq ht]

theorem attrib_alike : ActAlike v before (behind before true) attrib attrib := by
  refine .option (.accept false (by decide) (by decide)) (fun o o' ho => ?_) (.pure rfl id)
  refine .bind (.expect false (by decide) (by decide)) fun n n' hn => ?_
  refine .bind attribTest_alike fun s s' hs => ?_
  refine .bind (.expect true (by decide) (by decide)) fun c c' hc => .pure ?_ id
  refine congrArg (fun s => some (Modifier.attrib s)) ?_
  simp only [append_blur, Token.text_eq ho, Token.text_eq hn, hs, Token.text_eq hc]

theorem pseudoFunction_alike : ActAlike v before (fun _ => true) pseudoFunction pseudoFunction := by
  refine .bind (.expect false (by decide) (by decide)) fun f f' hf => ?_
  refine .bind (ActAlike.accept false (by decide) (by decide)) fun a a' ha => ?_
  refine .bind (.expect true (by decide) (by decide)) fun c c' hc => .pure ?_ id
  have harg : blur v (a.elim [] Token.text) = blur v (a'.elim [] Token.text) := by
    cases a <;> cases a' <;> simp only [blur, Option.map, reduceCtorEq, Option.some.injEq] at ha
    · rfl
    · exact Token.text_eq ha
  simp only [append_blur, Token.text_eq hf, harg, Token.text_eq hc]

theorem pseudo_alike : ActAlike v before (behind before true) pseudo pseudo := by
  refine .option (.accept false (by decide) (by decide)) (fun o o' ho => ?_) (.pure rfl id)
  have hadd : ∀ {s s' : Text}, blur v s = blur v s' →
      blur v (some (Modifier.pseudo (o.text ++ s))) = blur v (some (.pseudo (o'.text ++ s'))) := by
    intro s s' hs
    refine congrArg (fun s => some (Modifier.pseudo s)) ?_
    rw [append_blur, append_blur, Token.text_eq ho, hs]
  refine .option (.accept true (by decide) (by decide)) (fun n n' hn => ?_) ?_
  · exact .pure (hadd (Token.text_eq hn)) id
  · exact .bind pseudoFunction_alike fun s s' hs => .pure (hadd hs) id

theorem modifier_alike : ActAlike v before (behind before true) modifier modifier :=
  .orElse hash_alike (.orElse className_alike (.orElse attrib_alike pseudo_alike))

/-! What happens before a token that starts no part of a selector. -/

theorem modifier_none {c : Cursor} (h : c.next.kind ∉ modifierKinds) :
    modifier c = ⟨[], c, .ok none⟩ := by
  have hno : ∀ k ∈ modifierKinds, c.next.kind ∉ [k] := fun k hk he =>
    h (List.mem_singleton.mp he ▸ hk)
  have hhash : hash c = ⟨[], c, .ok none⟩ := bind_ok (accept_none (hno _ (by decide))) rfl
  have hclass : className c = ⟨[], c, .ok none⟩ := bind_ok (accept_none (hno _ (by decide))) rfl
  have hattrib : attrib c = ⟨[], c, .ok none⟩ := bind_ok (accept_none (hno _ (by decide))) rfl
  have hpseudo : pseudo c = ⟨[], c, .ok none⟩ := bind_ok (accept_none (hno _ (by decide))) rfl
  exact bind_ok hhash (bind_ok hclass (bind_ok hattrib hpseudo))

theorem modifierKinds_subset : modifierKinds ⊆ unitKinds := by decide

theorem simpleSelector_none {c : Cursor} (h : c.next.kind ∉ unitKinds) :
    simpleSelector c = ⟨[], c, .ok none⟩ := by
  have hname : elementName c = ⟨[], c, .ok none⟩ :=
    bind_ok (accept_none fun he => h (List.mem_append_left _ he)) rfl
  exact bind_ok hname (bind_ok (modifier_none fun he => h (modifierKinds_subset he)) rfl)

theorem combinator_none {c : Cursor} (h : Combinator.ofKind? c.next.kind = none) :
    combinator c = ⟨[], c, .ok none⟩ := bind_ok (classify_none h) rfl

theorem combinator_some {c : Cursor} {k : Combinator} (h : Combinator.ofKind? c.next.kind = some k) :
    combinator c = ⟨[], c.advance, .ok (some k)⟩ := bind_ok (classify_some h) rfl

theorem linkedAfterSpace_none {c : Cursor} (h : Combinator.ofKind? c.next.kind = none)
    (hu : c.next.kind ∉ unitKinds) : linkedAfterSpace c = ⟨[], c, .ok none⟩ :=
  bind_ok (combinator_none h) (bind_ok (simpleSelector_none hu) rfl)

/-! The two productions that see blanks. -/

theorem adjoiningModifier_eq {c : Cursor} {t : Token} {r : List Token} (hc : c.Before (t :: r)) :
    adjoiningModifier c = if t.isSpace then ⟨[], c, .ok none⟩ else modifier c := by
  have hnext : withSpace true next c = ⟨[], c, .ok t⟩ := by
    show (⟨[], (c.withSpace true).withSpace c.spaceVisible, .ok (c.withSpace true).next⟩ : Outcome _) = _
    rw [Before.visible_next hc]
    rfl
  rw [adjoiningModifier, bind_quiet hnext]
  cases t.isSpace <;> rfl

theorem acceptBlank_none {c : Cursor} {t : Token} {r : List Token} (hc : c.Before (t :: r))
    (ht : t.isSpace = false) : withSpace true (accept [.space]) c = ⟨[], c, .ok none⟩ := by
  have hkind : (c.withSpace true).next.kind ∉ [Kind.space] := by
    rw [Before.visible_next hc]
    simpa [Token.isSpace] using ht
  rw [withSpace, accept_none hkind]
  rfl

theorem acceptBlank_some {c : Cursor} {t : Token} {r : List Token} (hx : Terminated (t :: r))
    (hc : c.Before (t :: r)) (ht : t.isSpace = true) :
    ∃ d, withSpace true (accept [.space]) c = ⟨[], d, .ok (some t)⟩ ∧ d.Before r := by
  have hread : Reads (withSpace true (accept [.space]))
      (fun o _ q es => es = [] ∧ o = some t ∧ q = r) (fun _ _ => False) (t :: r) := by
    refine .acceptBlank hx (fun {u q} hu _ => ?_) fun {u q} hu hs => ?_
    · obtain ⟨rfl, rfl⟩ := List.cons.inj hu
      exact ⟨rfl, rfl, rfl⟩
    · obtain ⟨rfl, rfl⟩ := List.cons.inj hu
      exact absurd (by simpa [Token.isSpace] using ht) hs
  cases hread with
  | failure _ _ _ spec => exact spec.elim
  | @success w q es o hw hq run spec =>
    obtain ⟨d, hd, hb⟩ := run q hq.sameNext (hw ▸ hx) c (hw ▸ hc)
    obtain ⟨rfl, rfl, rfl⟩ := spec
    exact ⟨d, hd, hb⟩

/-- The two sides of a gap: both have blanks, or none has, or no simple selector starts behind. -/
theorem gap_cases {s s' : List Token} {t : Token}
    (h : true = true → t.kind ∈ unitKinds → (s = [] ↔ s' = [])) :
    (s = [] ∧ s' = []) ∨ (s ≠ [] ∧ s' ≠ []) ∨ t.kind ∉ unitKinds := by
  by_cases hk : t.kind ∈ unitKinds
  · have := h rfl hk
    tauto
  · exact .inr (.inr hk)

/-- Behind a blank, or before a token that starts no modifier, nothing adjoins. -/
theorem adjoiningModifier_none {c : Cursor} {s r : List Token} {t : Token}
    (hc : c.Before (s ++ t :: r)) (hs : ∀ b ∈ s, b.isSpace) (ht : t.isSpace = false)
    (h : s ≠ [] ∨ t.kind ∉ modifierKinds) : adjoiningModifier c = ⟨[], c, .ok none⟩ := by
  cases s with
  | nil =>
    rw [adjoiningModifier_eq hc, ht]
    exact modifier_none (by simpa [hc.next_eq hs ht] using h)
  | cons b s =>
    rw [adjoiningModifier_eq hc, hs b (by simp)]
    rfl

theorem adjoiningModifier_alike : ActAlike v true (behind true true) adjoiningModifier
    adjoiningModifier := by
  intro x y hxy c d hc hd
  obtain ⟨s, t, x', s', t', y', rfl, rfl, hs, hs', ht, hblur, hgap, -, -⟩ := hxy.split
  have ht' : t'.isSpace = false := isSpace_eq hblur ▸ ht
  have hstop : s ≠ [] ∧ s' ≠ [] ∨ t.kind ∉ modifierKinds →
      (adjoiningModifier c).Alike v (behind true true) (adjoiningModifier d) := by
    intro h
    have hkind : t'.kind = t.kind := (Token.kind_eq hblur).symm
    rw [adjoiningModifier_none hc hs ht (h.imp And.left id),
      adjoiningModifier_none hd hs' ht' (h.imp And.right (hkind ▸ id))]
    exact .ok rfl rfl hxy hc hd
  rcases gap_cases hgap with ⟨rfl, rfl⟩ | hboth | hother
  · rw [List.nil_append] at hc hd hxy
    rw [adjoiningModifier_eq hc, adjoiningModifier_eq hd, ht, ht']
    exact modifier_alike _ _ hxy c d hc hd
  · exact hstop (.inl hboth)
  · exact hstop (.inr fun hm => hother (modifierKinds_subset hm))

theorem adjoiningModifier_advances : Advances adjoiningModifier :=
  adjoiningModifier_tracks.advances (by simp [Syntax.modifier])

theorem manyAdjoining_alike :
    ActAlike v true (fun _ => true) (many adjoiningModifier) (many adjoiningModifier) :=
  .many adjoiningModifier_advances adjoiningModifier_alike

theorem blur_simpleSelector {u u' : SimpleSelector} (he : blur v u.element = blur v u'.element)
    (hm : blur v u.modifiers = blur v u'.modifiers) : blur v u = blur v u' :=
  (SimpleSelector.mk.injEq ..).mpr ⟨he, hm⟩

theorem simpleSelector_alike :
    ActAlike v before (behind before true) simpleSelector simpleSelector := by
  refine .option elementName_alike (fun e e' he => ?_) ?_
  · refine manyAdjoining_alike.bind fun ms ms' hms => .pure (congrArg some ?_) fun _ => rfl
    exact blur_simpleSelector (congrArg some he) hms
  · refine .option modifier_alike (fun m m' hm => ?_) (.pure rfl id)
    refine manyAdjoining_alike.bind fun ms ms' hms => .pure (congrArg some ?_) fun _ => rfl
    exact blur_simpleSelector rfl (congrArg₂ List.cons hm hms)

theorem combinator_alike : ActAlike v before (behind before false) combinator combinator :=
  .option (.classify rfl) (fun _ _ h => .pure (congrArg some (Prod.mk.inj h).1) id) (.pure rfl id)

theorem linked_alike (c : Combinator) : ActAlike v before (behind false true) (linked c) (linked c) :=
  .option simpleSelector_alike (fun _ _ h => .pure (congrArg (fun u => some (c, u)) h) id) .reject

theorem linkedAfterSpace_alike :
    ActAlike v false (behind false true) linkedAfterSpace linkedAfterSpace := by
  refine .option combinator_alike (fun c c' (hc : c = c') => hc ▸ linked_alike c) ?_
  exact .option simpleSelector_alike
    (fun _ _ h => .pure (congrArg (fun u => some (Combinator.descendant, u)) h) id) (.pure rfl id)

/-- Where no combinator sign comes next, a blank decides. -/
theorem link_eq {c : Cursor} (h : Combinator.ofKind? c.next.kind = none) : link c =
    (withSpace true (accept [.space]) >>= fun o => match o with
      | some _ => linkedAfterSpace
      | none => pure none) c :=
  bind_quiet (combinator_none h)

/-- Where neither a combinator sign nor a simple selector comes next, a chain ends, and at most one
blank is passed. -/
theorem link_none {c : Cursor} {s r : List Token} {t : Token} (hx : Terminated (s ++ t :: r))
    (hc : c.Before (s ++ t :: r)) (hs : ∀ b ∈ s, b.isSpace) (ht : t.isSpace = false)
    (hsign : Combinator.ofKind? t.kind = none) (hunit : t.kind ∉ unitKinds) :
    ∃ d s', link c = ⟨[], d, .ok none⟩ ∧ d.Before (s' ++ t :: r) ∧ ∀ b ∈ s', Token.isSpace b := by
  have hlink := link_eq (c := c) (by rw [hc.next_eq hs ht, hsign])
  cases s with
  | nil => exact ⟨c, [], hlink.trans (bind_quiet (acceptBlank_none hc ht)), hc, by simp⟩
  | cons b s =>
    have hs' : ∀ b ∈ s, Token.isSpace b := fun u hu => hs u (List.mem_cons_of_mem b hu)
    obtain ⟨d, hd, hb⟩ := acceptBlank_some hx hc (hs b (by simp))
    have hnext := hb.next_eq hs' ht
    refine ⟨d, s, hlink.trans ((bind_quiet hd).trans ?_), hb, hs'⟩
    exact linkedAfterSpace_none (by rw [hnext, hsign]) (by rwa [hnext])

theorem link_alike : ActAlike v true (behind false true) link link := by
  intro x y hxy c d hc hd
  obtain ⟨s, t, x', s', t', y', rfl, rfl, hs, hs', ht, hblur, hgap, hrest, hfree⟩ := hxy.split
  have ht' : t'.isSpace = false := isSpace_eq hblur ▸ ht
  have hkind : t'.kind = t.kind := (Token.kind_eq hblur).symm
  have hnext := hc.next_eq hs ht
  have hnext' := hd.next_eq hs' ht'
  cases hsign : Combinator.ofKind? t.kind with
  | some k =>
    have hlink : link c = linked k c.advance := bind_quiet (combinator_some (by rw [hnext, hsign]))
    have hlink' : link d = linked k d.advance :=
      bind_quiet (combinator_some (by rw [hnext', hkind, hsign]))
    have he : c.next.kind ≠ .eof := by
      rintro he
      rw [hnext] at he
      simp [he, Combinator.ofKind?] at hsign
    obtain ⟨x'', y'', hc', hd', h⟩ := (hxy.next hc hd).2 he
    rw [hlink, hlink']
    exact linked_alike k _ _ h _ _ hc' hd'
  | none =>
    have hlink := link_eq (c := c) (by rw [hnext, hsign])
    have hlink' := link_eq (c := d) (by rw [hnext', hkind, hsign])
    rcases gap_cases hgap with ⟨rfl, rfl⟩ | ⟨hne, hne'⟩ | hother
    · rw [hlink, hlink', bind_quiet (acceptBlank_none hc ht), bind_quiet (acceptBlank_none hd ht')]
      exact .ok rfl rfl hxy.weaken hc hd
    · obtain ⟨b, s, rfl⟩ := List.exists_cons_of_ne_nil hne
      obtain ⟨b', s', rfl⟩ := List.exists_cons_of_ne_nil hne'
      obtain ⟨c', hrun, hb⟩ := acceptBlank_some hxy.left hc (hs b (by simp))
      obtain ⟨d', hrun', hb'⟩ := acceptBlank_some hxy.right hd (hs' b' (by simp))
      have h := hfree s s' (fun u hu => hs u (List.mem_cons_of_mem b hu))
        fun u hu => hs' u (List.mem_cons_of_mem b' hu)
      rw [hlink, hlink', bind_quiet hrun, bind_quiet hrun']
      exact linkedAfterSpace_alike _ _ h _ _ hb hb'
    · obtain ⟨c', r, hrun, hb, hr⟩ := link_none hxy.left hc hs ht hsign hother
      obtain ⟨d', r', hrun', hb', hr'⟩ :=
        link_none hxy.right hd hs' ht' (hkind ▸ hsign) (hkind ▸ hother)
      rw [hrun, hrun']
      exact .ok rfl rfl (hfree r r' hr hr') hb hb'

theorem link_advances : Advances link :=
  link_tracks.advances (by simp [Syntax.link, Syntax.unit, Syntax.modifier])

theorem selector_alike : ActAlike v before (behind before false) selector selector := by
  have hmany : ActAlike v true (fun _ => false) (many link) (many link) :=
    .many link_advances link_alike
  refine .option simpleSelector_alike (fun u u' hu => ?_) (.pure rfl id)
  refine hmany.bind fun ls ls' hls => .pure (congrArg some ?_) id
  exact (Selector.mk.injEq ..).mpr ⟨hu, hls⟩

end Stylesheet.Grammar
