import Stylesheet.Proofs.LegibleCalls
import Stylesheet.Proofs.LineBreaks
import Stylesheet.Proofs.SelfDelimiting

/-! A call is spelled by its text whatever stands behind it: nothing in it reaches over the
parenthesis that closes it. -/
namespace Stylesheet
open Computability Lexical Extent

variable {p : Char → Bool} {K L : Language Char} {k : Kind} {c d q : Char}
  {a b r s t u v w x y z : Text}

/-! Tokens before a closing parenthesis. -/

theorem settled_closing (x : Text) : Settled (x ++ [')']) := by
  have hall : ∀ s ∈ unsettled, ')' ∉ s := by decide
  exact fun hm => hall _ hm (by simp)

/-- A token ends before a closing parenthesis whatever follows that, openings of addresses apart. -/
theorem Measured.exchange (h : Measured k t (x ++ ')' :: y)) (hk : k ≠ .invalid ∧ k ≠ .delim)
    (hurl : k = .function → foldCase t ≠ "url(".toList) (z : Text) :
    Measured k t (x ++ ')' :: z) := by
  obtain ⟨c, s, hkind, ht, hrest⟩ := h
  have hle : (measure c s).more ≤ s.length := le_length_of_drop (hrest ▸ by simp)
  obtain ⟨u, hu⟩ : ∃ u, s.take (measure c s).more = u := ⟨_, rfl⟩
  have hlen : u.length = (measure c s).more := hu ▸ List.length_take_of_le hle
  have htext : ∀ z, u ++ (x ++ [')']) ++ z = u ++ (x ++ ')' :: z) := by simp
  have hs : s = u ++ (x ++ [')']) ++ y := by rw [htext, ← hu, hrest, List.take_append_drop]
  obtain rfl : t = c :: u := hu ▸ ht
  rw [hs] at hkind hlen
  have hcrop : measure c (u ++ (x ++ [')'])) = measure c (u ++ (x ++ [')']) ++ y) :=
    measure_of_append (fun hi => hk.1 (Option.some.inj (hkind.symm.trans hi)))
      (.inr fun hd => hk.2 (Option.some.inj (hkind.symm.trans hd))) (by rw [← hlen, List.length_append]; omega)
  rw [← hcrop] at hkind hlen
  have hfirm : (measure c (u ++ (x ++ [')']))).Firm (c :: (u ++ (x ++ [')']))) := by
    refine ⟨by simpa [hkind] using hk.2, fun hf => ?_, ?_⟩
    · rw [← hlen, Nat.add_comm, List.take_succ_cons, List.take_left]
      exact hurl (Option.some.inj (hkind.symm.trans hf))
    · rw [← hlen, Nat.add_comm, List.drop_succ_cons, List.drop_left]
      exact settled_closing x
  have happend := measure_append (x := z) hfirm
  rw [htext] at happend
  refine ⟨c, u ++ (x ++ ')' :: z), happend ▸ hkind, ?_, ?_⟩
  · rw [happend, ← hlen, List.take_left]
  · rw [happend, ← hlen, List.drop_left]

/-! Texts in which no backslash keeps a character behind them from being read. -/

namespace Lexical

/-- One character that is no backslash, or a backslash and the character it keeps. -/
def anyItem : Language Char := char (fun c => c != '\\') + kept

end Lexical

theorem item_mem (hc : c ≠ '\\') (hs : s ∈ anyItem∗) : c :: s ∈ anyItem∗ :=
  append_mem_kstar (u := [c]) (.inl (mem_char.mpr (by simpa using hc))) hs

theorem plain_mem (hs : '\\' ∉ s) : s ∈ anyItem∗ := by
  induction s with
  | nil => exact Language.nil_mem_kstar _
  | cons c s ih =>
    obtain ⟨hc, hs⟩ := not_or.mp (mt List.mem_cons.mpr hs)
    exact item_mem (Ne.symm hc) (ih hs)

theorem kept_mem (c : Char) (hs : '\\' ∉ s) : '\\' :: c :: s ∈ anyItem∗ :=
  append_mem_kstar (u := ['\\', c]) (.inr ⟨c, rfl⟩) (plain_mem hs)

theorem mul_le_items (hK : K ≤ anyItem∗) (hL : L ≤ anyItem∗) : K * L ≤ anyItem∗ :=
  (mul_le_mul' hK hL).trans (kstar_mul_kstar anyItem).le

theorem kstar_le_items (hK : K ≤ anyItem∗) : K∗ ≤ anyItem∗ :=
  (kstar_mono hK).trans (kstar_idem anyItem).le

theorem char_le_items (hp : p '\\' = false) : char p ≤ anyItem∗ := by
  rintro w ⟨c, hc, rfl⟩
  refine plain_mem fun hm => ?_
  obtain rfl := List.mem_singleton.mp hm
  simp [hp] at hc

theorem exactly_le_items {s : String} (hs : '\\' ∉ s.toList) : exactly s ≤ anyItem∗ :=
  fun _ hw => mem_exactly.mp hw ▸ plain_mem hs

theorem escape_le_items : escape ≤ anyItem∗ := by
  rintro w (⟨ds, b, rfl, hne, -, hd, hb⟩ | ⟨c, -, -, rfl⟩)
  · obtain ⟨d, ds, rfl⟩ := List.exists_cons_of_ne_nil hne
    refine kept_mem d fun hm => ?_
    rcases List.mem_append.mp hm with hm | hm
    · exact absurd rfl (ne_backslash_of_isHexDigit (hd _ (List.mem_cons_of_mem d hm)))
    · exact absurd rfl (ne_backslash_of_isBlank (isBlank_of_mem_oneBlank hb _ hm))
  · exact kept_mem c (by simp)

theorem nmchar_le_items : nmchar ≤ anyItem∗ := add_le (char_le_items (by decide)) escape_le_items

theorem ident_le_items : ident ≤ anyItem∗ :=
  ident_le_names.trans (kstar_le_items nmchar_le_items)

theorem number_le_items : number ≤ anyItem∗ := by
  refine fun w hw => plain_mem fun hm => ?_
  have := mem_number hw _ hm
  simp at this

theorem stringItem_le_items (q : Char) : stringItem q ≤ anyItem∗ := by
  refine add_le (add_le (char_le_items (by simp)) ?_) escape_le_items
  intro w hw
  obtain ⟨_, rfl, n, ⟨c, -, rfl⟩ | rfl, rfl⟩ := Language.mem_mul.mp hw
  · exact kept_mem c (by simp)
  · exact kept_mem '\r' (by decide)

theorem closedString_le_items : closedString ≤ anyItem∗ := by
  rintro w ⟨q, s, hq, hs, rfl⟩
  have hne := ne_backslash_of_isQuote hq
  exact item_mem hne (kstar_append_mem (mem_of_le (kstar_le_items (stringItem_le_items q)) hs)
    (item_mem hne (Language.nil_mem_kstar _)))

theorem address_le_items : address ≤ anyItem∗ := by
  have hblanks : blank∗ ≤ anyItem∗ := kstar_le_items (char_le_items (by decide))
  have hbare : bareItem∗ ≤ anyItem∗ := kstar_mono (add_le_add_left (fun w hw => ?_) kept)
  · exact mul_le_items hblanks (mul_le_items (add_le (quotedAddress_le.trans closedString_le_items) hbare)
      (mul_le_items hblanks (exactly_le_items (by decide))))
  · obtain ⟨c, hc, rfl⟩ := hw
    exact ⟨c, by simp at hc ⊢; exact hc.2, rfl⟩

/-- The texts of the tokens that values are made of. -/
theorem Measured.items (h : Measured k t r)
    (hk : (TermKind.ofKind? k).isSome ∨ k = .hash ∨ k = .function) (hr : r ≠ []) : t ∈ anyItem∗ := by
  by_cases huri : k = .uri
  · subst huri
    obtain ⟨u, a, hu, ha, rfl⟩ := h.uri_text
    refine kstar_append_mem (plain_mem fun hm => ?_) (item_mem (by decide) (mem_of_le address_le_items ha))
    have hm : '\\'.toLower ∈ foldCase u := List.mem_map_of_mem hm
    rw [hu] at hm
    exact absurd hm (by decide)
  have hs := h.scanned (by revert hk huri; cases k <;> decide)
  by_cases hstring : k = .string
  · exact mem_of_le closedString_le_items ((hs.string hstring).resolve_right hr)
  refine mem_of_le ?_ hs.longest.1
  by_cases hnumeric : k ∈ numericKinds
  · have hsuffix : suffix ≤ anyItem∗ :=
      add_le (add_le one_le_kstar (exactly_le_items (by decide))) ident_le_items
    rw [production_numeric hnumeric]
    exact mul_le_items number_le_items ((suffixOf_le k).trans hsuffix)
  have hkinds : k = .ident ∨ k = .hash ∨ k = .function := by
    revert hk huri hstring hnumeric
    cases k <;> decide
  rcases hkinds with rfl | rfl | rfl
  · exact ident_le_items
  · exact mul_le_items (exactly_le_items (by decide)) (mul_le_items nmchar_le_items (kstar_le_items nmchar_le_items))
  · exact mul_le_items ident_le_items (exactly_le_items (by decide))

/-! What opens an address. -/

theorem cons_mem_items (h : c :: s ∈ (char p + kept)∗) : p c ∧ s ∈ (char p + kept)∗ ∨
    c = '\\' ∧ ∃ d v, s = d :: v ∧ v ∈ (char p + kept)∗ := by
  obtain ⟨u, hu, v, hv, heq⟩ := Language.mem_mul.mp (mem_mul_kstar h (by simp))
  rcases hu with ⟨d, hd, rfl⟩ | ⟨d, rfl⟩
  · obtain ⟨rfl, rfl⟩ := List.cons.inj heq
    exact .inl ⟨hd, hv⟩
  · obtain ⟨rfl, rfl⟩ := List.cons.inj heq
    exact .inr ⟨rfl, d, v, rfl, hv⟩

/-- What is kept from no backslash before it is an item by itself. -/
theorem items_end (hu : u ∈ anyItem∗) (hd : p d = false) (hp : p '\\' = false) (hne : d ≠ '\\') :
    u ++ d :: v ∉ (char p + kept)∗ := by
  refine kstar_induction (P := fun u => u ++ d :: v ∉ (char p + kept)∗) (fun h => ?_) (fun u w hu _ ih h => ?_) hu
  · obtain ⟨h, -⟩ | ⟨h, -⟩ := cons_mem_items h
    · simp [hd] at h
    · exact hne h
  · rcases hu with ⟨c, hc, rfl⟩ | ⟨c, rfl⟩
    · obtain ⟨-, h⟩ | ⟨rfl, -⟩ := cons_mem_items h
      · exact ih h
      · simp at hc
    · obtain ⟨h, -⟩ | ⟨-, e, x, heq, hx⟩ := cons_mem_items h
      · simp [hp] at h
      · obtain ⟨rfl, rfl⟩ := List.cons.inj heq
        exact ih hx

/-- What is spelled before some text has no backslash that reaches into that text. -/
theorem Spells.items {b : Piece} (h : Spells b s y) (hy : y ≠ []) : s ∈ anyItem∗ := by
  have hsymbol : ∀ (o : Operator), o.symbol ≠ '\\' := by
    intro o
    cases o <;> decide
  induction h with
  | plain hj hs => exact hs.items (.inl (by rw [hj]; rfl)) hy
  | color hs _ => exact hs.items (.inr (.inl rfl)) hy
  | call hs _ ih =>
    exact kstar_append_mem (hs.items (.inr (.inr rfl)) (by simp))
      (kstar_append_mem (ih (by simp)) (item_mem (by decide) (Language.nil_mem_kstar _)))
  | unsigned _ ih => exact ih hy
  | @signed _ o _ _ _ _ _ _ ih => exact item_mem (by cases o <;> decide) (ih hy)
  | empty | done => exact Language.nil_mem_kstar _
  | filled _ _ ih ihw | beside _ _ ih ihw => exact kstar_append_mem (ih (by simp [hy])) (ihw hy)
  | @dangling _ o _ _ _ => exact item_mem (hsymbol o) (Language.nil_mem_kstar _)
  | @joined _ o _ _ _ _ _ _ _ _ ih ihw =>
    exact item_mem (hsymbol o) (kstar_append_mem (ih (by simp [hy])) (ihw hy))

theorem Measured.string_of_quote (h : Measured k (q :: t) r) (hq : isQuote q) :
    k = .string ∨ k = .invalid := by
  obtain ⟨c, s, hk, heq, -⟩ := h
  obtain ⟨rfl, -⟩ := List.cons.inj heq
  rw [measure_quote hq, ofString] at hk
  dsimp only at hk
  split at hk
  · exact .inr (Option.some.inj hk).symm
  · exact .inl (Option.some.inj hk).symm

/-- Arguments that start with a quote start with a string. -/
theorem Spells.quoted (h : Spells .arguments (q :: s) y) (hq : isQuote q) (hy : y ≠ []) :
    ∃ u ∈ anyItem∗, ∃ w, s = u ++ q :: w := by
  have hfront : ∀ {k t r x}, Measured k t r → t ++ x = q :: s → k = .string ∨ k = .invalid := by
    intro k t r x hm heq
    obtain ⟨c, v, rfl⟩ := List.exists_cons_of_ne_nil hm.isToken.1
    obtain ⟨rfl, -⟩ := List.cons.inj heq
    exact hm.string_of_quote hq
  generalize heq : q :: s = x at h
  cases h with
  | empty => exact nomatch heq
  | @filled _ t w _ h _ =>
    cases h with
    | @signed _ o _ t _ _ _ _ =>
      obtain ⟨rfl, -⟩ := List.cons.inj heq
      cases o <;> exact absurd hq (by decide)
    | unsigned h =>
      cases h with
      | plain hj hs =>
        obtain rfl | rfl := hfront hs heq.symm
        · obtain ⟨p, u, -, hu, rfl⟩ := ((hs.scanned (by decide)).string rfl).resolve_right (by simp [hy])
          obtain ⟨rfl, rfl⟩ := List.cons.inj heq
          exact ⟨u, mem_of_le (kstar_le_items (stringItem_le_items q)) hu, w, by simp⟩
        · simp [TermKind.ofKind?] at hj
      | color hs _ => simpa using hfront hs heq.symm
      | call hs _ => simpa using hfront hs (by rw [heq, List.append_assoc])

theorem Spells.head_not_blank (h : Spells .arguments w y) : ∀ c ∈ w.head?, isBlank c = false := by
  cases h with
  | empty => simp
  | @filled k s w _ h _ =>
    obtain ⟨j, t, r, heq, ht, hj⟩ := h.term_front
    intro c hc
    refine (heq ▸ ht.head_not_blank (startsTerm_ne hj).1) c ?_
    rw [← List.append_assoc]
    exact List.mem_head?_append_of_mem_head? hc

theorem eq_nil_of_closing (he : v ∈ blank∗) (h : v ++ [')'] = u ++ ')' :: a) : a = [] := by
  obtain rfl | ⟨a, c, rfl⟩ := List.eq_nil_or_concat' a
  · rfl
  · rw [← List.cons_append, ← List.append_assoc] at h
    obtain ⟨rfl, -⟩ := List.append_inj' h rfl
    exact absurd (mem_char_kstar.mp he ')' (by simp)) (by decide)

/-- What goes on behind the parenthesis that closes arguments may not stand in an address. -/
theorem Spells.not_body (h : Spells .arguments w (')' :: y)) (v : Text) :
    w ++ ')' :: v ∉ quotedAddress + bareItem∗ := by
  rintro (⟨q, s, hq, hs, heq⟩ | hbare)
  · cases w with
    | nil =>
      obtain ⟨rfl, -⟩ := List.cons.inj heq
      exact absurd hq (by decide)
    | cons c w =>
      obtain ⟨rfl, heq⟩ := List.cons.inj heq
      have heq : w ++ ')' :: v = s ++ [c] := heq
      -- The string at the front of the arguments ends before the quote of the address.
      obtain ⟨u, hu, x, rfl⟩ := h.quoted hq (by simp)
      obtain ⟨x', d, hx⟩ := (List.eq_nil_or_concat' (x ++ ')' :: v)).resolve_left (by simp)
      rw [List.append_assoc, List.cons_append, hx, ← List.cons_append, ← List.append_assoc] at heq
      obtain ⟨rfl, -⟩ := List.append_inj' heq rfl
      exact items_end hu (by simp) (by simp) (ne_backslash_of_isQuote hq) hs
  · exact items_end (h.items (by simp)) (by decide) (by decide) (by decide) hbare

theorem Spells.no_blanks (h : Spells .arguments w (')' :: y)) (hb : b ∈ blank∗)
    (heq : w ++ ')' :: a = b ++ x) : b = [] := by
  by_contra hne
  obtain ⟨c, b, rfl⟩ := List.exists_cons_of_ne_nil hne
  have hc := mem_char_kstar.mp hb c List.mem_cons_self
  cases w with
  | nil =>
    obtain ⟨rfl, -⟩ := List.cons.inj heq
    exact absurd hc (by decide)
  | cons d w =>
    obtain ⟨rfl, -⟩ := List.cons.inj heq
    simp [h.head_not_blank d rfl] at hc

/-- No address goes on behind the parenthesis that closes arguments. -/
theorem address_closed (h : Spells .arguments w (')' :: y)) (ha : w ++ ')' :: a ∈ address) :
    a = [] := by
  obtain ⟨b, hb, body, hbody, e, he, heq, -⟩ := mem_address ha
  obtain rfl := h.no_blanks hb heq
  rw [List.nil_append] at heq
  rcases List.append_eq_append_iff.mp heq with ⟨v, hv, hrest⟩ | ⟨v, rfl, hrest⟩
  · cases v with
    | nil => exact eq_nil_of_closing (u := []) he hrest.symm
    | cons c v =>
      obtain ⟨rfl, -⟩ := List.cons.inj hrest
      exact absurd (hv ▸ hbody) (h.not_body v)
  · exact eq_nil_of_closing he hrest

theorem measured_url (hu : foldCase u = "url".toList) (h : ∀ a ∈ address, ¬ a <+: s) :
    Measured .function (u ++ ['(']) s := by
  have hnone : uriTail? s = none := by
    by_contra hne
    obtain ⟨m, hm⟩ := Option.ne_none_iff_exists'.mp hne
    obtain ⟨a, ha, r, rfl, -⟩ := uriTail?_eq_some_iff_mem.mp hm
    exact h a ha (List.prefix_append a r)
  have hlen : u.length = 3 := by simpa [foldCase] using congrArg List.length hu
  obtain ⟨c, v, rfl⟩ := List.exists_cons_of_length_pos (by omega : 0 < u.length)
  have hmeasure := measure_url hu (c := c) (x := v ++ '(' :: s) rfl
  rw [hnone] at hmeasure
  refine .of_length (t := v ++ ['(']) ?_
  rw [List.append_assoc, List.length_append]
  rw [List.length_cons] at hlen
  rw [show v.length = 2 by omega]
  exact hmeasure

/-- The opening of a call is one whatever follows the parenthesis that closes it. -/
theorem Spells.opening (hs : Measured .function s (w ++ ')' :: y)) (hw : Spells .arguments w (')' :: y))
    (z : Text) : Measured .function s (w ++ ')' :: z) := by
  obtain ⟨n, hn, _, rfl, rfl⟩ := Language.mem_mul.mp (hs.mem_production (by decide))
  by_cases hurl : foldCase n = "url".toList
  · have hreads := hs.readsAddress hurl (s := w ++ ')' :: y) (by simp)
    have hrefused : ∀ a ∈ address, ¬ a <+: w ++ ')' :: y := fun a ha hp => nomatch (hreads.found a ha hp).1
    refine measured_url hurl fun a ha hp => ?_
    obtain ⟨r, hr⟩ := hp
    rcases List.append_eq_append_iff.mp hr with ⟨v, rfl, -⟩ | ⟨v, rfl, hrest⟩
    · exact hrefused a ha (by simp)
    · cases v with
      | nil => exact hrefused _ ha (by simp)
      | cons c v =>
        obtain ⟨rfl, -⟩ := List.cons.inj hrest
        obtain rfl := address_closed hw ha
        exact hrefused _ ha ⟨y, by simp⟩
  · exact measured_opening hn hurl _

/-- The tokens of values other than the openings of calls. -/
theorem exchange_kinds {j : Kind} (h : (TermKind.ofKind? j).isSome ∨ (Sign.ofKind? j).isSome ∨
    (Operator.ofKind? j).isSome) : j ∉ [.invalid, .delim, .function] := by
  revert h
  cases j <;> decide

/-- What is spelled before a closing parenthesis is so whatever follows that. -/
theorem Spells.exchange {b : Piece} (h : Spells b s (x ++ ')' :: y)) (z : Text) :
    Spells b s (x ++ ')' :: z) := by
  have hmove : ∀ {j t x y} z, j ∉ [.invalid, .delim, .function] → Measured j t (x ++ ')' :: y) →
      Measured j t (x ++ ')' :: z) := by
    intro j t x y z hj hm
    simp only [List.mem_cons, List.not_mem_nil, or_false, not_or] at hj
    exact hm.exchange ⟨hj.1, hj.2.1⟩ (fun hf => absurd hf hj.2.2) z
  generalize hr : x ++ ')' :: y = r at h
  induction h generalizing x y z with
  | plain hj hs => exact .plain hj (hmove z (exchange_kinds (.inl (by rw [hj]; rfl))) (hr ▸ hs))
  | color hs hc => exact .color (hmove z (by decide) (hr ▸ hs)) hc
  | call hs hw ih => exact .call (hw.opening hs _) (ih (x := []) _ rfl)
  | unsigned _ ih => exact .unsigned (ih z hr)
  | @signed j o k s _ hj ho _ ih =>
    subst hr
    refine .signed hj ?_ (ih z rfl)
    rw [← List.append_assoc] at ho ⊢
    exact hmove z (exchange_kinds (.inr (.inl (by rw [hj]; rfl)))) ho
  | empty => exact .empty
  | done => exact .done
  | @filled k s w _ _ _ ih ihw =>
    subst hr
    have hs := ih z (List.append_assoc w x _)
    rw [List.append_assoc] at hs
    exact .filled hs (ihw z rfl)
  | dangling hj ho => exact .dangling hj (hmove z (exchange_kinds (.inr (.inr (by rw [hj]; rfl)))) (hr ▸ ho))
  | @beside k s w _ _ _ ih ihw =>
    subst hr
    have hs := ih z (List.append_assoc w x _)
    rw [List.append_assoc] at hs
    exact .beside hs (ihw z rfl)
  | @joined j o k s w _ hj ho _ _ ih ihw =>
    subst hr
    have hs := ih z (List.append_assoc w x _)
    rw [List.append_assoc] at hs
    refine .joined hj ?_ hs (ihw z rfl)
    rw [← List.append_assoc, ← List.append_assoc] at ho ⊢
    exact hmove z (exchange_kinds (.inr (.inr (by rw [hj]; rfl)))) ho

theorem Spells.bare_anywhere (h : Spells (.bare .function) s y) :
    (∃ v, s = v ++ [')']) ∧ ∀ z, Spells (.bare .function) s z := by
  cases h with
  | plain hj _ => exact absurd rfl (TermKind.ofKind?_ne hj).2
  | @call s w _ hs hw =>
    exact ⟨⟨s ++ w, (List.append_assoc ..).symm⟩, fun z =>
      .call (hw.opening hs z) (hw.exchange (x := []) z)⟩

/-- A call that is spelled by its text somewhere is so everywhere. -/
theorem Spells.anywhere (h : Spells (.term .function) s y) (z : Text) :
    Spells (.term .function) s z := by
  cases h with
  | unsigned h => exact .unsigned (h.bare_anywhere.2 z)
  | @signed j o _ s _ hj ho h =>
    obtain ⟨⟨v, rfl⟩, hs⟩ := h.bare_anywhere
    refine .signed hj ?_ (hs z)
    rw [List.append_assoc] at ho ⊢
    have hkind : j ≠ .invalid ∧ j ≠ .delim ∧ j ≠ .function := by
      simpa using exchange_kinds (.inr (.inl (by rw [hj]; rfl)))
    exact ho.exchange ⟨hkind.1, hkind.2.1⟩ (fun hf => absurd hf hkind.2.2) z

end Stylesheet
