import Stylesheet.Proofs.PlainTokens

/-! Simple selectors written without escapes, and the links of a chain of them, are read back as
they were. -/
namespace Stylesheet
open Computability Lexical Production

/-- How an attribute is compared, and with what. -/
def attribTests : Language Char :=
  (exactly "=" + exactly "~=" + exactly "|=") * (plainIdent + plainString)

namespace ElementName

def WellFormed : ElementName → Prop
  | named n => n ∈ plainIdent
  | universal => True

end ElementName

/-- The texts that can be written for modifiers without escapes. -/
def Modifier.WellFormed : Modifier → Prop
  | .id s => s ∈ exactly "#" * plainName
  | .className s => s ∈ exactly "." * plainIdent
  | .attrib s => s ∈ exactly "[" * (plainIdent * (opt attribTests * exactly "]"))
  | .pseudo s => s ∈ exactly ":" * (plainIdent +
      functionName * (exactly "(" * (opt plainIdent * exactly ")")))

structure SimpleSelector.WellFormed (u : SimpleSelector) : Prop where
  element : ∀ e ∈ u.element, e.WellFormed
  modifiers : ∀ m ∈ u.modifiers, m.WellFormed

variable {b x y : Text}

namespace Grammar

theorem elementName_runs {e : ElementName} (he : e.WellFormed) (hb : ∀ c ∈ b, isBlank c)
    (hy : Delimited y) : Runs elementName (b ++ (e.text ++ y)) y [] (· = some e) := by
  cases e with
  | named n =>
    refine (Runs.accept hb (measured_ident he hy) (by decide) (by decide)).silent fun o ho => ?_
    obtain ⟨t, rfl, hk, ht⟩ := ho
    exact .pure (by simp [ElementName.ofToken?, hk, ht])
  | universal =>
    refine (Runs.accept hb (measured_symbol (c := '*') (by decide) y) (by decide)
      (by decide)).silent fun o ho => ?_
    obtain ⟨t, rfl, hk, ht⟩ := ho
    have hk : t.kind = .star := hk
    exact .pure (by simp [ElementName.ofToken?, hk])

theorem hash_runs {s : Text} (hs : (Modifier.id s).WellFormed) (hb : ∀ c ∈ b, isBlank c)
    (hy : Delimited y) : Runs hash (b ++ (s ++ y)) y [] (· = some (.id s)) := by
  obtain ⟨a, rfl, n, hn, rfl⟩ := hs
  refine (Runs.accept hb (measured_hash hn hy) (by decide) (by decide)).silent fun o ho => ?_
  obtain ⟨t, rfl, hk, ht⟩ := ho
  exact .pure (by rw [ht]; rfl)

theorem className_runs {s : Text} (hs : (Modifier.className s).WellFormed)
    (hb : ∀ c ∈ b, isBlank c) (hy : Delimited y) :
    Runs className (b ++ (s ++ y)) y [] (· = some (.className s)) := by
  obtain ⟨a, rfl, n, hn, rfl⟩ := hs
  obtain ⟨c, v, hc, hdigit, -⟩ := head_of_mem_ident hn.1
  have hdot : Measured .dot ['.'] (n ++ y) := measured_dot (by simp [hc, hdigit])
  refine (Runs.accept hb hdot (by decide) (by decide)).silent fun o ho => ?_
  obtain ⟨_, rfl, -, -⟩ := ho
  have hname : Runs (expect [.ident]) (n ++ y) y [] _ :=
    .expect_here (measured_ident hn hy) (by decide) (by decide)
  exact hname.bind fun t ht => .pure (by rw [ht.2]; rfl)

theorem attribTest_runs {w : Text} (hw : w ∈ opt attribTests) :
    Runs attribTest (w ++ (']' :: y)) (']' :: y) [] (· = w) := by
  have hclose : Measured .rbracket [']'] y := measured_symbol (c := ']') (by decide) y
  rcases hw with hw | ⟨op, hop, v, hv, rfl⟩
  · obtain rfl : w = [] := hw
    exact (Runs.skip (hclose.next (by decide)) (by decide)).quiet (.pure rfl)
  · have hoperator : ∃ k ∈ [Kind.equals, .includes, .dashMatch], Measured k op (v ++ (']' :: y)) := by
      rcases hop with (hop | hop) | hop
      · exact ⟨.equals, by decide, mem_exactly.mp hop ▸ measured_symbol (c := '=') (by decide) _⟩
      · exact ⟨.includes, by decide, mem_exactly.mp hop ▸ measured_includes _⟩
      · exact ⟨.dashMatch, by decide, mem_exactly.mp hop ▸ measured_dashMatch _⟩
    have hvalue : ∃ k ∈ [Kind.ident, .string], Measured k v (']' :: y) := by
      rcases hv with hv | hv
      · exact ⟨.ident, by decide, measured_ident hv (.cons (by decide) (by decide) (by decide))⟩
      · exact ⟨.string, by decide, measured_string hv _⟩
    obtain ⟨k, hk, hop⟩ := hoperator
    obtain ⟨j, hj, hv⟩ := hvalue
    have hspace : k ≠ .space ∧ j ≠ .space := by
      constructor <;> rintro rfl <;> simp at hk hj
    have haccept := Runs.accept_here hop hspace.1 hk
    have hexpect := Runs.expect_here hv hspace.2 hj
    rw [← List.append_assoc] at haccept
    refine haccept.bind fun o ho => ?_
    obtain ⟨t, rfl, -, ht⟩ := ho
    exact hexpect.bind fun u hu => .pure (by rw [ht, hu.2])

theorem delimited_symbol {c : Char} (hc : c ∈ ['#', '.', '[', ']', ':', '=', '~', '|', ')', ',', '>', '+', '{'])
    (s : Text) : Delimited (c :: s) := by
  have hall : ['#', '.', '[', ']', ':', '=', '~', '|', ')', ',', '>', '+', '{'].all
      (fun c => !isNameChar c && c != '\\' && c != '(') := by decide
  have hno := List.all_eq_true.mp hall c hc
  simp only [Bool.and_eq_true, Bool.not_eq_true', bne_iff_ne] at hno
  obtain ⟨⟨h₁, h₂⟩, h₃⟩ := hno
  exact .cons h₁ h₂ h₃

theorem delimited_attribTest {w : Text} (hw : w ∈ opt attribTests) : Delimited (w ++ (']' :: y)) := by
  rcases hw with hw | ⟨op, (hop | hop) | hop, v, -, rfl⟩
  · obtain rfl : w = [] := hw
    exact delimited_symbol (by decide) _
  all_goals
    rw [mem_exactly.mp hop]
    exact delimited_symbol (by decide) _

theorem attrib_runs {s : Text} (hs : (Modifier.attrib s).WellFormed) (hb : ∀ c ∈ b, isBlank c) :
    Runs attrib (b ++ (s ++ y)) y [] (· = some (.attrib s)) := by
  obtain ⟨a, rfl, v, ⟨n, hn, z, ⟨w, hw, d, rfl, rfl⟩, rfl⟩, rfl⟩ := hs
  have hopen := Runs.accept (l := [.lbracket]) hb (measured_symbol (c := '[') (by decide) (n ++ (w ++ (']' :: y))))
    (by decide) (by decide)
  have hname := Runs.expect_here (l := [.ident]) (measured_ident hn (delimited_attribTest (y := y) hw)) (by decide)
    (by decide)
  have hclose := Runs.expect_here (l := [.rbracket]) (measured_symbol (c := ']') (by decide) y) (by decide)
    (by decide)
  have heq : "[".toList ++ (n ++ (w ++ "]".toList)) ++ y = ['['] ++ (n ++ (w ++ (']' :: y))) := by simp
  rw [heq]
  refine hopen.bind fun o ho => ?_
  obtain ⟨t, rfl, -, ht⟩ := ho
  refine hname.bind fun u hu => (attribTest_runs hw).bind fun test htest => hclose.bind fun e he => ?_
  exact .pure (by rw [ht, hu.2, htest, he.2]; simp)

theorem pseudoFunction_runs {n w : Text} (hn : n ∈ functionName) (hw : w ∈ opt plainIdent) :
    Runs pseudoFunction (n ++ ['('] ++ (w ++ (')' :: y))) y [] (· = n ++ ['('] ++ w ++ [')']) := by
  have hclose : Measured .rparen [')'] y := measured_symbol (c := ')') (by decide) y
  have hargument : Runs (accept [.ident]) (w ++ (')' :: y)) (')' :: y) []
      (fun o => o.elim [] Token.text = w) := by
    rcases hw with hw | hw
    · obtain rfl : w = [] := hw
      exact (Runs.skip (hclose.next (by decide)) (by decide)).mono fun o ho => by rw [ho]; rfl
    · have hident := measured_ident hw (delimited_symbol (c := ')') (by decide) y)
      refine (Runs.accept_here hident (by decide) (by decide)).mono fun o ho => ?_
      obtain ⟨t, rfl, -, ht⟩ := ho
      exact ht
  have hcall := Runs.expect_here (l := [.function]) (measured_function hn (w ++ (')' :: y))) (by decide) (by decide)
  have hend := Runs.expect_here (l := [.rparen]) hclose (by decide) (by decide)
  refine hcall.bind fun f hf => hargument.bind fun o ho => hend.bind fun e he => ?_
  exact .pure (by rw [hf.2, ho, he.2])

theorem pseudo_runs {s : Text} (hs : (Modifier.pseudo s).WellFormed) (hb : ∀ c ∈ b, isBlank c)
    (hy : Delimited y) : Runs pseudo (b ++ (s ++ y)) y [] (· = some (.pseudo s)) := by
  have hcolon : ∀ rest, Measured .colon [':'] rest := measured_symbol (c := ':') (by decide)
  obtain ⟨a, rfl, v, hv, rfl⟩ := hs
  refine (Runs.accept (t := [':']) hb (hcolon (v ++ y)) (by decide) (by decide)).bind fun o ho => ?_
  obtain ⟨t, rfl, -, ht⟩ := ho
  rcases hv with hv | ⟨n, hn, z, ⟨p, rfl, z, ⟨w, hw, e, rfl, rfl⟩, rfl⟩, rfl⟩
  · refine (Runs.accept_here (measured_ident hv hy) (by decide) (by decide)).bind fun o ho => ?_
    obtain ⟨u, rfl, -, hu⟩ := ho
    exact .pure (by rw [ht, hu]; rfl)
  · have heq : n ++ ("(".toList ++ (w ++ ")".toList)) ++ y = n ++ ['('] ++ (w ++ (')' :: y)) := by
      simp
    have hcall : Next .function (n ++ ['('] ++ (w ++ (')' :: y))) :=
      (measured_function hn _).next (by decide)
    refine Runs.quiet (a := none) (heq ▸ Runs.skip hcall (by decide)) ?_
    refine (heq ▸ pseudoFunction_runs hn hw).bind fun f hf => .pure ?_
    rw [ht, hf]
    simp

/-- The kind of a modifier's first token. -/
def modifierKind : Modifier → Kind
  | .id _ => .hash
  | .className _ => .dot
  | .attrib _ => .lbracket
  | .pseudo _ => .colon

/-- The first token of a modifier. -/
theorem modifier_front {m : Modifier} (hm : m.WellFormed) (hy : Delimited y) :
    ∃ t rest, m.text ++ y = t ++ rest ∧ Measured (modifierKind m) t rest := by
  cases m with
  | id s =>
    obtain ⟨a, rfl, n, hn, rfl⟩ := hm
    exact ⟨'#' :: n, y, rfl, measured_hash hn hy⟩
  | className s =>
    obtain ⟨a, rfl, n, hn, rfl⟩ := hm
    obtain ⟨c, v, rfl, hdigit, -⟩ := head_of_mem_ident hn.1
    exact ⟨['.'], c :: v ++ y, rfl, measured_dot (by simp [hdigit])⟩
  | attrib s =>
    obtain ⟨a, rfl, v, -, rfl⟩ := hm
    exact ⟨['['], v ++ y, rfl, measured_symbol (c := '[') (by decide) _⟩
  | pseudo s =>
    obtain ⟨a, rfl, v, -, rfl⟩ := hm
    exact ⟨[':'], v ++ y, rfl, measured_symbol (c := ':') (by decide) _⟩

theorem modifierKind_mem (m : Modifier) : modifierKind m ∈ modifierKinds := by
  cases m <;> simp [modifierKind, modifierKinds]

theorem modifier_next {m : Modifier} (hm : m.WellFormed) (hb : ∀ c ∈ b, isBlank c)
    (hy : Delimited y) : Next (modifierKind m) (b ++ (m.text ++ y)) := by
  obtain ⟨t, rest, heq, ht⟩ := modifier_front hm hy
  exact ⟨by cases m <;> simp [modifierKind], b, t, rest, by rw [heq], hb, ht⟩

theorem modifier_runs {m : Modifier} (hm : m.WellFormed) (hb : ∀ c ∈ b, isBlank c)
    (hy : Delimited y) : Runs modifier (b ++ (m.text ++ y)) y [] (· = some m) := by
  have hnext := modifier_next hm hb hy
  have hskip : ∀ {k : Kind} {f : Option Token → Production (Option Modifier)}, modifierKind m ≠ k →
      f none = pure none → Runs (accept [k] >>= f) (b ++ (m.text ++ y)) (b ++ (m.text ++ y)) []
        (· = none) := fun hk hf => (Runs.skip hnext (by simpa using hk)).quiet (hf ▸ .pure rfl)
  cases m with
  | id s => exact .orElse_left (hash_runs hm hb hy)
  | className s => exact .orElse_right (hskip (by simp [modifierKind]) rfl) (.orElse_left (className_runs hm hb hy))
  | attrib s =>
    exact .orElse_right (hskip (by simp [modifierKind]) rfl) (.orElse_right (hskip (by simp [modifierKind]) rfl)
      (.orElse_left (attrib_runs hm hb)))
  | pseudo s =>
    exact .orElse_right (hskip (by simp [modifierKind]) rfl) (.orElse_right (hskip (by simp [modifierKind]) rfl)
      (.orElse_right (hskip (by simp [modifierKind]) rfl) (pseudo_runs hm hb hy)))

/-! What can stand behind a simple selector. -/

/-- A text in front of which a simple selector ends. -/
def Closes (y : Text) : Prop :=
  Delimited y ∧ ((∃ c ∈ y.head?, isBlank c) ∨ ∃ k, Next k y ∧ k ∉ modifierKinds)

theorem delimited_modifiers {ms : List Modifier} (hms : ∀ m ∈ ms, m.WellFormed)
    (hy : Delimited y) : Delimited (ms.flatMap Modifier.text ++ y) := by
  cases ms with
  | nil => exact hy
  | cons m ms =>
    have hm := hms m (by simp)
    cases m
    all_goals
      obtain ⟨a, rfl, n, -, rfl⟩ := hm
      exact delimited_symbol (by decide) _

theorem adjoiningModifier_runs {m : Modifier} (hm : m.WellFormed) (hy : Delimited y) :
    Runs adjoiningModifier (m.text ++ y) y [] (· = some m) := by
  intro ts hts c hc
  obtain ⟨t, rest, heq, ht⟩ := modifier_front hm hy
  obtain ⟨u, us, rfl, hu, -, -⟩ := (heq ▸ hts).front ht
  have hspace : u.isSpace = false := by
    cases m <;> simp [Token.isSpace, hu, modifierKind]
  rw [adjoiningModifier_eq hc, hspace]
  exact modifier_runs (b := []) hm (by simp) hy _ hts c hc

theorem front_blank {ts : List Token} {c : Char} (h : Cut Measured (c :: y) ts) (hc : isBlank c) :
    ∃ u us, ts = u :: us ∧ u.isSpace := by
  have hrun := List.takeWhile_append_dropWhile (p := isBlank) (l := c :: y)
  have hblank : Measured .space ((c :: y).takeWhile isBlank) ((c :: y).dropWhile isBlank) := by
    refine measured_blanks (fun _ hd => List.mem_takeWhile_imp hd) ?_ fun d hd => ?_
    · simp [List.takeWhile_cons_of_pos hc]
    · have hfirst := List.head?_dropWhile_not isBlank (c :: y)
      rwa [Option.mem_def.mp hd] at hfirst
  obtain ⟨u, us, rfl, hu, -, -⟩ := (hrun.symm ▸ h).front hblank
  exact ⟨u, us, rfl, by simp [Token.isSpace, hu]⟩

theorem adjoiningModifier_ends (hy : Closes y) : Runs adjoiningModifier y y [] (· = none) := by
  intro ts hts c hc
  refine ⟨none, c, ts, ?_, rfl, hts, hc⟩
  rcases hy.2 with ⟨d, hd, hblank⟩ | ⟨k, ⟨hk, b, t, rest, rfl, hb, hm⟩, hother⟩
  · obtain ⟨z, rfl⟩ := List.head?_eq_some_iff.mp hd
    obtain ⟨u, us, rfl, hu⟩ := front_blank hts hblank
    obtain ⟨s, t, r, hsplit, hs, ht⟩ := hts.terminated.split
    refine adjoiningModifier_none (hsplit ▸ hc) hs ht (.inl fun hnil => ?_)
    rw [hnil] at hsplit
    obtain ⟨rfl, -⟩ := List.cons.inj hsplit
    simp [hu] at ht
  · obtain ⟨s, u, us, rfl, hs, hu, rfl, -, -⟩ := hts.behind_blanks hb hm hk
    exact adjoiningModifier_none hc hs hu (.inr hother)

theorem manyAdjoining_runs {ms : List Modifier} (hms : ∀ m ∈ ms, m.WellFormed) (hy : Closes y) :
    Runs (many adjoiningModifier) (ms.flatMap Modifier.text ++ y) y [] (· = ms) := by
  induction ms with
  | nil => exact .many_nil adjoiningModifier_advances (adjoiningModifier_ends hy)
  | cons m ms ih =>
    rw [List.forall_mem_cons] at hms
    rw [List.flatMap_cons, List.append_assoc]
    exact .many_cons adjoiningModifier_advances
      (adjoiningModifier_runs hms.1 (delimited_modifiers hms.2 hy.1)) (ih hms.2)

theorem simpleSelector_runs {u : SimpleSelector} (hu : u.WellFormed) (hb : ∀ c ∈ b, isBlank c)
    (hy : Closes y) : Runs simpleSelector (b ++ (u.text ++ y)) y [] (· = some u) := by
  obtain ⟨element, ms, hne⟩ := u
  cases element with
  | some e =>
    have htext : (SimpleSelector.mk (some e) ms hne).text ++ y =
        e.text ++ (ms.flatMap Modifier.text ++ y) := List.append_assoc ..
    rw [htext]
    exact (elementName_runs (hu.element e rfl) hb (delimited_modifiers hu.modifiers hy.1)).quiet
      ((manyAdjoining_runs hu.modifiers hy).quiet (.pure rfl))
  | none =>
    cases ms with
    | nil => simp at hne
    | cons m ms =>
      obtain ⟨hm, hms⟩ := List.forall_mem_cons.mp hu.modifiers
      have hrest := delimited_modifiers hms hy.1
      have htext : (SimpleSelector.mk none (m :: ms) hne).text ++ y =
          m.text ++ (ms.flatMap Modifier.text ++ y) := by simp [SimpleSelector.text]
      have hno : modifierKind m ∉ [Kind.ident, .star] := by cases m <;> simp [modifierKind]
      have hname : Runs elementName (b ++ (m.text ++ (ms.flatMap Modifier.text ++ y))) _ [] (· = none) :=
        (Runs.skip (modifier_next hm hb hrest) hno).quiet (.pure rfl)
      rw [htext]
      exact hname.quiet
        ((modifier_runs hm hb hrest).quiet ((manyAdjoining_runs hms hy).quiet (.pure rfl)))

/-- The first token of a simple selector. -/
theorem unit_front {u : SimpleSelector} (hu : u.WellFormed) (hy : Closes y) :
    ∃ k ∈ unitKinds, ∃ t rest, u.text ++ y = t ++ rest ∧ Measured k t rest := by
  obtain ⟨element, ms, hne⟩ := u
  cases element with
  | some e =>
    have hrest := delimited_modifiers hu.modifiers hy.1
    have htext : (SimpleSelector.mk (some e) ms hne).text ++ y =
        e.text ++ (ms.flatMap Modifier.text ++ y) := List.append_assoc ..
    rw [htext]
    cases e with
    | named n => exact ⟨.ident, by decide, n, _, rfl, measured_ident (hu.element _ rfl) hrest⟩
    | universal => exact ⟨.star, by decide, ['*'], _, rfl, measured_symbol (c := '*') (by decide) _⟩
  | none =>
    cases ms with
    | nil => simp at hne
    | cons m ms =>
      obtain ⟨hm, hms⟩ := List.forall_mem_cons.mp hu.modifiers
      obtain ⟨t, rest, heq, ht⟩ := modifier_front hm (delimited_modifiers hms hy.1)
      refine ⟨_, modifierKinds_subset (modifierKind_mem m), t, rest, ?_, ht⟩
      rw [← heq]
      simp [SimpleSelector.text]

/-! Chains of simple selectors. -/

theorem combinator_skip {k : Kind} (h : Next k x) (hk : Combinator.ofKind? k = none) :
    Runs combinator x x [] (· = none) := fun ts hts c hc =>
  ⟨none, c, ts, combinator_none (by rw [h.kind_eq hts hc, hk]), rfl, hts, hc⟩

theorem combinator_runs {c : Combinator} {k : Kind} {t : Text} (hb : ∀ c ∈ b, isBlank c)
    (ht : Measured k t y) (hspace : k ≠ .space) (hk : Combinator.ofKind? k = some c) :
    Runs combinator (b ++ (t ++ y)) y [] (· = some c) := by
  intro ts hts d hd
  have hend := hts.terminated
  obtain ⟨s, u, us, rfl, hs, hu, rfl, -, hus⟩ := hts.behind_blanks hb ht hspace
  exact ⟨some c, d.advance, us, combinator_some (by rw [hd.next_eq hs hu, hk]), rfl, hus,
    hd.advance hs hu (hend.drop (by simp)) ht.isToken.2⟩

theorem acceptBlank_runs (hb : ∀ c ∈ b, isBlank c) (hne : b ≠ [])
    (hy : ∀ c ∈ y.head?, isBlank c = false) :
    Runs (withSpace true (accept [.space])) (b ++ y) y [] fun o => o.isSome := by
  intro ts hts c hc
  have hend := hts.terminated
  obtain ⟨u, us, rfl, hu, -, hus⟩ := hts.front (measured_blanks hb hne hy)
  obtain ⟨d, hd, hbefore⟩ := acceptBlank_some hend hc (by simp [Token.isSpace, hu])
  exact ⟨some u, d, us, hd, rfl, hus, hbefore⟩

theorem acceptBlank_skip {k : Kind} {t : Text} (ht : Measured k t y) (hk : k ≠ .space) :
    Runs (withSpace true (accept [.space])) (t ++ y) (t ++ y) [] (· = none) := by
  intro ts hts c hc
  have hts' := hts
  obtain ⟨u, us, rfl, rfl, -, -⟩ := hts.front ht
  exact ⟨none, c, _, acceptBlank_none hc (by simpa [Token.isSpace] using hk), rfl, hts', hc⟩

theorem simpleSelector_skip {k : Kind} (h : Next k x) (hk : k ∉ unitKinds) :
    Runs simpleSelector x x [] (· = none) := fun ts hts c hc =>
  ⟨none, c, ts, simpleSelector_none (by rwa [h.kind_eq hts hc]), rfl, hts, hc⟩

/-- A link whose combinator is written as a sign, with blanks around it or none. -/
theorem sign_link_runs {c : Combinator} {k : Kind} {t b' : Text} {u : SimpleSelector}
    (ht : Measured k t (b' ++ (u.text ++ y))) (hk : Combinator.ofKind? k = some c)
    (hb : ∀ c ∈ b, isBlank c) (hb' : ∀ c ∈ b', isBlank c) (hu : u.WellFormed) (hy : Closes y) :
    Runs link (b ++ (t ++ (b' ++ (u.text ++ y)))) y [] (· = some (c, u)) := by
  have hspace : k ≠ .space := by
    rintro rfl
    simp [Combinator.ofKind?] at hk
  exact (combinator_runs hb ht hspace hk).quiet ((simpleSelector_runs hu hb' hy).quiet (.pure rfl))

theorem ofKind?_of_unit {k : Kind} (hk : k ∈ unitKinds) : Combinator.ofKind? k = none := by
  revert hk
  cases k <;> simp [unitKinds, Combinator.ofKind?]

/-- A link of blanks alone. -/
theorem blank_link_runs {u : SimpleSelector} (hb : ∀ c ∈ b, isBlank c) (hne : b ≠ [])
    (hu : u.WellFormed) (hy : Closes y) :
    Runs link (b ++ (u.text ++ y)) y [] (· = some (.descendant, u)) := by
  obtain ⟨k, hk, t, rest, heq, ht⟩ := unit_front hu hy
  have hspace : k ≠ .space := by
    rintro rfl
    exact absurd hk (by decide)
  have hskip : ∀ b : Text, (∀ c ∈ b, isBlank c) →
      Runs combinator (b ++ (u.text ++ y)) (b ++ (u.text ++ y)) [] (· = none) := fun b hb =>
    combinator_skip ⟨hspace, b, t, rest, by rw [heq], hb, ht⟩ (ofKind?_of_unit hk)
  refine (hskip b hb).quiet ?_
  refine (acceptBlank_runs hb hne (heq ▸ ht.head_not_blank hspace)).silent fun o ho => ?_
  obtain ⟨v, rfl⟩ := Option.isSome_iff_exists.mp ho
  exact (hskip [] (by simp)).quiet ((simpleSelector_runs (b := []) hu (by simp) hy).quiet (.pure rfl))

/-- A chain ends before a comma or a brace; if blanks stand before it they are passed. -/
theorem link_ends {k : Kind} {t : Text} (ht : Measured k t y) (hk : k ∈ [Kind.comma, .lbrace])
    (hb : ∀ c ∈ b, isBlank c) : Runs link (b ++ (t ++ y)) (t ++ y) [] (· = none) := by
  have hkind : k ≠ .space ∧ Combinator.ofKind? k = none ∧ k ∉ unitKinds := by
    revert hk
    cases k <;> decide
  obtain ⟨hspace, hsign, hunit⟩ := hkind
  have hskip : ∀ b : Text, (∀ c ∈ b, isBlank c) → Runs combinator (b ++ (t ++ y)) (b ++ (t ++ y)) [] (· = none) :=
    fun b hb => combinator_skip ⟨hspace, b, t, y, rfl, hb, ht⟩ hsign
  refine (hskip b hb).quiet ?_
  by_cases hne : b = []
  · subst hne
    exact (acceptBlank_skip ht hspace).quiet (.pure rfl)
  · refine (acceptBlank_runs hb hne (ht.head_not_blank hspace)).silent fun o ho => ?_
    obtain ⟨u, rfl⟩ := Option.isSome_iff_exists.mp ho
    exact (hskip [] (by simp)).quiet ((simpleSelector_skip (ht.next hspace) hunit).quiet (.pure rfl))

end Grammar
end Stylesheet
