import Stylesheet.Proofs.EventData
import Stylesheet.Proofs.Scanning

/-! The data of events is well-formed, whether the parse goes on to succeed or not. -/
namespace Stylesheet
open Computability Lexical

/-- A token as the text has it: the end, or measured where it stands. -/
def Token.Lexed (t : Token) : Prop := t.kind = .eof ∨ ∃ rest, Measured t.kind t.text rest

theorem Cut.lexed {x : Text} {ts : List Token} (h : Cut Measured x ts) : ∀ t ∈ ts, t.Lexed := by
  induction h with
  | last _ he _ => exact fun t ht => .inl (List.mem_singleton.mp ht ▸ he)
  | token _ h _ ih => exact List.forall_mem_cons.mpr ⟨.inr ⟨_, h⟩, ih⟩

theorem lexed_tokens (css : Text) : ∀ t ∈ tokens css, t.Lexed := (cut_tokens css).lexed

theorem Measured.mem_production {k : Kind} {t rest : Text} (h : Measured k t rest)
    (hk : k ∉ otherKinds) : t ∈ production k := (h.scanned hk).longest.1

/-- The text of a token of one kind. -/
theorem TextOf.measured {k : Kind} {s : Text} (h : TextOf Token.Lexed [k] s) (hk : k ≠ .eof) :
    ∃ rest, Measured k s rest := by
  obtain ⟨t, ht, hkind, rfl⟩ := h
  obtain rfl := List.mem_singleton.mp hkind
  exact ht.resolve_left hk

theorem TextOf.mem_production {k : Kind} {s : Text} (h : TextOf Token.Lexed [k] s)
    (hk : k ∉ otherKinds) : s ∈ production k := by
  obtain ⟨rest, hm⟩ := h.measured (by rintro rfl; exact hk (by decide))
  exact hm.mem_production hk

/-! What well-formed data is. -/

/-- The text shows what the modifier is. -/
def Modifier.Proper : Modifier → Prop
  | .id s => s.head? = some '#'
  | .className s => s.head? = some '.'
  | .attrib s => s.head? = some '[' ∧ s.getLast? = some ']'
  | .pseudo s => s.head? = some ':'

structure SimpleSelector.Proper (u : SimpleSelector) : Prop where
  nonempty : u.element.isSome ∨ u.modifiers ≠ []
  text : u.text = (u.element.map ElementName.text).getD [] ++ (u.modifiers.map Modifier.text).flatten
  modifiers : ∀ m ∈ u.modifiers, m.Proper

/-- Units and combinators in turn, with a unit at both ends. -/
inductive Selector.Alternating : List Selector.Part → Prop
  | last (u : SimpleSelector) : Alternating [.unit u]
  | link (u : SimpleSelector) (c : Combinator) {ps : List Selector.Part} (h : Alternating ps) :
      Alternating (.unit u :: .combinator c :: ps)

structure Selector.Proper (s : Selector) : Prop where
  alternating : Alternating s.parts
  units : ∀ u, .unit u ∈ s.parts → u.Proper

structure Term.Proper (t : Term) : Prop where
  color : t.kind = .hexColor → ∃ (sign : Option Sign) (digits : Text),
    t.text = (sign.map Sign.symbol).toList ++ '#' :: digits ∧
      (digits.length = 3 ∨ digits.length = 6) ∧ ∀ d ∈ digits, isHexDigit d
  call : t.kind = .function → t.text.getLast? = some ')'

structure Value.Proper (v : Value) : Prop where
  shape : v ∈ Value.shape Term.Proper
  nonempty : v ≠ []
  starts : ∃ t, v.head? = some (.term t)
  /-- Of two parts side by side one is a term. -/
  apart : v.IsChain fun p q => p.term?.isSome ∨ q.term?.isSome

def Event.Proper : Event → Prop
  | .startRule ss | .endRule ss => ss ≠ [] ∧ ∀ s ∈ ss, s.Proper
  | .startMedia l | .endMedia l => l.toList ≠ []
  | .importSheet _ l => ∀ m ∈ l, m.toList ≠ []
  | .property _ v _ => v.Proper
  | .startStylesheet | .charset _ | .startPage _ | .endPage _ | .endStylesheet => True

/-! Selectors. -/

theorem head?_of_mem_exactly_mul {c : Char} {K : Language Char} {s : Text}
    (h : s ∈ ({[c]} : Language Char) * K) : s.head? = some c := by
  obtain ⟨_, rfl, v, -, rfl⟩ := Language.mem_mul.mp h
  rfl

theorem Modifier.Of.proper {m : Modifier} (h : m.Of Token.Lexed) : m.Proper := by
  cases h with
  | id h => exact head?_of_mem_exactly_mul (c := '#') (h.mem_production (by decide))
  | className _ => rfl
  | attrib ho _ _ hc =>
    obtain rfl := mem_exactly.mp (ho.mem_production (by decide))
    obtain rfl := mem_exactly.mp (hc.mem_production (by decide))
    exact ⟨rfl, List.getLast?_append_of_ne_nil _ (by simp)⟩
  | pseudo hc _ =>
    obtain rfl := mem_exactly.mp (hc.mem_production (by decide))
    rfl

theorem SimpleSelector.Of.proper {u : SimpleSelector} (h : u.Of Token.Lexed) : u.Proper where
  nonempty := u.nonempty
  text := by
    rw [SimpleSelector.text, List.flatMap]
    cases u.element <;> rfl
  modifiers m hm := (h.modifiers m hm).proper

theorem Selector.alternating_parts (s : Selector) : Alternating s.parts := by
  obtain ⟨first, rest⟩ := s
  induction rest generalizing first with
  | nil => exact .last first
  | cons l rest ih => exact .link first l.1 (ih l.2)

theorem Selector.mem_units_of_mem_parts {s : Selector} {u : SimpleSelector}
    (h : .unit u ∈ s.parts) : u = s.first ∨ ∃ l ∈ s.rest, u = l.2 := by
  simpa [Selector.parts] using h

theorem Selector.Of.proper {s : Selector} (h : s.Of Token.Lexed) : s.Proper where
  alternating := s.alternating_parts
  units u hu := by
    obtain rfl | ⟨l, hl, rfl⟩ := mem_units_of_mem_parts hu
    · exact h.first.proper
    · exact (h.rest l hl).proper

/-! Values. -/

/-- Colors and calls are no kinds of single tokens. -/
theorem TermKind.ofKind?_ne {j : Kind} {k : TermKind} (h : TermKind.ofKind? j = some k) :
    k ≠ .hexColor ∧ k ≠ .function := by
  have hall : ∀ k ∈ TermKind.ofKind? j, k ≠ .hexColor ∧ k ≠ .function := by
    cases j <;> simp [TermKind.ofKind?]
  exact hall k h

theorem Term.Of.proper {t : Term} (h : t.Of Token.Lexed) : t.Proper := by
  cases h with | @mk sign k s p h =>
  cases h with
  | plain hj _ =>
    have hne := TermKind.ofKind?_ne hj
    exact ⟨fun he => absurd he hne.1, fun he => absurd he hne.2⟩
  | color h hc =>
    refine ⟨fun _ => ⟨sign, s.drop 1, ?_, (Grammar.isHexColor_iff _).mp hc⟩,
      by simp [Term.ofSigned]⟩
    obtain ⟨r, rfl⟩ := List.head?_eq_some_iff.mp
      (head?_of_mem_exactly_mul (c := '#') (h.mem_production (by decide)))
    rfl
  | call h arguments =>
    refine ⟨by simp [Term.ofSigned], fun _ => ?_⟩
    rw [Term.ofSigned, ← List.append_assoc]
    exact List.getLast?_concat

namespace Value
variable {T U : Term → Prop} {v : Value}

theorem shape_mono (h : ∀ t, T t → U t) : shape T ≤ shape U := by
  have hs : single T ≤ single U := fun w ⟨t, ht, hw⟩ => ⟨t, h t ht, hw⟩
  exact mul_le_mul' hs (mul_le_mul' (kstar_mono (mul_le_mul' le_rfl hs)) le_rfl)

theorem mem_opt_operator (h : v ∈ opt operator) : v = [] ∨ ∃ o, v = [.operator o] := h

/-- Induction over what follows a term: nothing, an operator, or a term with an operator or none
before it. -/
theorem more_induction {M : Value → Prop} (nil : M []) (operator : ∀ o, M [.operator o])
    (term : ∀ t v, T t → M v → M (.term t :: v))
    (operated : ∀ o t v, T t → M v → M (.operator o :: .term t :: v)) (h : v ∈ more T) : M v := by
  obtain ⟨w, hw, z, hz, rfl⟩ := Language.mem_mul.mp h
  refine kstar_induction (P := fun w => M (w ++ z)) ?_ (fun u x hu _ ih => ?_) hw
  · obtain rfl | ⟨o, rfl⟩ := mem_opt_operator hz
    · exact nil
    · exact operator o
  · obtain ⟨y, hy, _, ⟨t, ht, rfl⟩, rfl⟩ := Language.mem_mul.mp hu
    obtain rfl | ⟨o, rfl⟩ := mem_opt_operator hy
    · exact term t _ ht ih
    · exact operated o t _ ht ih

theorem apart_of_shape (h : v ∈ shape T) :
    v.IsChain fun p q => p.term?.isSome ∨ q.term?.isSome := by
  obtain ⟨_, ⟨t, -, rfl⟩, w, hw, rfl⟩ := Language.mem_mul.mp h
  refine more_induction (M := fun w : Value => ∀ t, List.IsChain
    (fun p q : Part => p.term?.isSome ∨ q.term?.isSome) (.term t :: w)) ?_ ?_ ?_ ?_ hw t
  · simp
  · simp [Part.term?]
  · intro u v _ ih t
    simpa [Part.term?] using ih u
  · intro o u v _ ih t
    simpa [Part.term?] using ih u

theorem proper_of_shape (h : v ∈ shape Term.Proper) : v.Proper := by
  obtain ⟨_, ⟨t, ht, rfl⟩, w, hw, rfl⟩ := Language.mem_mul.mp h
  exact ⟨h, by simp, ⟨t, rfl⟩, apart_of_shape h⟩

end Value

/-- The data of every event is well-formed, of those before a failure too. -/
theorem events_proper (css : Text) : ∀ e ∈ (parse css).events, e.Proper := by
  intro e he
  have h := events_of_tokens (lexed_tokens css) e he
  cases e with
  | startRule ss | endRule ss => exact ⟨h.1, fun s hs => (h.2 s hs).proper⟩
  | property name v important =>
    refine Value.proper_of_shape (mem_of_le (Value.shape_mono fun t ht => ?_) h.2)
    exact ht.proper
  | startMedia l | endMedia l => simp [Event.Proper, MediaList.toList]
  | importSheet s l => simp [Event.Proper, MediaList.toList]
  | _ => trivial

/-- A rule that lacks its end, with a signed color in it. -/
def unendedRule : Text := "a\x7bb:-#fff".toList

/-- Its declaration is reported before the parse fails. -/
theorem unendedRule_proper :
    .property ['b'] [.term ⟨"-#fff".toList, .hexColor, ⟨1, 5⟩⟩] false ∈ (parse unendedRule).events ∧
    (parse unendedRule).error = some ⟨[], ⟨1, 10⟩⟩ ∧
    Event.Proper (.property ['b'] [.term ⟨"-#fff".toList, .hexColor, ⟨1, 5⟩⟩] false) := by
  have hevents : (parse unendedRule).events = [.startStylesheet,
      .startRule [⟨⟨some (.named ['a']), [], .inl rfl⟩, []⟩],
      .property ['b'] [.term ⟨"-#fff".toList, .hexColor, ⟨1, 5⟩⟩] false] := by cbv
  have hmem : .property ['b'] [.term ⟨"-#fff".toList, .hexColor, ⟨1, 5⟩⟩] false ∈
      (parse unendedRule).events := by
    rw [hevents]
    simp
  exact ⟨hmem, by cbv, events_proper unendedRule _ hmem⟩

end Stylesheet
