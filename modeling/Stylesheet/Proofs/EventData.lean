import Stylesheet.Proofs.Acceptance
import Stylesheet.Proofs.Languages
import Stylesheet.Proofs.Yields

/-! What the data of events is made of, down to the texts of tokens. -/
namespace Stylesheet
open Computability

/-- The text of a token of `P` whose kind is one of `ks`. -/
def TextOf (P : Token → Prop) (ks : List Kind) (s : Text) : Prop :=
  ∃ t, P t ∧ t.kind ∈ ks ∧ t.text = s

theorem TextOf.mk {P : Token → Prop} {ks : List Kind} {t : Token} (h : P t ∧ t.kind ∈ ks) :
    TextOf P ks t.text := ⟨t, h.1, h.2, rfl⟩

def ElementName.Of (P : Token → Prop) : ElementName → Prop
  | named s => TextOf P [.ident] s
  | universal => True

/-- The comparison of an attribute selector, or nothing. -/
def AttribTestOf (P : Token → Prop) (s : Text) : Prop :=
  s = [] ∨ ∃ op value, TextOf P [.equals, .includes, .dashMatch] op ∧
    TextOf P [.ident, .string] value ∧ s = op ++ value

/-- The opening of a function, a name or nothing, and the closing. -/
def PseudoFunctionOf (P : Token → Prop) (s : Text) : Prop :=
  ∃ function argument closing, TextOf P [.function] function ∧
    (argument = [] ∨ TextOf P [.ident] argument) ∧ TextOf P [.rparen] closing ∧
    s = function ++ argument ++ closing

inductive Modifier.Of (P : Token → Prop) : Modifier → Prop
  | id {s : Text} (h : TextOf P [.hash] s) : Of P (.id s)
  | className {s : Text} (h : TextOf P [.ident] s) : Of P (.className ('.' :: s))
  | attrib {opening name test closing : Text} (ho : TextOf P [.lbracket] opening)
      (hn : TextOf P [.ident] name) (ht : AttribTestOf P test) (hc : TextOf P [.rbracket] closing) :
      Of P (.attrib (opening ++ name ++ test ++ closing))
  | pseudo {colon s : Text} (hc : TextOf P [.colon] colon)
      (hs : TextOf P [.ident] s ∨ PseudoFunctionOf P s) : Of P (.pseudo (colon ++ s))

structure SimpleSelector.Of (P : Token → Prop) (u : SimpleSelector) : Prop where
  element : ∀ e ∈ u.element, e.Of P
  modifiers : ∀ m ∈ u.modifiers, m.Of P

structure Selector.Of (P : Token → Prop) (s : Selector) : Prop where
  first : s.first.Of P
  rest : ∀ l ∈ s.rest, l.2.Of P

/-- A term without its sign. What is written for the arguments of a function is left open. -/
inductive BareTermOf (P : Token → Prop) : TermKind → Text → Prop
  | plain {j : Kind} {k : TermKind} {s : Text} (hj : TermKind.ofKind? j = some k)
      (h : TextOf P [j] s) : BareTermOf P k s
  | color {s : Text} (h : TextOf P [.hash] s) (hc : isHexColor (s.drop 1)) :
      BareTermOf P .hexColor s
  | call {s : Text} (h : TextOf P [.function] s) (arguments : Text) :
      BareTermOf P .function (s ++ arguments ++ [')'])

inductive Term.Of (P : Token → Prop) : Term → Prop
  | mk (sign : Option Sign) {k : TermKind} {s : Text} (p : Position) (h : BareTermOf P k s) :
      Of P (.ofSigned sign s k p)

namespace Value

/-- One term as `T` says. -/
def single (T : Term → Prop) : Language Part := {w | ∃ t, T t ∧ w = [.term t]}

/-- One operator. -/
def operator : Language Part := {w | ∃ o, w = [.operator o]}

/-- What may follow the first term of a value. -/
def more (T : Term → Prop) : Language Part := (opt operator * single T)∗ * opt operator

/-- Terms, with at most one operator behind each of them. -/
def shape (T : Term → Prop) : Language Part := single T * more T

theorem toList_mem_opt (o : Option Operator) : (o.map Part.operator).toList ∈ opt operator := by
  cases o with
  | none => exact nil_mem_opt _
  | some o => exact mem_of_le (le_opt operator) ⟨o, rfl⟩

theorem opt_operator_le_more (T : Term → Prop) : opt operator ≤ more T := by
  simpa [more] using mul_le_mul_left (one_le_kstar (a := opt operator * single T)) (opt operator)

theorem append_mem_more {T : Term → Prop} {t : Term} (ht : T t) {u v : Value}
    (hu : u ∈ opt operator) (hv : v ∈ more T) : u ++ .term t :: v ∈ more T := by
  have hle : (opt operator * single T) * more T ≤ more T := by
    have := mul_le_mul_left (mul_kstar_le_kstar (a := opt operator * single T)) (opt operator)
    rwa [mul_assoc] at this
  have hstep := Language.append_mem_mul (Language.append_mem_mul hu (show [.term t] ∈ single T from ⟨t, ht, rfl⟩)) hv
  simpa using mem_of_le hle hstep

end Value

def MediaList.Of (P : Token → Prop) (l : MediaList) : Prop := ∀ m ∈ l.toList, TextOf P [.ident] m

/-- What the data of an event is made of. -/
def Event.Of (P : Token → Prop) : Event → Prop
  | .startStylesheet | .endStylesheet => True
  | .charset s => ∃ name, TextOf P [.string] name ∧ s = unquote name
  | .importSheet s l =>
    (∃ target, TextOf P [.string, .uri] target ∧ s = importAddress target) ∧ ∀ m ∈ l, m.Of P
  | .startMedia l | .endMedia l => l.Of P
  | .startPage s | .endPage s => ∀ name ∈ s, TextOf P [.ident] name
  | .startRule ss | .endRule ss => ss ≠ [] ∧ ∀ s ∈ ss, s.Of P
  | .property name v _ => TextOf P [.ident] name ∧ v ∈ Value.shape (Term.Of P)

/-- The same with `V` for what is said of a value. -/
def Event.With (P : Token → Prop) (V : Value → Prop) : Event → Prop
  | .property name v _ => TextOf P [.ident] name ∧ V v
  | e => e.Of P

theorem Event.of_with {P : Token → Prop} {e : Event} (h : e.With P (· ∈ Value.shape (Term.Of P))) :
    e.Of P := by
  cases e <;> exact h

namespace Grammar
open Production
variable {P : Token → Prop} {E : Event → Prop}

/-! Selectors. -/

theorem elementName_yields : Yields P E elementName fun o => ∀ e ∈ o, e.Of P := by
  refine (Yields.accept _).option (fun t ht => .pure fun e he => ?_) (.pure (by simp))
  obtain ⟨k, s, p⟩ := t
  obtain ⟨hp, rfl | rfl⟩ : P ⟨k, s, p⟩ ∧ (k = .ident ∨ k = .star) := by simpa using ht
  · obtain rfl : .named s = e := Option.some.inj he
    exact ⟨_, hp, by simp, rfl⟩
  · obtain rfl : .universal = e := Option.some.inj he
    trivial

theorem hash_yields : Yields P E hash fun o => ∀ m ∈ o, m.Of P :=
  (Yields.accept _).option (fun _ ht => .pure (by simpa using .id (.mk ht))) (.pure (by simp))

theorem className_yields : Yields P E className fun o => ∀ m ∈ o, m.Of P := by
  refine (Yields.accept _).option (fun _ _ => ?_) (.pure (by simp))
  exact (Yields.expect _).bind fun name hn => .pure (by simpa using .className (.mk hn))

theorem attribTest_yields : Yields P E attribTest (AttribTestOf P) := by
  refine (Yields.accept _).option (fun op hop => ?_) (.pure (.inl rfl))
  refine (Yields.expect _).bind fun value hv => .pure ?_
  exact .inr ⟨op.text, value.text, .mk hop, .mk hv, rfl⟩

theorem attrib_yields : Yields P E attrib fun o => ∀ m ∈ o, m.Of P := by
  refine (Yields.accept _).option (fun opening ho => ?_) (.pure (by simp))
  refine (Yields.expect _).bind fun name hn => attribTest_yields.bind fun test ht => ?_
  refine (Yields.expect _).bind fun closing hc => .pure ?_
  simpa using Modifier.Of.attrib (.mk ho) (.mk hn) ht (.mk hc)

theorem pseudoFunction_yields : Yields P E pseudoFunction (PseudoFunctionOf P) := by
  refine (Yields.expect _).bind fun function hf => (Yields.accept _).bind fun argument ha => ?_
  refine (Yields.expect _).bind fun closing hc => .pure ?_
  refine ⟨function.text, _, closing.text, .mk hf, ?_, .mk hc, rfl⟩
  cases argument with
  | none => exact .inl rfl
  | some a => exact .inr (.mk (ha a rfl))

theorem pseudo_yields : Yields P E pseudo fun o => ∀ m ∈ o, m.Of P := by
  refine (Yields.accept _).option (fun colon hc => ?_) (.pure (by simp))
  refine (Yields.accept _).option (fun name hn => ?_) ?_
  · exact .pure (by simpa using .pseudo (.mk hc) (.inl (.mk hn)))
  · exact pseudoFunction_yields.bind fun s hs => .pure (by simpa using .pseudo (.mk hc) (.inr hs))

theorem modifier_yields : Yields P E modifier fun o => ∀ m ∈ o, m.Of P :=
  .orElse hash_yields (.orElse className_yields (.orElse attrib_yields pseudo_yields))

theorem adjoiningModifier_yields : Yields P E adjoiningModifier fun o => ∀ m ∈ o, m.Of P := by
  refine (Yields.next.withSpace true).bind fun t _ => ?_
  cases t.isSpace with
  | true => exact .pure (by simp)
  | false => exact modifier_yields

theorem simpleSelector_yields : Yields P E simpleSelector fun o => ∀ u ∈ o, u.Of P := by
  refine elementName_yields.option (fun e he => ?_) (modifier_yields.option (fun m hm => ?_) ?_)
  · refine (Yields.many adjoiningModifier_yields).bind fun ms hms => .pure ?_
    exact fun u hu => Option.some.inj hu ▸ ⟨by simpa using he, hms⟩
  · refine (Yields.many adjoiningModifier_yields).bind fun ms hms => .pure ?_
    exact fun u hu => Option.some.inj hu ▸ ⟨by simp, List.forall_mem_cons.mpr ⟨hm, hms⟩⟩
  · exact .pure (by simp)

theorem combinator_yields : Yields P E combinator fun _ => True := by
  refine (Yields.classify _).bind fun o _ => ?_
  cases o with
  | none => exact .pure trivial
  | some _ => exact .pure trivial

theorem linked_yields (c : Combinator) : Yields P E (linked c) fun o => ∀ l ∈ o, l.2.Of P :=
  simpleSelector_yields.option (fun _ hu => .pure (by simpa using hu)) .reject

theorem linkedAfterSpace_yields : Yields P E linkedAfterSpace fun o => ∀ l ∈ o, l.2.Of P := by
  refine combinator_yields.bind fun o _ => ?_
  cases o with
  | some c => exact linked_yields c
  | none => exact simpleSelector_yields.option (fun _ hu => .pure (by simpa using hu)) (.pure (by simp))

theorem link_yields : Yields P E link fun o => ∀ l ∈ o, l.2.Of P := by
  refine combinator_yields.bind fun o _ => ?_
  cases o with
  | some c => exact linked_yields c
  | none =>
    exact ((Yields.accept _).withSpace true).option (fun _ _ => linkedAfterSpace_yields) (.pure (by simp))

theorem selector_yields : Yields P E selector fun o => ∀ s ∈ o, s.Of P := by
  refine simpleSelector_yields.option (fun first hf => ?_) (.pure (by simp))
  refine (Yields.many link_yields).bind fun rest hr => .pure ?_
  exact fun s hs => Option.some.inj hs ▸ ⟨hf, hr⟩

/-! Values. -/

theorem operator_yields : Yields P E operator fun _ => True := by
  refine (Yields.classify _).bind fun o _ => ?_
  cases o with
  | none => exact .pure trivial
  | some _ => exact .pure trivial

theorem sign_yields : Yields P E sign fun _ => True := by
  refine (Yields.classify _).bind fun o _ => ?_
  cases o with
  | none => exact .pure trivial
  | some _ => exact .pure trivial

theorem plainTerm_yields : Yields P E plainTerm fun o => ∀ a ∈ o, BareTermOf P a.1 a.2 := by
  refine (Yields.classify _).option (fun a ha => .pure ?_) (.pure (by simp))
  simpa using BareTermOf.plain ha.2 ⟨a.2, ha.1, by simp, rfl⟩

theorem hexColor_yields : Yields P E hexColor fun o => ∀ a ∈ o, BareTermOf P a.1 a.2 := by
  refine (Yields.accept _).option (fun t ht => ?_) (.pure (by simp))
  dsimp only
  split
  next hc => exact .pure (by simpa using BareTermOf.color (.mk ht) hc)
  next => exact .fail _

section
variable {arguments : Production Value} {Q : Value → Prop}

theorem function_yields (h : Yields P E arguments Q) :
    Yields P E (function arguments) fun o => ∀ a ∈ o, BareTermOf P a.1 a.2 := by
  refine (Yields.accept _).option (fun t ht => ?_) (.pure (by simp))
  refine h.bind fun v _ => (Yields.accept _).bind fun _ _ => .pure ?_
  simpa using BareTermOf.call (.mk ht) (v.flatMap Value.Part.text)

theorem term_yields (h : Yields P E arguments Q) :
    Yields P E (term arguments) fun o => ∀ t ∈ o, t.Of P := by
  refine Yields.next.bind fun start _ => sign_yields.bind fun s _ => ?_
  refine (Yields.orElse plainTerm_yields (.orElse hexColor_yields (function_yields h))).option
    (fun a ha => .pure ?_) (.pure (by simp))
  simpa using Term.Of.mk s start.position ha

theorem moreParts_yields (h : Yields P E arguments Q) :
    Yields P E (moreParts arguments) (· ∈ Value.more (Term.Of P)) := by
  refine .recursive fun again hagain => operator_yields.bind fun o _ => ?_
  have ho := Value.toList_mem_opt o
  refine (term_yields h).option (fun t ht => hagain.bind fun v hv => .pure ?_) (.pure ?_)
  · exact Value.append_mem_more ht ho hv
  · exact mem_of_le (Value.opt_operator_le_more _) ho

theorem parts_yields (h : Yields P E arguments Q) :
    Yields P E (parts arguments) fun v => v = [] ∨ v ∈ Value.shape (Term.Of P) := by
  refine (term_yields h).option (fun t ht => (moreParts_yields h).bind fun v hv => .pure ?_)
    (.pure (.inl rfl))
  exact .inr (Language.append_mem_mul (show [.term t] ∈ Value.single _ from ⟨t, ht, rfl⟩) hv)

end

theorem value_yields : Yields P E value fun v => v = [] ∨ v ∈ Value.shape (Term.Of P) :=
  .recursive fun _ h => parts_yields h

/-! Statements, which fire events. What they need to know of a value is that it is empty or as `V` says. -/

theorem many_yields {α : Type} {p : Production (Option α)} (h : Yields P E p fun _ => True) :
    Yields P E (many p) fun _ => True :=
  (Yields.many (Q := fun _ => True) (h.mono (by simp))).mono (by simp)

theorem nextSelector_yields : Yields P E nextSelector fun o => ∀ s ∈ o, s.Of P := by
  refine (Yields.accept _).option (fun _ _ => ?_) (.pure (by simp))
  exact selector_yields.option (fun _ hs => .pure (by simpa using hs)) .reject

/-- A block whose start and end carry the same data. -/
theorem block_yields {α : Type} {b e : Event} {p : Production α} (hb : E b) (he : E e)
    (h : Yields P E p fun _ => True) :
    Yields P E (do let _ ← expect [.lbrace]; fire b; let _ ← p; let _ ← expect [.rbrace]; fire e)
      fun _ => True :=
  (Yields.expect _).bind fun _ _ => (Yields.fire hb).bind fun _ _ => h.bind fun _ _ =>
    (Yields.expect _).bind fun _ _ => .fire he

theorem nextMedium_yields : Yields P E nextMedium fun o => ∀ m ∈ o, TextOf P [.ident] m := by
  refine (Yields.accept _).option (fun _ _ => ?_) (.pure (by simp))
  exact (Yields.expect _).bind fun name hn => .pure (by simpa using .mk hn)

theorem mediaList_yields : Yields P E mediaList fun l => l.Of P :=
  (Yields.expect _).bind fun _ hf => (Yields.many nextMedium_yields).bind fun _ hr =>
    .pure (List.forall_mem_cons.mpr ⟨.mk hf, hr⟩)

theorem pagePseudo_yields :
    Yields P E pagePseudo fun o => ∀ name ∈ o, TextOf P [.ident] name := by
  refine (Yields.accept _).option (fun _ _ => ?_) (.pure (by simp))
  exact (Yields.expect _).bind fun name hn => .pure (by simpa using .mk hn)

theorem marks_yields : Yields P E marks fun _ => True :=
  (Yields.many (Yields.accept _)).bind fun _ _ => .pure trivial

theorem importMedia_yields : Yields P E importMedia fun o => ∀ l ∈ o, l.Of P := by
  refine Yields.next.bind fun t _ => ?_
  by_cases ht : t.kind = .ident
  · rw [if_pos ht]
    exact mediaList_yields.bind fun l hl => .pure (by simpa using hl)
  · rw [if_neg ht]
    exact .pure (by simp)

section
variable {V : Value → Prop}

theorem charset_yields : Yields P (Event.With P V) charset fun _ => True := by
  refine (Yields.accept _).option (fun _ _ => ?_) (.pure trivial)
  exact (Yields.expect _).bind fun name hn => (Yields.expect _).bind fun _ _ =>
    .fire ⟨name.text, .mk hn, rfl⟩

theorem importSheet_yields : Yields P (Event.With P V) importSheet fun _ => True := by
  refine (Yields.accept _).option (fun _ _ => ?_) (.pure trivial)
  refine (Yields.expect _).bind fun target ht => importMedia_yields.bind fun l hl => ?_
  refine (Yields.expect _).bind fun _ _ => (Yields.fire ⟨⟨_, .mk ht, rfl⟩, hl⟩).bind fun _ _ => ?_
  exact marks_yields.bind fun _ _ => .pure trivial

variable (hvalue : Yields P (Event.With P V) value fun v => v = [] ∨ V v)
include hvalue

theorem declaration_yields : Yields P (Event.With P V) declaration fun _ => True := by
  refine (Yields.accept _).option (fun name hn => ?_) (.pure trivial)
  refine (Yields.expect _).bind fun _ _ => hvalue.bind fun v hv => ?_
  cases hempty : v.isEmpty with
  | true => exact .reject
  | false =>
    have hv : V v := hv.resolve_left (by simpa using hempty)
    exact (Yields.accept _).bind fun _ _ => (Yields.fire ⟨.mk hn, hv⟩).bind fun _ _ => .pure trivial

theorem nextDeclaration_yields : Yields P (Event.With P V) nextDeclaration fun _ => True :=
  (Yields.accept _).option (fun _ _ => (declaration_yields hvalue).bind fun _ _ => .pure trivial)
    (.pure trivial)

theorem declarations_yields : Yields P (Event.With P V) declarations fun _ => True :=
  (declaration_yields hvalue).bind fun _ _ =>
    (many_yields (nextDeclaration_yields hvalue)).bind fun _ _ => .pure trivial

theorem ruleset_yields : Yields P (Event.With P V) ruleset fun _ => True := by
  refine selector_yields.option (fun first hf => ?_) (.pure trivial)
  refine (Yields.many nextSelector_yields).bind fun rest hr => ?_
  have hss : first :: rest ≠ [] ∧ ∀ s ∈ first :: rest, s.Of P :=
    ⟨by simp, List.forall_mem_cons.mpr ⟨hf, hr⟩⟩
  exact (block_yields hss hss (declarations_yields hvalue)).bind fun _ _ => .pure trivial

theorem media_yields : Yields P (Event.With P V) media fun _ => True := by
  refine (Yields.expect _).bind fun _ _ => mediaList_yields.bind fun l hl => ?_
  exact block_yields (b := .startMedia l) (e := .endMedia l) hl hl (many_yields (ruleset_yields hvalue))

theorem page_yields : Yields P (Event.With P V) page fun _ => True :=
  (Yields.expect _).bind fun _ _ => pagePseudo_yields.bind fun _ hn =>
    block_yields hn hn (declarations_yields hvalue)

theorem statement_yields : Yields P (Event.With P V) statement fun _ => True := by
  refine Yields.next.bind fun t _ => ?_
  split
  · exact .pure trivial
  · exact (Yields.accept _).bind fun _ _ => .pure trivial
  · exact (Yields.accept _).bind fun _ _ => .pure trivial
  · exact (media_yields hvalue).bind fun _ _ => .pure trivial
  · exact (page_yields hvalue).bind fun _ _ => .pure trivial
  · refine (ruleset_yields hvalue).bind fun o _ => ?_
    cases o with
    | some _ => exact .pure trivial
    | none => exact .reject

theorem stylesheet_yields : Yields P (Event.With P V) stylesheet fun _ => True :=
  (Yields.fire trivial).bind fun _ _ => charset_yields.bind fun _ _ => marks_yields.bind fun _ _ =>
    (many_yields importSheet_yields).bind fun _ _ =>
      (many_yields (statement_yields hvalue)).bind fun _ _ => .fire trivial

end
end Grammar

variable {P : Token → Prop} {css : Text}

/-- What is known of the tokens of a text and of the values that are read from them is known of the
data of all events, if the parse fails or not. -/
theorem events_with {V : Value → Prop} (h : ∀ t ∈ tokens css, P t)
    (hvalue : Yields P (Event.With P V) Grammar.value fun v => v = [] ∨ V v) :
    ∀ e ∈ (parse css).events, e.With P V :=
  (Grammar.stylesheet_yields hvalue _ ((tokens_terminated css).before.all h)).events

/-- The data of all events of a text is made of what its tokens are, if the parse fails or not. -/
theorem events_of_tokens (h : ∀ t ∈ tokens css, P t) : ∀ e ∈ (parse css).events, e.Of P :=
  fun e he => Event.of_with (events_with h Grammar.value_yields e he)

end Stylesheet
