import Stylesheet.Proofs.CommandLines
import Stylesheet.Proofs.ProperEvents
import Stylesheet.Proofs.TermTexts
import Stylesheet.Proofs.WrittenSelectors

/-! How many lines a listing has: one for each event, and one more for each line feed in the data of an
event. Such a line feed stands in the text of a token. Where the data is shown in quotes there is none. -/
namespace Stylesheet
open Computability Lexical

/-! Texts without line feeds. -/

theorem newline_not_mem_toDigits (n : Nat) : '\n' ∉ Nat.toDigits 16 n := by
  induction n using Nat.strongRecOn with
  | ind n ih =>
    rw [Nat.toDigits_eq_if (by decide)]
    split
    next => simp
    next hn => simp [ih (n / 16) (by omega)]

theorem newline_not_mem_quotedChar (c : Char) : '\n' ∉ quotedChar c := by
  unfold quotedChar
  split
  case h_7 hn _ _ _ =>
    split
    · exact fun hm => hn (List.mem_singleton.mp hm).symm
    · simp [newline_not_mem_toDigits]
  all_goals decide

theorem newline_not_mem_quoted (s : Text) : '\n' ∉ quoted s := by
  simp [quoted, newline_not_mem_quotedChar]

/-- Kinds of tokens whose texts have no line feed: numbers, and marks. -/
def flatKinds : List Kind :=
  [.number, .percentage, .ems, .exs, .length, .angle, .time, .freq, .includes, .dashMatch, .equals,
    .lbracket, .rbracket, .rparen, .colon]

variable {k : Kind} {ks : List Kind} {s t : Text} {P : Token → Prop}

theorem newline_not_mem_spelling (hs : s ∈ spelling unitNames k) : '\n' ∉ s := by
  have hnames : ∀ n ∈ unitNames k, '\n' ∉ n := by cases k <;> decide
  exact fun hm => hnames _ hs.2 (List.mem_map.mpr ⟨'\n', hm, rfl⟩)

theorem newline_not_mem_number (hk : k ∈ numericKinds) (hdim : k ≠ .dimension)
    (hs : s ∈ number * suffixOf k) : '\n' ∉ s := by
  obtain ⟨n, hn, u, hu, rfl⟩ := Language.mem_mul.mp hs
  have hnumber : '\n' ∉ n := fun hm => absurd (mem_number hn '\n' hm) (by decide)
  have hunit : '\n' ∉ u := by
    rcases suffix_cases hk hdim hu with ⟨-, rfl⟩ | ⟨-, rfl⟩ | hu
    · exact List.not_mem_nil
    · decide
    · exact newline_not_mem_spelling hu
  simp [hnumber, hunit]

theorem newline_not_mem_flat (hk : k ∈ flatKinds) (hs : s ∈ production k) : '\n' ∉ s := by
  by_cases hnumeric : k ∈ numericKinds
  · have hdim : k ≠ .dimension := by
      rintro rfl
      exact absurd hk (by decide)
    exact newline_not_mem_number hnumeric hdim (production_numeric hnumeric ▸ hs)
  · cases k
    case includes | dashMatch | equals | lbracket | rbracket | rparen | colon =>
      rw [mem_exactly.mp hs]
      decide
    all_goals first
      | exact absurd hk (by decide)
      | exact absurd (by decide) hnumeric

theorem newline_not_mem_color (hs : s ∈ production .hash) (hc : isHexColor (s.drop 1)) : '\n' ∉ s := by
  obtain ⟨r, rfl⟩ := List.head?_eq_some_iff.mp (head?_of_mem_exactly_mul (c := '#') hs)
  have hdigits : ∀ d ∈ r, isHexDigit d := by simpa using (Bool.and_eq_true_iff.mp hc).2
  simp only [List.mem_cons, not_or]
  exact ⟨by decide, fun hm => absurd (hdigits '\n' hm) (by decide)⟩

/-! Texts with line feeds that tokens bring along. -/

/-- A line feed in `s` is there because one stands in a token of `P` whose kind is one of `ks`. -/
def Carried (P : Token → Prop) (ks : List Kind) (s : Text) : Prop :=
  '\n' ∈ s → ∃ t, P t ∧ t.kind ∈ ks ∧ '\n' ∈ t.text

namespace Carried

theorem of_not_mem (h : '\n' ∉ s) : Carried P ks s := fun hm => absurd hm h

theorem append (hs : Carried P ks s) (ht : Carried P ks t) : Carried P ks (s ++ t) :=
  fun hm => (List.mem_append.mp hm).elim hs ht

theorem flatMap {α : Type} {f : α → Text} {as : List α} (h : ∀ a ∈ as, Carried P ks (f a)) :
    Carried P ks (as.flatMap f) := by
  intro hm
  obtain ⟨a, ha, hm⟩ := List.mem_flatMap.mp hm
  exact h a ha hm

theorem intercalate {ts : List Text} (hs : Carried P ks s) (h : ∀ t ∈ ts, Carried P ks t) :
    Carried P ks (s.intercalate ts) := by
  cases ts with
  | nil => exact of_not_mem (by simp [List.intercalate])
  | cons t ts =>
    obtain ⟨ht, hts⟩ := List.forall_mem_cons.mp h
    rw [intercalate_cons]
    exact ht.append (flatMap fun u hu => hs.append (hts u hu))

end Carried

/-- The kinds of tokens that can bring a line feed into a selector. -/
def selectorCarriers : List Kind := [.ident, .hash, .function, .string]

/-- The kinds of tokens that can bring a line feed into a value. -/
def valueCarriers : List Kind := [.ident, .function, .string, .uri]

/-- The kinds of tokens that can bring a line feed into the line of an event. -/
def EventKind.carriers : EventKind → List Kind
  | startStylesheet | endStylesheet | charset => []
  | importSheet | startMedia | endMedia | startPage | endPage => [.ident]
  | startRule | endRule => selectorCarriers
  | property => valueCarriers

theorem EventKind.carriers_subset (k : EventKind) :
    k.carriers ⊆ [Kind.ident, .hash, .function, .string, .uri] := by
  cases k <;> decide

/-- The line feeds in a value are those of tokens. -/
def Value.Carries (P : Token → Prop) (v : Value) : Prop := ∀ p ∈ v, Carried P valueCarriers p.text

theorem Value.Carries.renderAfter {v : Value} (h : v.Carries P) (before : Value.Part) :
    Carried P valueCarriers (Value.renderAfter before v) := by
  have hgap : ∀ p q, '\n' ∉ gap p q := by
    intro p q
    rcases p with _ | _ | _ <;> rcases q with _ | _ <;> simp [gap]
  induction v generalizing before with
  | nil => exact .of_not_mem List.not_mem_nil
  | cons p v ih =>
    obtain ⟨hp, hv⟩ := List.forall_mem_cons.mp h
    exact ((Carried.of_not_mem (hgap before p)).append hp).append (ih hv p)

theorem Value.Carries.render {v : Value} (h : v.Carries P) : Carried P valueCarriers v.render := by
  cases v with
  | nil => exact .of_not_mem List.not_mem_nil
  | cons p v =>
    obtain ⟨hp, hv⟩ := List.forall_mem_cons.mp h
    exact hp.append (renderAfter hv p)

section
variable (hP : ∀ t, P t → t.Lexed)
include hP

theorem TextOf.carried {js : List Kind} (h : TextOf P js s) (hj : ∀ j ∈ js, j ∈ flatKinds ∨ j ∈ ks) :
    Carried P ks s := by
  obtain ⟨t, ht, hkind, rfl⟩ := h
  rcases hj _ hkind with hflat | hmem
  · have hother : t.kind ∉ otherKinds ∧ t.kind ≠ .eof := by
      revert hflat
      cases t.kind <;> decide
    obtain ⟨rest, hm⟩ := (hP t ht).resolve_left hother.2
    exact .of_not_mem (newline_not_mem_flat hflat (hm.mem_production hother.1))
  · exact fun hm => ⟨t, ht, hmem, hm⟩

/-! Selectors. -/

theorem AttribTestOf.carried (h : AttribTestOf P s) : Carried P selectorCarriers s := by
  obtain rfl | ⟨op, value, hop, hvalue, rfl⟩ := h
  · exact .of_not_mem List.not_mem_nil
  · exact (hop.carried hP (by decide)).append (hvalue.carried hP (by decide))

theorem PseudoFunctionOf.carried (h : PseudoFunctionOf P s) : Carried P selectorCarriers s := by
  obtain ⟨function, argument, closing, hf, ha, hc, rfl⟩ := h
  have ha : Carried P selectorCarriers argument := by
    obtain rfl | ha := ha
    · exact .of_not_mem List.not_mem_nil
    · exact ha.carried hP (by decide)
  exact ((hf.carried hP (by decide)).append ha).append (hc.carried hP (by decide))

theorem Modifier.Of.carried {m : Modifier} (h : m.Of P) : Carried P selectorCarriers m.text := by
  cases h with
  | id h => exact h.carried hP (by decide)
  | className h =>
    exact Carried.append (s := ['.']) (.of_not_mem (by decide)) (h.carried hP (by decide))
  | attrib ho hn ht hc =>
    exact (((ho.carried hP (by decide)).append (hn.carried hP (by decide))).append (ht.carried hP)).append
      (hc.carried hP (by decide))
  | pseudo hc hs =>
    exact (hc.carried hP (by decide)).append (hs.elim (·.carried hP (by decide)) (·.carried hP))

theorem SimpleSelector.Of.carried {u : SimpleSelector} (h : u.Of P) :
    Carried P selectorCarriers u.text := by
  refine Carried.append ?_ (.flatMap fun m hm => (h.modifiers m hm).carried hP)
  cases he : u.element with
  | none => exact .of_not_mem List.not_mem_nil
  | some e =>
    have hof := h.element e he
    cases e with
    | named name => exact hof.carried hP (by decide)
    | universal => exact .of_not_mem (by decide)

theorem Selector.Of.carried {s : Selector} (h : s.Of P) : Carried P selectorCarriers s.text := by
  refine (h.first.carried hP).append (.flatMap fun l hl => .append (.of_not_mem ?_) ((h.rest l hl).carried hP))
  cases l.1 <;> decide

/-! Values. -/

namespace Grammar
open Production
variable {E : Event → Prop}

theorem plainTerm_carries : Yields P E plainTerm fun o => ∀ a ∈ o, Carried P valueCarriers a.2 := by
  refine (Yields.classify _).option (fun a ha => .pure ?_) (.pure (by simp))
  have htext : TextOf P [a.2.kind] a.2.text := ⟨a.2, ha.1, by simp, rfl⟩
  have hkind : a.2.kind ∈ flatKinds ∨ a.2.kind ∈ valueCarriers := by
    have hsome := ha.2
    revert hsome
    cases a.2.kind <;> simp [TermKind.ofKind?, flatKinds, valueCarriers]
  simpa using htext.carried hP (by simpa using hkind)

theorem hexColor_carries : Yields P E hexColor fun o => ∀ a ∈ o, Carried P valueCarriers a.2 := by
  refine (Yields.accept _).option (fun t ht => ?_) (.pure (by simp))
  dsimp only
  split
  next hc =>
    have hkind : t.kind = .hash := by simpa using ht.2
    obtain ⟨rest, hm⟩ := (hP t ht.1).resolve_left (by simp [hkind])
    have hhash : t.text ∈ production .hash := hkind ▸ hm.mem_production (by simp [hkind, otherKinds])
    exact .pure (by simpa using .of_not_mem (newline_not_mem_color hhash hc))
  next => exact .fail _

variable {arguments : Production Value}

theorem function_carries (h : Yields P E arguments (Value.Carries P)) :
    Yields P E (function arguments) fun o => ∀ a ∈ o, Carried P valueCarriers a.2 := by
  refine (Yields.accept _).option (fun t ht => ?_) (.pure (by simp))
  refine h.bind fun v hv => (Yields.accept _).bind fun _ _ => .pure ?_
  have hname : Carried P valueCarriers t.text := (TextOf.mk ht).carried hP (by decide)
  have hcall := (hname.append (.flatMap hv)).append (.of_not_mem (s := [')']) (by decide))
  simpa using hcall

theorem term_carries (h : Yields P E arguments (Value.Carries P)) :
    Yields P E (term arguments) fun o => ∀ t ∈ o, Carried P valueCarriers t.text := by
  refine Yields.next.bind fun start _ => sign_yields.bind fun sign _ => ?_
  refine (Yields.orElse (plainTerm_carries hP) (.orElse (hexColor_carries hP) (function_carries hP h))).option
    (fun a ha => .pure ?_) (.pure (by simp))
  have hsign : '\n' ∉ (sign.map Sign.symbol).toList := by
    rcases sign with _ | _ | _ <;> decide
  simpa [Term.ofSigned] using (Carried.of_not_mem hsign).append ha

theorem moreParts_carries (h : Yields P E arguments (Value.Carries P)) :
    Yields P E (moreParts arguments) (Value.Carries P) := by
  refine .recursive fun again hagain => operator_yields.bind fun o _ => ?_
  have ho : Value.Carries P (o.map Value.Part.operator).toList := by
    intro p hp
    obtain ⟨o, -, rfl⟩ := Option.map_eq_some_iff.mp (Option.mem_toList.mp hp)
    exact .of_not_mem (by cases o <;> decide)
  refine (term_carries hP h).option (fun t ht => hagain.bind fun v hv => .pure ?_) (.pure ho)
  exact List.forall_mem_append.mpr ⟨ho, List.forall_mem_cons.mpr ⟨ht, hv⟩⟩

theorem parts_carries (h : Yields P E arguments (Value.Carries P)) :
    Yields P E (parts arguments) (Value.Carries P) := by
  refine (term_carries hP h).option (fun t ht => (moreParts_carries hP h).bind fun v hv => .pure ?_) (.pure ?_)
  · exact List.forall_mem_cons.mpr ⟨ht, hv⟩
  · exact List.forall_mem_nil _

theorem value_carries : Yields P E value (Value.Carries P) :=
  .recursive fun _ h => parts_carries hP h

end Grammar

/-! Events. -/

theorem MediaList.Of.carried {l : MediaList} (h : l.Of P) : Carried P [.ident] l.text :=
  .intercalate (.of_not_mem (by decide)) fun m hm => (h m hm).carried hP (by decide)

theorem pagePseudo_carried {p : Option Text} (h : ∀ name ∈ p, TextOf P [.ident] name) :
    Carried P [.ident] (p.elim [] (':' :: ·)) := by
  cases p with
  | none => exact .of_not_mem List.not_mem_nil
  | some name => exact .append (s := [':']) (.of_not_mem (by decide)) ((h name rfl).carried hP (by decide))

theorem selectors_carried {ss : List Selector} (h : ∀ s ∈ ss, s.Of P) :
    Carried P selectorCarriers (", ".toList.intercalate (ss.map Selector.text)) := by
  refine .intercalate (.of_not_mem (by decide)) fun t ht => ?_
  obtain ⟨s, hs, rfl⟩ := List.mem_map.mp ht
  exact (h s hs).carried hP

theorem Event.With.carried {e : Event} (h : e.With P (Value.Carries P)) :
    Carried P e.kind.carriers e.detail := by
  cases e with
  | startStylesheet | endStylesheet => exact .of_not_mem List.not_mem_nil
  | charset name => exact .of_not_mem (newline_not_mem_quoted name)
  | importSheet uri l =>
    have huri : Carried P [.ident] (quoted uri) := .of_not_mem (newline_not_mem_quoted uri)
    cases l with
    | none => exact huri
    | some l =>
      exact huri.append (.append (s := [' ']) (.of_not_mem (by decide)) (MediaList.Of.carried hP (h.2 l rfl)))
  | startMedia l | endMedia l => exact MediaList.Of.carried hP h
  | startPage p | endPage p => exact pagePseudo_carried hP h
  | startRule ss | endRule ss => exact selectors_carried hP h.2
  | property name v important =>
    have hname : Carried P valueCarriers name := h.1.carried hP (by decide)
    have hmark : '\n' ∉ if important then " !important".toList else [] := by cases important <;> decide
    exact ((hname.append (.of_not_mem (by decide))).append h.2.render).append (.of_not_mem hmark)

end

/-- Whatever breaks the line of an event is a token of the text, of a kind that its data is made of. -/
theorem events_carried (css : Text) : ∀ e ∈ (parse css).events,
    Carried (· ∈ tokens css) e.kind.carriers e.detail := fun e he =>
  have hlexed := lexed_tokens css
  (events_with (fun _ ht => ht) ((Grammar.value_carries hlexed).mono fun _ hv => .inr hv) e he).carried hlexed

theorem Style.count_apply (st : Style) (s : Text) : (st.apply s).count '\n' = s.count '\n' := by
  cases st <;> simp [apply, control]

theorem Event.count_listed (e : Event) : e.listed.count '\n' = e.detail.count '\n' := by
  have hname : e.kind.name.count '\n' = 0 := List.count_eq_zero.mpr (by cases e.kind <;> decide)
  have hline : ∀ st, (Style.apply st e.kind.name ++ ' ' :: e.detail).count '\n' = e.detail.count '\n' := by
    intro st
    simp [Style.count_apply, hname]
  cases e with
  | startStylesheet | endStylesheet => rfl
  | property name v important =>
    rw [← hline .cyan, listed, List.append_assoc, List.count_append]
    exact Nat.zero_add _
  | _ => exact hline .boldGreen

namespace Command
open Options

/-- The events that are listed. -/
def printed (o : Options) (css : Text) : List Event := (parse css).events.filter (shows o)

/-- The lines of a plain listing. -/
structure PlainLines (read : Text → Except ReadError Text) (args : List Text) (o : Options) (css : Text) :
    Prop where
  count : (answer args read).out.count '\n' =
    (printed o css).length + ((printed o css).map fun e => e.detail.count '\n').sum
  /-- Each event has one line just if no data that is listed has a line feed. -/
  one_each : (answer args read).out.count '\n' = (printed o css).length ↔
    ∀ e ∈ printed o css, '\n' ∉ e.detail
  /-- A line feed in the data comes with a token. -/
  carried : ∀ e ∈ printed o css, '\n' ∈ e.detail →
    ∃ t ∈ tokens css, t.kind ∈ e.kind.carriers ∧ '\n' ∈ t.text
  unbroken : (∀ t ∈ tokens css, t.kind ∈ [Kind.ident, .hash, .function, .string, .uri] → '\n' ∉ t.text) →
    (answer args read).out.count '\n' = (printed o css).length

theorem count_listing {o : Options} (hjson : o.json = false) (es : List Event) : (listing o es).count '\n' =
    (es.filter (shows o)).length + ((es.filter (shows o)).map fun e => e.detail.count '\n').sum := by
  rw [listing, List.count_flatMap]
  induction es.filter (shows o) with
  | nil => rfl
  | cons e es ih =>
    have hline : (eventLine o e).count '\n' = e.detail.count '\n' + 1 := by
      simp [eventLine, hjson, Event.count_listed]
    simp only [List.map_cons, List.sum_cons, List.length_cons, Function.comp_apply, hline, ih]
    omega

/-- A plain listing has one line for each event and one more for each line feed in its data, which there
is only where a token has one: an identifier, a name with `#`, the opening of a function, a string or
an address. -/
theorem plain_lines {read : Text → Except ReadError Text} {args : List Text} {o : Options}
    {source css : Text} (hargs : Options.none.read args = .ok (.list o)) (hsheet : Sheet read o source css)
    (hjson : o.json = false) : PlainLines read args o css := by
  have hcount : (answer args read).out.count '\n' =
      (printed o css).length + ((printed o css).map fun e => e.detail.count '\n').sum := by
    rw [answer_eq hargs hsheet, list_out, count_listing hjson]
    rfl
  have hone : (answer args read).out.count '\n' = (printed o css).length ↔
      ∀ e ∈ printed o css, '\n' ∉ e.detail := by
    rw [hcount, Nat.add_eq_left, List.sum_eq_zero_iff, List.forall_mem_map]
    simp only [List.count_eq_zero]
  have hcarried : ∀ e ∈ printed o css, '\n' ∈ e.detail →
      ∃ t ∈ tokens css, t.kind ∈ e.kind.carriers ∧ '\n' ∈ t.text :=
    fun e he => events_carried css e (List.mem_of_mem_filter he)
  refine ⟨hcount, hone, hcarried, fun h => hone.mpr fun e he hm => ?_⟩
  obtain ⟨t, ht, hkind, hnewline⟩ := hcarried e he hm
  exact h t ht (EventKind.carriers_subset e.kind hkind) hnewline

/-- A command line for a text with a rule and a declaration, both of which are listed. -/
def ruleLine : List Text :=
  ["--css".toList, "a\x7bb:c\x7d".toList, "--only=startrule".toList, "--only=property".toList]

def ruleOptions : Options := ⟨.none, some "a\x7bb:c\x7d".toList, false, [.startRule, .property], false⟩

theorem ruleLine_lines : Options.none.read ruleLine = .ok (.list ruleOptions) ∧
    Sheet (fun _ => .error .missing) ruleOptions "<inline>".toList "a\x7bb:c\x7d".toList ∧
    ruleOptions.json = false ∧
    PlainLines (fun _ => .error .missing) ruleLine ruleOptions "a\x7bb:c\x7d".toList := by
  have hline : Line [.css "a\x7bb:c\x7d".toList, .only .startRule, .only .property] ruleLine :=
    .cons (.css (by decide)) (.cons (.onlyAttached .startRule) (.cons (.onlyAttached .property) .nil))
  have hargs : Options.none.read ruleLine = .ok (.list ruleOptions) := (read_line hline _).trans rfl
  have hsheet : Sheet (fun _ => .error .missing) ruleOptions "<inline>".toList "a\x7bb:c\x7d".toList :=
    .inline rfl
  exact ⟨hargs, hsheet, rfl, plain_lines hargs hsheet rfl⟩

/-- A rule with a string that goes on in the next row. -/
def rowedString : Text := "a\x7bb:\"x\\\ny\"\x7d".toList

def rowedOptions : Options := ⟨.none, some rowedString, false, [], false⟩

/-- The line of its declaration goes on in the next row, too. -/
theorem rowedString_broken : (printed rowedOptions rowedString).length = 5 ∧
    (answer ["--css".toList, rowedString] fun _ => .error .missing).out.count '\n' = 6 := by
  have hargs : Options.none.read ["--css".toList, rowedString] = .ok (.list rowedOptions) :=
    (read_line (.cons (.css (by decide)) .nil) _).trans rfl
  have hcounts : (parse rowedString).events.map (fun e => e.detail.count '\n') = [0, 0, 1, 0, 0] := by cbv
  have hlength : (parse rowedString).events.length = 5 := by simpa using congrArg List.length hcounts
  rw [printed, answer_eq hargs (.inline rfl), list_out, count_listing rfl, filter_shows rfl, hlength, hcounts]
  exact ⟨rfl, rfl⟩

end Command
end Stylesheet
