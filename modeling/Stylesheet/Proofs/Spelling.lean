import Stylesheet.Proofs.PlainTokens
import Stylesheet.Proofs.Values

/-! Terms written without gaps, calls with their arguments among them, are read back as written. -/
namespace Stylesheet
open Production

/-- What can be written without gaps: a term, with or without its sign, the arguments of a call, and
what follows the first of them. -/
inductive Piece where
  | bare (k : TermKind)
  | term (k : TermKind)
  | arguments
  | more

/-- Before `y` the text `s` spells a piece: token stands beside token. Each sign has its term and
each call its closing parenthesis; only an operator may lack what it leads to. -/
inductive Spells : Piece → Text → Text → Prop
  | plain {j : Kind} {k : TermKind} {s y : Text} (hj : TermKind.ofKind? j = some k)
      (hs : Measured j s y) : Spells (.bare k) s y
  | color {s y : Text} (hs : Measured .hash s y) (hc : isHexColor (s.drop 1)) :
      Spells (.bare .hexColor) s y
  | call {s w y : Text} (hs : Measured .function s (w ++ ')' :: y))
      (hw : Spells .arguments w (')' :: y)) : Spells (.bare .function) (s ++ (w ++ [')'])) y
  | unsigned {k : TermKind} {s y : Text} (h : Spells (.bare k) s y) : Spells (.term k) s y
  | signed {j : Kind} {o : Sign} {k : TermKind} {s y : Text} (hj : Sign.ofKind? j = some o)
      (ho : Measured j [o.symbol] (s ++ y)) (h : Spells (.bare k) s y) :
      Spells (.term k) (o.symbol :: s) y
  | empty {y : Text} : Spells .arguments [] y
  | filled {k : TermKind} {s w y : Text} (h : Spells (.term k) s (w ++ y)) (hw : Spells .more w y) :
      Spells .arguments (s ++ w) y
  | done {y : Text} : Spells .more [] y
  | dangling {j : Kind} {o : Operator} {y : Text} (hj : Operator.ofKind? j = some o)
      (ho : Measured j [o.symbol] y) : Spells .more [o.symbol] y
  | beside {k : TermKind} {s w y : Text} (h : Spells (.term k) s (w ++ y)) (hw : Spells .more w y) :
      Spells .more (s ++ w) y
  | joined {j : Kind} {o : Operator} {k : TermKind} {s w y : Text} (hj : Operator.ofKind? j = some o)
      (ho : Measured j [o.symbol] (s ++ (w ++ y))) (h : Spells (.term k) s (w ++ y))
      (hw : Spells .more w y) : Spells .more (o.symbol :: (s ++ w)) y

/-- The kinds of tokens that a term begins with. -/
def startsTerm (k : Kind) : Bool :=
  (Sign.ofKind? k).isSome || (TermKind.ofKind? k).isSome || k = .hash || k = .function

theorem startsTerm_ne {k : Kind} (h : startsTerm k) :
    k ≠ .space ∧ k ≠ .star ∧ Operator.ofKind? k = none := by
  revert h
  cases k <;> decide

namespace Spells
variable {k : TermKind} {s y : Text}

/-- The first token of a term without its sign. -/
theorem bare_front (h : Spells (.bare k) s y) : ∃ j t r, s ++ y = t ++ r ∧ Measured j t r ∧
    startsTerm j ∧ Sign.ofKind? j = none := by
  cases h with
  | @plain j _ _ _ hj hs =>
    refine ⟨j, s, y, rfl, hs, by simp [startsTerm, hj], ?_⟩
    revert hj
    cases j <;> simp [TermKind.ofKind?, Sign.ofKind?]
  | color hs hc => exact ⟨.hash, s, y, rfl, hs, rfl, rfl⟩
  | @call t w _ hs hw => exact ⟨.function, t, w ++ ')' :: y, by simp, hs, rfl, rfl⟩

theorem term_front (h : Spells (.term k) s y) :
    ∃ j t r, s ++ y = t ++ r ∧ Measured j t r ∧ startsTerm j := by
  cases h with
  | unsigned h =>
    obtain ⟨j, t, r, heq, ht, hj, -⟩ := h.bare_front
    exact ⟨j, t, r, heq, ht, hj⟩
  | @signed j o _ _ _ hj ho h => exact ⟨j, [o.symbol], _, rfl, ho, by simp [startsTerm, hj]⟩

end Spells

namespace Runs
variable {α β : Type} {k : Kind} {b t x rest : Text} {f : Kind → Option β} {a : β}

theorem classify (hb : ∀ c ∈ b, isBlank c) (hm : Measured k t rest) (hk : k ≠ .space)
    (hf : f k = some a) : Runs (Production.classify f) (b ++ (t ++ rest)) rest []
      fun o => ∃ u, o = some (a, u) ∧ u.text = t := by
  intro ts hts c hc
  have hend := hts.terminated
  obtain ⟨s, u, us, rfl, hs, hu, rfl, rfl, hus⟩ := hts.behind_blanks hb hm hk
  have hnext := hc.next_eq hs hu
  refine ⟨some (a, u), c.advance, us, ?_, ⟨u, rfl, rfl⟩, hus, ?_⟩
  · simp only [Production.classify, hnext, hf]
  · exact hc.advance hs hu (hend.drop (by simp)) hm.isToken.2

theorem unclassified (h : Next k x) (hf : f k = none) :
    Runs (Production.classify f) x x [] (· = none) := by
  intro ts hts c hc
  refine ⟨none, c, ts, ?_, rfl, hts, hc⟩
  simp only [Production.classify, h.kind_eq hts hc, hf]

/-- Whatever comes next, looking at it changes nothing. -/
theorem look : Runs Production.next x x [] fun _ => True :=
  fun ts hts c hc => ⟨c.next, c, ts, rfl, trivial, hts, hc⟩

end Runs

namespace Grammar
variable {b s t x y z z' : Text} {k : Kind}

/-! The parts of a term. -/

theorem operator_runs {o : Operator} (hb : ∀ c ∈ b, isBlank c) (hk : Operator.ofKind? k = some o)
    (ho : Measured k t y) : Runs operator (b ++ (t ++ y)) y [] (· = some o) := by
  have hspace : k ≠ .space := by
    rintro rfl
    simp [Operator.ofKind?] at hk
  refine (Runs.classify hb ho hspace hk).silent fun r hr => ?_
  obtain ⟨u, rfl, -⟩ := hr
  exact .pure rfl

theorem operator_skip (h : Next k x) (hk : Operator.ofKind? k = none) :
    Runs operator x x [] (· = none) := (Runs.unclassified h hk).quiet (.pure rfl)

theorem sign_runs {o : Sign} (hb : ∀ c ∈ b, isBlank c) (hk : Sign.ofKind? k = some o)
    (ho : Measured k t y) : Runs sign (b ++ (t ++ y)) y [] (· = some o) := by
  have hspace : k ≠ .space := by
    rintro rfl
    simp [Sign.ofKind?] at hk
  refine (Runs.classify hb ho hspace hk).silent fun r hr => ?_
  obtain ⟨u, rfl, -⟩ := hr
  exact .pure rfl

theorem sign_skip (h : Next k x) (hk : Sign.ofKind? k = none) : Runs sign x x [] (· = none) :=
  (Runs.unclassified h hk).quiet (.pure rfl)

theorem plainTerm_runs {j : TermKind} (hb : ∀ c ∈ b, isBlank c) (hk : TermKind.ofKind? k = some j)
    (hs : Measured k s y) : Runs plainTerm (b ++ (s ++ y)) y [] (· = some (j, s)) := by
  have hspace : k ≠ .space := by
    rintro rfl
    simp [TermKind.ofKind?] at hk
  refine (Runs.classify hb hs hspace hk).silent fun r hr => ?_
  obtain ⟨u, rfl, rfl⟩ := hr
  exact .pure rfl

theorem plainTerm_skip (h : Next k x) (hk : TermKind.ofKind? k = none) :
    Runs plainTerm x x [] (· = none) := (Runs.unclassified h hk).quiet (.pure rfl)

theorem hexColor_runs (hb : ∀ c ∈ b, isBlank c) (hs : Measured .hash s y)
    (hc : isHexColor (s.drop 1)) : Runs hexColor (b ++ (s ++ y)) y [] (· = some (.hexColor, s)) := by
  refine (Runs.accept hb hs (by decide) (by decide)).silent fun r hr => ?_
  obtain ⟨u, rfl, -, rfl⟩ := hr
  dsimp only
  rw [if_pos hc]
  exact .pure rfl

theorem hexColor_skip (h : Next k x) (hk : k ≠ .hash) : Runs hexColor x x [] (· = none) :=
  (Runs.skip h (by simpa using hk)).quiet (.pure rfl)

theorem function_runs {p : Production Value} {w : Text} (hb : ∀ c ∈ b, isBlank c)
    (hs : Measured .function s (w ++ ')' :: y))
    (hp : Runs p (w ++ ')' :: y) (')' :: y) [] (·.flatMap Value.Part.text = w)) :
    Runs (function p) (b ++ (s ++ (w ++ [')']) ++ y)) y [] (· = some (.function, s ++ (w ++ [')']))) := by
  have hclose : Measured .rparen [')'] y := measured_symbol (c := ')') (by decide) y
  have heq : s ++ (w ++ [')']) ++ y = s ++ (w ++ ')' :: y) := by simp
  rw [heq]
  refine (Runs.accept hb hs (by decide) (by decide)).silent fun r hr => ?_
  obtain ⟨u, rfl, -, rfl⟩ := hr
  refine hp.silent fun v hv => (Runs.accept_here hclose (by decide) (by decide)).silent fun _ _ => ?_
  exact .pure (by rw [hv, List.append_assoc])

theorem function_skip {p : Production Value} (h : Next k x) (hk : k ≠ .function) :
    Runs (function p) x x [] (· = none) := (Runs.skip h (by simpa using hk)).quiet (.pure rfl)

/-- A term by its text and kind; where it stands is left open. -/
def TermOf (s : Text) (k : TermKind) (o : Option Term) : Prop := ∃ u, o = some u ∧ u.text = s ∧ u.kind = k

theorem term_signed {o : Sign} {j : TermKind} (hb : ∀ c ∈ b, isBlank c) (hk : Sign.ofKind? k = some o)
    (ho : Measured k t x) (hs : Runs (orElse plainTerm (orElse hexColor (function value))) x y []
      (· = some (j, s))) : Runs (term value) (b ++ (t ++ x)) y [] (TermOf (o.symbol :: s) j) :=
  Runs.look.silent fun _ _ => (sign_runs hb hk ho).quiet (hs.quiet (.pure ⟨_, rfl, rfl, rfl⟩))

theorem term_unsigned {j : TermKind} (h : Next k x) (hk : Sign.ofKind? k = none)
    (hs : Runs (orElse plainTerm (orElse hexColor (function value))) x y [] (· = some (j, s))) :
    Runs (term value) x y [] (TermOf s j) :=
  Runs.look.silent fun _ _ => (sign_skip h hk).quiet (hs.quiet (.pure ⟨_, rfl, rfl, rfl⟩))

theorem term_skip (h : Next k x) (hk : startsTerm k = false) : Runs (term value) x x [] (· = none) := by
  simp only [startsTerm, Bool.or_eq_false_iff, Option.isSome_eq_false_iff, Option.isNone_iff_eq_none,
    decide_eq_false_iff_not] at hk
  obtain ⟨⟨⟨hsign, hplain⟩, hhash⟩, hfunction⟩ := hk
  have hbare := Runs.orElse_right (plainTerm_skip h hplain)
    (.orElse_right (hexColor_skip h hhash) (function_skip (p := value) h hfunction))
  exact Runs.look.silent fun _ _ => (sign_skip h hsign).quiet (hbare.quiet (.pure rfl))

/-! The parts of a value, one at a time. -/

variable {o : Option Operator} {V : Value → Prop}

/-- No term follows; an operator may stand alone. -/
theorem moreParts_ends (ho : Runs operator x y [] (· = o)) (ht : Runs (term value) y y [] (· = none)) :
    Runs (moreParts value) x y [] (· = (o.map Value.Part.operator).toList) :=
  .of_eq (fun _ hx _ hc => moreParts_eq hx hc) (ho.quiet (ht.quiet (.pure rfl)))

theorem moreParts_goes {j : TermKind} (ho : Runs operator x y [] (· = o))
    (ht : Runs (term value) y z [] (TermOf s j)) (hm : Runs (moreParts value) z z' [] V) :
    Runs (moreParts value) x z' [] fun ps => ∃ u v,
      ps = (o.map Value.Part.operator).toList ++ .term u :: v ∧ (u.text = s ∧ u.kind = j) ∧ V v := by
  refine .of_eq (fun _ hx _ hc => moreParts_eq hx hc) (ho.quiet (ht.silent fun r hr => ?_))
  obtain ⟨u, rfl, hu⟩ := hr
  exact hm.silent fun v hv => .pure ⟨u, v, rfl, hu, hv⟩

theorem value_goes {j : TermKind} (ht : Runs (term value) x y [] (TermOf s j))
    (hm : Runs (moreParts value) y z [] V) :
    Runs value x z [] fun ps => ∃ u v, ps = .term u :: v ∧ (u.text = s ∧ u.kind = j) ∧ V v := by
  refine .of_eq (fun _ hx _ hc => value_eq hx hc) (ht.silent fun r hr => ?_)
  obtain ⟨u, rfl, hu⟩ := hr
  exact hm.silent fun v hv => .pure ⟨u, v, rfl, hu, hv⟩

theorem value_skip (ht : Runs (term value) x x [] (· = none)) : Runs value x x [] (· = []) :=
  .of_eq (fun _ hx _ hc => value_eq hx hc) (ht.quiet (.pure rfl))

end Grammar

/-- How a piece is read where it is spelled. -/
def Piece.Read : Piece → Text → Text → Prop
  | .bare k, s, y => ∀ b, (∀ c ∈ b, isBlank c) →
    Runs (orElse Grammar.plainTerm (orElse Grammar.hexColor (Grammar.function Grammar.value)))
      (b ++ (s ++ y)) y [] (· = some (k, s))
  | .term k, s, y => ∀ b, (∀ c ∈ b, isBlank c) →
    Runs (Grammar.term Grammar.value) (b ++ (s ++ y)) y [] (Grammar.TermOf s k)
  | .arguments, s, y => ∀ r, y = ')' :: r →
    Runs Grammar.value (s ++ y) y [] (·.flatMap Value.Part.text = s)
  | .more, s, y => ∀ r, y = ')' :: r →
    Runs (Grammar.moreParts Grammar.value) (s ++ y) y [] (·.flatMap Value.Part.text = s)

open Grammar in
/-- What is spelled is read as it is written. -/
theorem Spells.read {p : Piece} {s y : Text} (h : Spells p s y) : p.Read s y := by
  have hclose : ∀ r, Next .rparen (')' :: r) := fun r =>
    (measured_symbol (c := ')') (by decide) r).next (by decide)
  have hnil : ∀ c ∈ ([] : Text), isBlank c := by simp
  induction h with
  | plain hj hs => exact fun b hb => .orElse_left (plainTerm_runs hb hj hs)
  | @color s y hs hc =>
    intro b hb
    have hnext : Next .hash (b ++ (s ++ y)) := ⟨by decide, b, s, y, rfl, hb, hs⟩
    exact .orElse_right (plainTerm_skip hnext rfl) (.orElse_left (hexColor_runs hb hs hc))
  | @call s w y hs hw ih =>
    intro b hb
    have hnext : Next .function (b ++ (s ++ (w ++ [')']) ++ y)) :=
      ⟨by decide, b, s, w ++ ')' :: y, by simp, hb, hs⟩
    exact .orElse_right (plainTerm_skip hnext rfl)
      (.orElse_right (hexColor_skip hnext (by decide)) (function_runs hb hs (ih y rfl)))
  | @unsigned k s y h ih =>
    intro b hb
    obtain ⟨j, t, r, heq, ht, hj, hsign⟩ := h.bare_front
    exact term_unsigned ⟨(startsTerm_ne hj).1, b, t, r, by rw [heq], hb, ht⟩ hsign (ih b hb)
  | @signed j o k s y hj ho h ih =>
    intro b hb
    exact term_signed (t := [o.symbol]) (x := s ++ y) hb hj ho (ih [] hnil)
  | empty =>
    rintro r rfl
    exact (value_skip (term_skip (hclose r) rfl)).mono fun v hv => by rw [hv]; rfl
  | @filled k s w y h hw ih ihw =>
    intro r hy
    rw [List.append_assoc]
    refine (value_goes (ih [] hnil) (ihw r hy)).mono fun ps hps => ?_
    obtain ⟨u, v, rfl, ⟨rfl, -⟩, rfl⟩ := hps
    rfl
  | done =>
    rintro r rfl
    exact (moreParts_ends (operator_skip (hclose r) rfl) (term_skip (hclose r) rfl)).mono
      fun ps hps => by rw [hps]; rfl
  | @dangling j o y hj ho =>
    rintro r rfl
    exact (moreParts_ends (operator_runs (b := []) hnil hj ho) (term_skip (hclose r) rfl)).mono
      fun ps hps => by rw [hps]; rfl
  | @beside k s w y h hw ih ihw =>
    intro r hy
    obtain ⟨j, t, v, heq, ht, hj⟩ := h.term_front
    obtain ⟨hspace, -, hoperator⟩ := startsTerm_ne hj
    rw [List.append_assoc]
    have hskip := operator_skip ⟨hspace, [], t, v, heq, hnil, ht⟩ hoperator
    refine (moreParts_goes hskip (ih [] hnil) (ihw r hy)).mono fun ps hps => ?_
    obtain ⟨u, v, rfl, ⟨rfl, -⟩, rfl⟩ := hps
    rfl
  | @joined j o k s w y hj ho h hw ih ihw =>
    intro r hy
    rw [List.cons_append, List.append_assoc]
    refine (moreParts_goes (operator_runs (b := []) hnil hj ho) (ih [] hnil) (ihw r hy)).mono
      fun ps hps => ?_
    obtain ⟨u, v, rfl, ⟨rfl, -⟩, rfl⟩ := hps
    rfl

end Stylesheet
