import Stylesheet.Proofs.Blur
import Stylesheet.Proofs.ProperEvents
import Stylesheet.Proofs.Spelling
import Stylesheet.Proofs.TermTexts

/-! The values that are read back from their texts. Where the text of a term was put together from
several tokens, or its end depends on what follows, the terms themselves must stand apart. -/
namespace Stylesheet
open Computability Lexical Production

/-- A text without the sign at its front. -/
def unsigned : Text → Text
  | [] => []
  | c :: s => if c = '+' ∨ c = '-' then s else c :: s

/-- Whether a text is a string that ends with its quote. -/
def isClosed : Text → Bool
  | [] => false
  | q :: s => isQuote q && stringTail q s = (s.length, .closed)

/-- A term whose text can be read again, before a blank if `spaced`. -/
structure Term.Legible (spaced : Bool) (t : Term) : Prop where
  string : t.kind = .string → isClosed (unsigned t.text)
  /-- No escape at the end of the name takes the blank. -/
  name : t.kind = .identifier → spaced →
    nameLength (unsigned t.text ++ [' ']) = (unsigned t.text).length
  /-- With a hyphen in front an address is a call. -/
  address : t.kind = .uri → t.text.head? ≠ some '-'
  /-- The arguments of a call are written without the blanks between them. -/
  call : t.kind = .function → ∀ y, Spells (.term .function) t.text y

namespace Value

/-- Whether a blank is written behind a term when `v` follows it. -/
def spaced (important : Bool) : Value → Bool
  | [] => important
  | .term _ :: _ => true
  | .operator _ :: _ => false

def Legible (important : Bool) : Value → Prop
  | [] => True
  | .term t :: v => t.Legible (spaced important v) ∧ Legible important v
  | .operator _ :: v => Legible important v

end Value

/-! Terms. -/

variable {s x y : Text} {c d : Char} {k : TermKind}

theorem Spells.of_sign {sign : Option Sign} (h : Spells (.bare k) s y)
    (hminus : sign = some .minus → Measured .minus ['-'] (s ++ y)) :
    Spells (.term k) ((sign.map Sign.symbol).toList ++ s) y := by
  match sign with
  | none => exact .unsigned h
  | some .plus => exact .signed (j := .plus) (o := .plus) rfl (measured_symbol (c := '+') (by decide) _) h
  | some .minus => exact .signed (j := .minus) (o := .minus) rfl (hminus rfl) h

theorem measured_minus_of_ne (hname : isNameStart c = false) (hbackslash : c ≠ '\\') (hhyphen : c ≠ '-') :
    Measured .minus ['-'] (c :: s) := by
  refine measured_minus (fun hmark => ?_) (by rw [startsName_of_ne hbackslash, hname])
  exact hhyphen (by simpa using congrArg List.head? hmark)

theorem nameLength_of_unsigned (hs : nameLength s = s.length)
    (h : nameLength (unsigned s ++ [' ']) = (unsigned s).length) :
    nameLength (s ++ [' ']) = s.length := by
  cases s with
  | nil => exact h
  | cons c s =>
    by_cases hplus : c = '+'
    · subst hplus
      rw [nameLength_stop (by decide) (escapeLength_of_ne (by decide) s)] at hs
      simp at hs
    · by_cases hminus : c = '-'
      · subst hminus
        have h : nameLength (s ++ [' ']) = s.length := h
        rw [List.cons_append, nameLength_char (by decide), h, List.length_cons, Nat.add_comm]
      · simpa [unsigned, hplus, hminus] using h

theorem unsigned_signed (o : Sign) (s : Text) : unsigned (o.symbol :: s) = s := by
  cases o <;> rfl

theorem head_of_nmstart {u : Text} (hu : u ∈ nmstart) (s : Text) :
    ∃ c v, u ++ s = c :: v ∧ c ≠ '>' := by
  rcases hu with ⟨c, hc, rfl⟩ | ⟨ds, b, rfl, -⟩ | ⟨c, -, -, rfl⟩
  · refine ⟨c, s, rfl, ?_⟩
    rintro rfl
    exact absurd hc (by decide)
  · exact ⟨'\\', _, rfl, by decide⟩
  · exact ⟨'\\', _, rfl, by decide⟩

/-- A hyphen before an identifier belongs to it, or stands alone where the identifier has one. -/
theorem hyphen_ident (hs : s ∈ ident) : '-' :: s ∈ ident ∨ ∀ x, Measured .minus ['-'] (s ++ x) := by
  obtain ⟨h, hh | hh, w, hw, rfl⟩ := Language.mem_mul.mp hs
  · obtain rfl : h = [] := hh
    exact .inl (Language.append_mem_mul (a := ['-']) (l := opt (exactly "-")) (.inr rfl) hw)
  · obtain rfl := mem_exactly.mp hh
    refine .inr fun x => measured_minus (fun hmark => ?_) ?_
    · obtain ⟨a, ha, b, -, rfl⟩ := Language.mem_mul.mp hw
      obtain ⟨c, v, hv, hne⟩ := head_of_nmstart ha (b ++ x)
      rw [List.append_assoc, List.append_assoc, hv] at hmark
      exact hne (by simpa using hmark)
    · exact startsName_of_ne (c := '-') (by decide) _

theorem name_spells {sign : Option Sign} (hs : s ∈ ident) (hd : d ∈ delimiters)
    (hblank : d = ' ' → nameLength (s ++ [' ']) = s.length) (x : Text) :
    Spells (.term .identifier) ((sign.map Sign.symbol).toList ++ s) (d :: x) := by
  have hbare : ∀ {s}, s ∈ ident → (d = ' ' → nameLength (s ++ [' ']) = s.length) →
      Spells (.bare .identifier) s (d :: x) := fun hs hblank =>
    .plain (j := .ident) rfl (measured_ident_before hs hd hblank x)
  by_cases hminus : sign = some .minus
  · subst hminus
    obtain hlong | halone := hyphen_ident hs
    · have hblank' : d = ' ' → nameLength ('-' :: s ++ [' ']) = ('-' :: s).length := fun hspace => by
        rw [List.cons_append, nameLength_char (by decide), hblank hspace, List.length_cons, Nat.add_comm]
      exact .unsigned (hbare hlong hblank')
    · exact .of_sign (hbare hs hblank) fun _ => halone _
  · exact .of_sign (hbare hs hblank) fun h => absurd h hminus

theorem head_of_string {t : Text} (hs : Measured .string s t) : ∃ q u, isQuote q ∧ s = q :: u := by
  rcases (hs.scanned (by decide)).longest.1 with ⟨q, u, hq, -, rfl⟩ | hopen
  · exact ⟨q, u ++ [q], hq, rfl⟩
  · obtain ⟨_, ⟨q, u, hq, -, rfl⟩, e, -, rfl⟩ := Language.mem_mul.mp hopen
    exact ⟨q, u ++ e, hq, rfl⟩

theorem isClosed_signed {q : Char} {u : Text} (hq : isQuote q) (sign : Option Sign)
    (h : isClosed (unsigned ((sign.map Sign.symbol).toList ++ q :: u))) :
    stringTail q u = (u.length, .closed) := by
  have hbare : unsigned ((sign.map Sign.symbol).toList ++ q :: u) = q :: u := by
    cases sign with
    | some o => exact unsigned_signed o _
    | none =>
      have hne : ¬ (q = '+' ∨ q = '-') := by
        rcases (isQuote_iff q).mp hq with rfl | rfl <;> decide
      exact if_neg hne
  rw [hbare] at h
  simpa [isClosed, hq] using h

theorem string_spells {sign : Option Sign} {t : Text} (hs : Measured .string s t)
    (hclosed : isClosed (unsigned ((sign.map Sign.symbol).toList ++ s))) (y : Text) :
    Spells (.term .string) ((sign.map Sign.symbol).toList ++ s) y := by
  obtain ⟨q, u, hq, rfl⟩ := head_of_string hs
  refine .of_sign (.plain (j := .string) rfl (measured_closed hq (isClosed_signed hq sign hclosed) y))
    fun _ => ?_
  rcases (isQuote_iff q).mp hq with rfl | rfl
  all_goals exact measured_minus_of_ne (by decide) (by decide) (by decide)

theorem address_spells {sign : Option Sign} {t : Text} (hs : Measured .uri s t)
    (hsign : ((sign.map Sign.symbol).toList ++ s).head? ≠ some '-') (y : Text) :
    Spells (.term .uri) ((sign.map Sign.symbol).toList ++ s) y := by
  refine .of_sign (.plain (j := .uri) rfl (measured_uri_before hs y)) fun hminus => ?_
  subst hminus
  exact absurd rfl hsign

theorem number_spells {sign : Option Sign} {j : Kind} {t : Text} (hj : TermKind.ofKind? j = some k)
    (hs : Measured j s t) (hnumeric : j ∈ numericKinds) (hd : d ∈ delimiters) (x : Text) :
    Spells (.term k) ((sign.map Sign.symbol).toList ++ s) (d :: x) := by
  have hdim : j ≠ .dimension := by
    rintro rfl
    simp [TermKind.ofKind?] at hj
  refine .of_sign (.plain hj (measured_number_before hs hnumeric hdim hd x)) fun _ => ?_
  have hother : j ∉ otherKinds := by
    revert hnumeric
    cases j <;> decide
  obtain ⟨n, u, rfl, -, hn, -⟩ := (hs.scanned hother).numeric hnumeric
  obtain ⟨c, m, rfl, hc⟩ := head_of_mem_number hn.1
  have hname : isNameStart c = false := Bool.eq_false_iff.mpr fun hstart => by
    rcases hc with hc | rfl
    · simp [not_isDigit_of_isNameStart hstart] at hc
    · exact absurd hstart (by decide)
  refine measured_minus_of_ne hname ?_ ?_
  all_goals
    rintro rfl
    exact absurd hc (by decide)

theorem color_spells {sign : Option Sign} {t : Text} (hs : Measured .hash s t)
    (hc : isHexColor (s.drop 1)) (hd : d ∈ delimiters) (x : Text) :
    Spells (.term .hexColor) ((sign.map Sign.symbol).toList ++ s) (d :: x) := by
  refine .of_sign (.color (measured_color_before hs hc hd x) hc) fun _ => ?_
  obtain ⟨_, rfl, n, -, rfl⟩ := Language.mem_mul.mp (hs.scanned (by decide)).longest.1
  exact measured_minus_of_ne (c := '#') (by decide) (by decide) (by decide)

/-- A term of a text is spelled by its own text, if it is legible, before a delimiter. -/
theorem Term.Of.spells {t : Term} {spaced : Bool} (h : t.Of Token.Lexed) (hl : t.Legible spaced)
    (hd : d ∈ delimiters) (hspaced : d = ' ' → spaced) (x : Text) :
    Spells (.term t.kind) t.text (d :: x) := by
  cases h with | @mk sign k s p h =>
  cases h with
  | @plain j _ _ hj h =>
    obtain ⟨r, hm⟩ := h.measured (by rintro rfl; simp [TermKind.ofKind?] at hj)
    by_cases hident : j = .ident
    · subst hident
      obtain rfl : .identifier = k := Option.some.inj hj
      have hs : s ∈ ident := hm.mem_production (by decide)
      refine name_spells hs hd (fun hspace => ?_) x
      have hname := hl.name rfl (hspaced hspace)
      cases sign with
      | none => exact nameLength_of_unsigned (nameLength_of_ident hs) hname
      | some o => rwa [Term.ofSigned, Option.map_some, Option.toList_some, List.singleton_append, unsigned_signed] at hname
    by_cases hstring : j = .string
    · subst hstring
      obtain rfl : .string = k := Option.some.inj hj
      exact string_spells hm (hl.string rfl) (d :: x)
    by_cases huri : j = .uri
    · subst huri
      obtain rfl : .uri = k := Option.some.inj hj
      exact address_spells hm (hl.address rfl) (d :: x)
    have hnumeric : j ∈ numericKinds := by
      revert hj
      cases j <;> simp_all [TermKind.ofKind?, numericKinds]
    exact number_spells hj hm hnumeric hd x
  | color h hc =>
    obtain ⟨r, hm⟩ := h.measured (by decide)
    exact color_spells hm hc hd x
  | call h arguments => exact hl.call rfl (d :: x)

/-! Values. -/

/-- What is written behind the value of a declaration that ends its block. -/
def ending (important : Bool) : Text := (if important then " !important".toList else []) ++ ['\x7d']

namespace Value

/-- What is written behind a term is a delimiter at first, and a blank where it is said. -/
theorem behind_term (t : Term) (important : Bool) (v : Value) (y : Text) :
    ∃ d x, renderAfter (.term t) v ++ (ending important ++ y) = d :: x ∧ d ∈ delimiters ∧
      (d = ' ' ↔ spaced important v) := by
  match v with
  | [] =>
    cases important with
    | true => exact ⟨' ', _, rfl, by decide, by decide⟩
    | false => exact ⟨'\x7d', _, rfl, by decide, by decide⟩
  | .term u :: v => exact ⟨' ', _, rfl, by decide, by simp [spaced]⟩
  | .operator .slash :: v => exact ⟨'/', _, rfl, by decide, by simp [spaced]⟩
  | .operator .comma :: v => exact ⟨',', _, rfl, by decide, by simp [spaced]⟩

end Value

theorem measured_operator (o : Operator) (hy : y.head? ≠ some '*') :
    ∃ j, Operator.ofKind? j = some o ∧ Measured j [o.symbol] y := by
  cases o with
  | comma => exact ⟨.comma, rfl, measured_symbol (c := ',') (by decide) y⟩
  | slash =>
    refine ⟨.slash, rfl, .of_length (t := []) ?_⟩
    exact (Extent.measure_slash y).trans (if_neg hy)

/-- No term starts with an asterisk, which would make a comment of a slash before it. -/
theorem Spells.head_ne (h : Spells (.term k) s y) : (s ++ y).head? ≠ some '*' := by
  obtain ⟨j, t, r, heq, ht, hj⟩ := h.term_front
  intro hstar
  obtain ⟨x, hx⟩ := List.head?_eq_some_iff.mp hstar
  have hunique := ht.unique (measured_symbol (c := '*') (by decide) x) (heq.symm.trans hx)
  exact (startsTerm_ne hj).2.1 hunique.1

namespace Grammar
open Value

/-- The values that differ from `v` at most in where their terms stand. -/
def Same (v w : Value) : Prop := blur .places w = blur .places v

section
variable {t u : Term} {o a : Operator} {v w : Value}

@[simp] theorem same_term : Same (.term t :: v) (.term u :: w) ↔
    (u.text = t.text ∧ u.kind = t.kind) ∧ Same v w := by
  simp [Same, blur, Blur.places]

@[simp] theorem same_operator : Same (.operator o :: v) (.operator a :: w) ↔ a = o ∧ Same v w := by
  simp [Same, blur]

@[simp] theorem not_same_term : ¬ Same (.term t :: v) (.operator a :: w) := by simp [Same, blur]

@[simp] theorem not_same_operator : ¬ Same (.operator o :: v) (.term u :: w) := by simp [Same, blur]

@[simp] theorem not_same_nil {p : Value.Part} : ¬ Same (p :: v) [] := by simp [Same, blur]

end

theorem measured_important (y : Text) : Measured .importantSym "!important".toList ('\x7d' :: y) := by
  have hspacing : spacingLength ("important".toList ++ '\x7d' :: y) = 0 := by
    rw [show "important".toList ++ '\x7d' :: y = 'i' :: ("mportant".toList ++ '\x7d' :: y) from rfl,
      spacingLength, if_neg (by decide), if_neg fun h => absurd h.1 (by decide)]
  have htail : importantTail? ("important".toList ++ '\x7d' :: y) = some 9 := by
    refine importantTail?_eq_some.mpr ⟨?_, by rw [hspacing]⟩
    rw [hspacing]
    have hbrace : isNameChar '\x7d' = false := by decide
    exact ⟨rfl, by simp [hbrace]⟩
  refine .of_length (c := '!') (t := "important".toList) ?_
  have hstart : startsName ('!' :: ("important".toList ++ '\x7d' :: y)) = false :=
    startsName_of_ne (by decide) _
  unfold Extent.measure
  rw [if_neg (by decide), if_neg (by decide), if_neg (by decide), 
    if_neg (Bool.eq_false_iff.mp hstart), htail]
  rfl

theorem ending_next (important : Bool) (y : Text) :
    Next (if important then .importantSym else .rbrace) (ending important ++ y) := by
  cases important with
  | false => exact (measured_symbol (c := '\x7d') (by decide) y).next (by decide)
  | true =>
    exact ⟨by decide, [' '], "!important".toList, '\x7d' :: y, rfl, List.all_eq_true.mp (by decide),
      measured_important y⟩

/-- What follows the first term of a legible value is read back up to the end of the value. -/
theorem moreParts_runs {w : Value} (hw : w ∈ more (Term.Of Token.Lexed)) {important : Bool}
    (hl : Legible important w) (t : Term) (y : Text) :
    Runs (moreParts value) (renderAfter (.term t) w ++ (ending important ++ y)) (ending important ++ y)
      [] (Same w) := by
  have hnext := ending_next important y
  have hnone : startsTerm (if important then .importantSym else .rbrace) = false ∧
      Operator.ofKind? (if important then .importantSym else .rbrace) = none := by
    cases important <;> exact ⟨rfl, rfl⟩
  obtain ⟨hterm, hoperator⟩ := hnone
  have hspells : ∀ {u : Term} {v : Value}, u.Of Token.Lexed → Legible important (.term u :: v) →
      Spells (.term u.kind) u.text (renderAfter (.term u) v ++ (ending important ++ y)) := by
    intro u v hu hl
    obtain ⟨d, x, heq, hd, hspaced⟩ := behind_term u important v y
    exact heq ▸ hu.spells hl.1 hd hspaced.mp x
  have hblank : ∀ c ∈ ([' '] : Text), isBlank c := List.all_eq_true.mp (by decide)
  have hnil : ∀ c ∈ ([] : Text), isBlank c := by simp
  refine more_induction (M := fun w => ∀ t, Legible important w → Runs (moreParts value)
    (renderAfter (.term t) w ++ (ending important ++ y)) (ending important ++ y) [] (Same w))
    ?nil ?operator ?term ?operated hw t hl
  case nil =>
    intro t _
    exact (moreParts_ends (operator_skip hnext hoperator) (term_skip hnext hterm)).mono
      fun ps hps => by rw [hps]; rfl
  case operator =>
    intro o t _
    have hhead : (ending important ++ y).head? ≠ some '*' := by
      cases important <;> exact fun h => absurd (Option.some.inj h) (by decide)
    obtain ⟨j, hj, ho⟩ := measured_operator o hhead
    exact (moreParts_ends (operator_runs (b := []) hnil hj ho) (term_skip hnext hterm)).mono
      fun ps hps => by rw [hps]; rfl
  case term =>
    intro u v hu ih t hl
    have hs := hspells hu hl
    obtain ⟨j, a, r, heq, ha, hj⟩ := hs.term_front
    obtain ⟨hspace, -, hoperator⟩ := startsTerm_ne hj
    have hskip := operator_skip ⟨hspace, [' '], a, r, congrArg ([' '] ++ ·) heq, hblank, ha⟩ hoperator
    have htext : renderAfter (.term t) (.term u :: v) ++ (ending important ++ y) =
        [' '] ++ (u.text ++ (renderAfter (.term u) v ++ (ending important ++ y))) := by
      simp [renderAfter, gap, Part.text]
    rw [htext]
    refine (moreParts_goes hskip (hs.read [' '] hblank) (ih u hl.2)).mono fun ps hps => ?_
    obtain ⟨u', v', rfl, hu', hv'⟩ := hps
    exact same_term.mpr ⟨hu', hv'⟩
  case operated =>
    intro o u v hu ih t hl
    have hs := hspells hu hl
    have htext : renderAfter (.term t) (.operator o :: .term u :: v) ++ (ending important ++ y) =
        [o.symbol] ++ (gap (.operator o) (.term u) ++
          (u.text ++ (renderAfter (.term u) v ++ (ending important ++ y)))) := by
      cases o <;> simp [renderAfter, gap, Part.text]
    have hgap : ∀ c ∈ gap (.operator o) (.term u), isBlank c := by
      cases o with
      | slash => exact hnil
      | comma => exact hblank
    have hhead : (gap (.operator o) (.term u) ++
        (u.text ++ (renderAfter (.term u) v ++ (ending important ++ y)))).head? ≠ some '*' := by
      cases o with
      | slash => exact hs.head_ne
      | comma => exact fun h => absurd (Option.some.inj h) (by decide)
    obtain ⟨j, hj, ho⟩ := measured_operator o hhead
    rw [htext]
    refine (moreParts_goes (operator_runs (b := []) hnil hj ho) (hs.read _ hgap) (ih u hl.2)).mono
      fun ps hps => ?_
    obtain ⟨u', v', rfl, hu', hv'⟩ := hps
    exact same_operator.mpr ⟨rfl, same_term.mpr ⟨hu', hv'⟩⟩

/-- A legible value is read back as it was, up to where its terms stand. -/
theorem value_runs {v : Value} (hv : v ∈ shape (Term.Of Token.Lexed)) {important : Bool}
    (hl : Legible important v) (y : Text) :
    Runs value (v.render ++ (ending important ++ y)) (ending important ++ y) [] (Same v) := by
  obtain ⟨_, ⟨t, ht, rfl⟩, w, hw, rfl⟩ := Language.mem_mul.mp hv
  obtain ⟨d, x, heq, hd, hspaced⟩ := behind_term t important w y
  have hs := ht.spells hl.1 hd hspaced.mp x
  rw [← heq] at hs
  have hmore := moreParts_runs hw hl.2 t y
  show Runs value (t.text ++ renderAfter (.term t) w ++ (ending important ++ y)) _ _ _
  rw [List.append_assoc]
  refine (value_goes (hs.read [] (by simp)) hmore).mono fun ps hps => ?_
  obtain ⟨u, w', rfl, hu, hw'⟩ := hps
  exact same_term.mpr ⟨hu, hw'⟩

end Grammar
end Stylesheet
