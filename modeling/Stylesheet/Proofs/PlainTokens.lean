import Stylesheet.Proofs.Runs
import Stylesheet.Proofs.Scanning

/-! Texts without escapes that are tokens wherever nothing follows that could belong to them. -/
namespace Stylesheet
open Computability Lexical Extent

/-- A text in front of which every name ends, and no identifier is the name of a function. -/
def Delimited (s : Text) : Prop := ∀ c ∈ s.head?, isNameChar c = false ∧ c ≠ '\\' ∧ c ≠ '('

theorem Delimited.cons {c : Char} {s : Text} (hc : isNameChar c = false) (he : c ≠ '\\')
    (hp : c ≠ '(') : Delimited (c :: s) := by
  intro d hd
  obtain rfl : c = d := by simpa using hd
  exact ⟨hc, he, hp⟩

theorem nameLength_stop_of_head {s : Text} (h : ∀ c ∈ s.head?, isNameChar c = false ∧ c ≠ '\\') :
    nameLength s = 0 := by
  cases s with
  | nil => simp [nameLength]
  | cons c s =>
    obtain ⟨hc, he⟩ := h c rfl
    exact nameLength_stop hc (escapeLength_of_ne he s)

theorem nameLength_plain {n s : Text} (hn : ∀ c ∈ n, isNameChar c)
    (hs : ∀ c ∈ s.head?, isNameChar c = false ∧ c ≠ '\\') : nameLength (n ++ s) = n.length := by
  induction n with
  | nil => exact nameLength_stop_of_head hs
  | cons c n ih =>
    rw [List.forall_mem_cons] at hn
    rw [List.cons_append, nameLength_char hn.1, ih hn.2, List.length_cons, Nat.add_comm]

theorem isNameChar_of_plain {w : Text} (hw : w ∈ nmchar∗) (hb : '\\' ∉ w) :
    ∀ c ∈ w, isNameChar c := by
  revert hb
  refine kstar_induction (P := fun w => '\\' ∉ w → ∀ c ∈ w, isNameChar c) (by simp)
    (fun u v hu _ ih hb => ?_) hw
  have hb := not_or.mp (mt List.mem_append.mpr hb)
  rcases hu with ⟨c, hc, rfl⟩ | hu
  · simpa using ⟨hc, ih hb.2⟩
  · obtain ⟨x, rfl⟩ := head_eq_backslash (.inr hu)
    simp at hb

theorem ident_le_names : ident ≤ nmchar∗ := by
  have hhyphen : exactly "-" ≤ nmchar∗ := by
    rintro w rfl
    exact mem_of_le le_kstar (show ['-'] ∈ nmchar from .inl ⟨'-', by decide, rfl⟩)
  have hopt : opt (exactly "-") ≤ nmchar∗ := add_le one_le_kstar hhyphen
  have := mul_le_mul' hopt (mul_le_mul' (nmstart_le_nmchar.trans le_kstar) (le_refl nmchar∗))
  simpa [ident, kstar_mul_kstar] using this

/-- An identifier without escapes. -/
def plainIdent : Language Char := {n | n ∈ ident ∧ '\\' ∉ n}

theorem nameLength_plainIdent {n s : Text} (hn : n ∈ plainIdent)
    (hs : ∀ c ∈ s.head?, isNameChar c = false ∧ c ≠ '\\') :
    nameLength (n ++ s) = n.length ∧ identLength (n ++ s) ≠ 0 ∧ n ≠ [] := by
  have hpos := identLength_append hn.1 s
  exact ⟨nameLength_plain (isNameChar_of_plain (mem_of_le ident_le_names hn.1) hn.2) hs,
    by omega, List.ne_nil_of_length_pos hpos.1⟩

theorem head_of_startsName {c : Char} {s : Text} (h : startsName (c :: s)) :
    isBlank c = false ∧ isQuote c = false ∧ c.isDigit = false := by
  by_cases hc : isNameStart c
  · exact ⟨not_isBlank_of_isNameStart hc, not_isQuote_of_isNameStart hc, not_isDigit_of_isNameStart hc⟩
  · have he : escapeLength (c :: s) ≠ 0 := by simpa [startsName, hc] using h
    obtain rfl : c = '\\' := by
      by_contra hne
      exact he (escapeLength_of_ne hne s)
    decide

theorem measure_startsName {c : Char} {s : Text} (h : startsName (c :: s)) :
    Extent.measure c s = ofWord (c :: s) := by
  obtain ⟨hblank, hquote, hdigit⟩ := head_of_startsName h
  unfold Extent.measure
  rw [if_neg (by simp [hblank]), if_neg (by simp [hquote]), if_neg (by simp [hdigit]), if_pos h]

theorem measure_hyphen (s : Text)  : Extent.measure '-' s =
    if s.take 2 = "->".toList then ofLength .cdc 3
    else if startsName s then ofWord ('-' :: s) else ofLength .minus 1 := rfl

/-- What can be an identifier is measured as a word. -/
theorem measure_word {c : Char} {s : Text} (h : identLength (c :: s) ≠ 0) :
    Extent.measure c s = ofWord (c :: s) := by
  by_cases hc : c = '-'
  · subst hc
    rw [identLength_hyphen] at h
    have hstart : startsName s := by
      by_contra hn
      exact h (if_neg hn)
    have hcdc : s.take 2 ≠ "->".toList := by
      intro hs
      cases s with
      | nil => simp [startsName] at hstart
      | cons d s =>
        obtain rfl : d = '-' := by simpa using congrArg List.head? hs
        simp [startsName, isNameStart, escapeLength_of_ne] at hstart
    rw [measure_hyphen, if_neg hcdc, if_pos hstart]
  · rw [identLength_of_ne (by simpa using hc)] at h
    have hstart : startsName (c :: s) := by
      by_contra hn
      exact h (if_neg hn)
    exact measure_startsName hstart

theorem ofWord_ident {s : Text} {n : Nat} (hn : nameLength s = n)
    (hopen : (s.drop n).head? ≠ some '(') : ofWord s = ofLength .ident n := by
  subst hn
  exact if_neg hopen

theorem ofWord_function {s : Text} {n : Nat} (hn : nameLength s = n)
    (hopen : (s.drop n).head? = some '(') (hurl : foldCase (s.take n) ≠ "url".toList) :
    ofWord s = ofLength .function (n + 1) := by
  subst hn
  exact (if_pos hopen).trans (if_neg hurl)

theorem measured_ident {n s : Text} (hn : n ∈ plainIdent) (hs : Delimited s) :
    Measured .ident n s := by
  obtain ⟨hlen, hne, hnil⟩ := nameLength_plainIdent hn fun c hc => ⟨(hs c hc).1, (hs c hc).2.1⟩
  obtain ⟨c, n, rfl⟩ := List.exists_cons_of_ne_nil hnil
  have hopen : ((c :: n ++ s).drop (c :: n).length).head? ≠ some '(' := by
    rw [List.drop_left]
    exact fun h => (hs '(' h).2.2 rfl
  exact .of_length ((measure_word hne).trans (ofWord_ident hlen hopen))

/-- A name without escapes that opens no address when it is called. -/
def functionName : Language Char := {n | n ∈ plainIdent ∧ foldCase n ≠ "url".toList}

theorem measured_function {n : Text} (hn : n ∈ functionName) (s : Text) :
    Measured .function (n ++ ['(']) s := by
  obtain ⟨hn, hurl⟩ := hn
  obtain ⟨hlen, hne, hnil⟩ := nameLength_plainIdent (s := '(' :: s) hn (by simp; decide)
  obtain ⟨c, n, rfl⟩ := List.exists_cons_of_ne_nil hnil
  have hword := ofWord_function hlen (by rw [List.drop_left]; rfl) (by rwa [List.take_left])
  refine .of_length (t := n ++ ['(']) ?_
  rw [List.append_assoc, List.length_append]
  exact (measure_word hne).trans hword

theorem measure_hash (s : Text) : Extent.measure '#' s =
    if nameLength s = 0 then ofLength .delim 1 else ofLength .hash (1 + nameLength s) := rfl

/-- A name without escapes. -/
def plainName : Language Char := {n | n ∈ name ∧ '\\' ∉ n}

theorem measured_hash {n s : Text} (hn : n ∈ plainName) (hs : Delimited s) :
    Measured .hash ('#' :: n) s := by
  have hplain := isNameChar_of_plain (mem_of_le mul_kstar_le_kstar hn.1) hn.2
  have hlen := nameLength_plain hplain fun c hc => ⟨(hs c hc).1, (hs c hc).2.1⟩
  have hne : n.length ≠ 0 := Nat.pos_iff_ne_zero.mp (name_pos hn.1)
  refine .of_length ?_
  rw [measure_hash, hlen, if_neg hne, Nat.add_comm]

/-- A string without escapes and newlines. -/
def plainString : Language Char :=
  {w | ∃ q s, isQuote q ∧ w = q :: (s ++ [q]) ∧ ∀ c ∈ s, c ≠ q ∧ c ≠ '\\' ∧ isNewline c = false}

theorem stringTail_plain {q : Char} {s r : Text}
    (hs : ∀ c ∈ s, c ≠ q ∧ c ≠ '\\' ∧ isNewline c = false) :
    stringTail q (s ++ q :: r) = (s.length + 1, .closed) := by
  induction s with
  | nil => rw [List.nil_append, stringTail, if_pos rfl, List.length_nil]
  | cons c s ih =>
    rw [List.forall_mem_cons] at hs
    obtain ⟨⟨hq, he, hn⟩, hs⟩ := hs
    rw [List.cons_append, stringTail, if_neg hq, if_neg (by simp [hn]), if_neg he, ih hs]
    simp only [List.length_cons, Prod.mk.injEq, and_true]
    omega

theorem measured_string {w : Text} (hw : w ∈ plainString) (s : Text) : Measured .string w s := by
  obtain ⟨q, t, hq, rfl, ht⟩ := hw
  refine .of_length ((measure_quote hq _).trans ?_)
  rw [List.append_assoc, List.singleton_append, ofString, stringTail_plain ht]
  simp [ofLength]

theorem measured_dot {s : Text} (hs : ∀ c ∈ s.head?, c.isDigit = false) : Measured .dot ['.'] s := by
  have hfraction : fractionLength ('.' :: s) = 0 := by
    have hdigits : digitsLength s = 0 := by
      cases s with
      | nil => rfl
      | cons c s => simp [digitsLength, hs c rfl]
    exact if_pos hdigits
  refine .of_length (t := []) ?_
  show (if fractionLength ('.' :: s) = 0 then ofLength .dot 1 else ofNumber ('.' :: s)) = _
  rw [if_pos hfraction]
  rfl

/-- The characters that are tokens by themselves, whatever follows. -/
def symbols : List Char := ['(', ')', '[', ']', '{', '}', ':', ';', ',', '*', '>', '=', '+']

theorem measured_symbol {c : Char} (hc : c ∈ symbols) (s : Text) :
    Measured (punctuation c) [c] s := by
  refine .of_length (t := []) ?_
  simp only [symbols, List.mem_cons, List.not_mem_nil, or_false] at hc
  rcases hc with rfl | rfl | rfl | rfl | rfl | rfl | rfl | rfl | rfl | rfl | rfl | rfl | rfl <;> rfl

theorem measured_includes (s : Text) : Measured .includes "~=".toList s :=
  .of_length (t := ['=']) rfl

theorem measured_dashMatch (s : Text) : Measured .dashMatch "|=".toList s :=
  .of_length (t := ['=']) rfl

end Stylesheet
