import Stylesheet.Proofs.Addresses
import Stylesheet.Proofs.AlikeStatements
import Stylesheet.Proofs.TermTexts
import Stylesheet.Proofs.WrittenSelectors

/-! The ways to write the target of an import: as a string, and as an address with quotes or without.
The report is the same for each of them, but that white space of any kind goes from the ends of an
address without quotes, where only blanks stand around it. -/
namespace Stylesheet
open Computability Lexical Extent

/-- A text that can be written in every way: without blanks, quotes, parentheses and backslashes. -/
def Target (x : Text) : Prop :=
  ∀ c ∈ x, isBlank c = false ∧ isQuote c = false ∧ c ≠ '(' ∧ c ≠ ')' ∧ c ≠ '\\'

instance (x : Text) : Decidable (Target x) :=
  decidable_of_iff (x.all fun c => !isBlank c && !isQuote c && c != '(' && c != ')' && c != '\\')
    (by simp [Target, and_assoc])

/-- No white space stands at the ends of a text, be it a blank or not. -/
structure Trimmed (x : Text) : Prop where
  first : ∀ c ∈ x.head?, isWhiteSpace c = false
  last : ∀ c ∈ x.getLast?, isWhiteSpace c = false

def quotedText (q : Char) (x : Text) : Text := q :: (x ++ [q])

/-- An address with the blanks `b` and `e` around it. -/
def urlText (b x e : Text) : Text := "url(".toList ++ (b ++ (x ++ (e ++ [')'])))

/-- A style sheet that is one import of the target that `w` spells. -/
def importText (w : Text) : Text := "@import".toList ++ ([' '] ++ (w ++ [';']))

/-- The parse of such a style sheet. -/
def imported (x : Text) : Parse := ⟨[.startStylesheet, .importSheet x none, .endStylesheet], none⟩

variable {b e s w x y : Text} {c q : Char} {k : Kind}

/-! White space at the ends. -/

theorem trim_spaced (hb : ∀ c ∈ b, isWhiteSpace c) (he : ∀ c ∈ e, isWhiteSpace c) (s : Text) :
    trim (b ++ (s ++ e)) = trim s := by
  have hrev : ∀ c ∈ e.reverse, isWhiteSpace c := fun c hc => he c (List.mem_reverse.mp hc)
  rw [trim, trim, List.dropWhile_append_of_pos hb, List.dropWhile_append]
  split
  next hnil =>
    have hall : e.dropWhile isWhiteSpace = [] := List.dropWhile_eq_nil_iff.mpr he
    rw [hall, List.isEmpty_iff.mp hnil]
  next => rw [List.reverse_append, List.dropWhile_append_of_pos hrev]

theorem trim_eq_self_iff : trim s = s ↔ Trimmed s := by
  have htrim : trim s = (s.dropWhile isWhiteSpace).rdropWhile isWhiteSpace := rfl
  constructor
  · intro h
    have hfirst : s.dropWhile isWhiteSpace = s := by
      have hpre : s <+: s.dropWhile isWhiteSpace := by
        conv_lhs => rw [← h, htrim]
        exact List.rdropWhile_prefix _ _
      exact (hpre.eq_of_length_le (List.dropWhile_suffix _).length_le).symm
    have hlast : s.rdropWhile isWhiteSpace = s := by rw [htrim, hfirst] at h; exact h
    refine ⟨fun c hc => ?_, fun c hc => ?_⟩
    · obtain ⟨r, rfl⟩ := List.head?_eq_some_iff.mp hc
      exact Bool.eq_false_iff.mpr (List.dropWhile_eq_self_iff.mp hfirst (by simp))
    · obtain ⟨r, rfl⟩ := List.getLast?_eq_some_iff.mp hc
      simpa using List.rdropWhile_eq_self_iff.mp hlast (by simp)
  · intro h
    have hfirst : s.dropWhile isWhiteSpace = s := by
      refine List.dropWhile_eq_self_iff.mpr fun hpos => ?_
      obtain ⟨c, r, rfl⟩ := List.exists_cons_of_length_pos hpos
      simpa using h.first c rfl
    rw [htrim, hfirst, List.rdropWhile_eq_self_iff]
    intro hne
    simpa using h.last _ (List.getLast?_eq_some_getLast hne)

theorem mem_of_mem_trim (hc : c ∈ trim s) : c ∈ s :=
  (List.dropWhile_suffix _).subset ((List.rdropWhile_prefix isWhiteSpace _).subset hc)

/-! What is reported of a target. -/

theorem not_isWhiteSpace_of_isQuote (hq : isQuote q) : isWhiteSpace q = false := by
  rcases (isQuote_iff q).mp hq with rfl | rfl <;> decide

theorem trimmed_quotedText (hq : isQuote q) (x : Text) : Trimmed (quotedText q x) := by
  have hspace := not_isWhiteSpace_of_isQuote hq
  have hlast : (quotedText q x).getLast? = some q := by
    rw [quotedText, ← List.cons_append, List.getLast?_concat]
  exact ⟨by simp [quotedText, hspace], by simp [hlast, hspace]⟩

theorem unquote_quotedText (hq : isQuote q) (x : Text) : unquote (quotedText q x) = x := by
  simp [quotedText, unquote, hq]

theorem unquote_of_target (hx : Target x) : unquote (trim x) = trim x := by
  cases h : trim x with
  | nil => rfl
  | cons c s =>
    have hc : c ∈ x := mem_of_mem_trim (h ▸ List.mem_cons_self)
    rw [unquote, if_neg (by simp [(hx c hc).2.1])]

theorem importAddress_quotedText (hq : isQuote q) (x : Text) : importAddress (quotedText q x) = x := by
  have hurl : foldCase ((quotedText q x).take 4) ≠ "url(".toList := by
    rcases (isQuote_iff q).mp hq with rfl | rfl <;> exact fun h => absurd (List.cons.inj h).1 (by decide)
  rw [importAddress, if_neg hurl, trim_eq_self_iff.mpr (trimmed_quotedText hq x), unquote_quotedText hq]

theorem importAddress_urlText (hb : b ∈ blank∗) (he : e ∈ blank∗) (x : Text) :
    importAddress (urlText b x e) = unquote (trim x) := by
  have hwhite : ∀ {b : Text}, b ∈ blank∗ → ∀ c ∈ b, isWhiteSpace c := fun hb c hc =>
    isWhiteSpace_of_isBlank (mem_char_kstar.mp hb c hc)
  have hinner : b ++ (x ++ (e ++ [')'])) = b ++ (x ++ e) ++ [')'] := by simp
  have hurl : foldCase ((urlText b x e).take 4) = "url(".toList := rfl
  have hdrop : (urlText b x e).drop 4 = b ++ (x ++ (e ++ [')'])) := rfl
  rw [importAddress, if_pos hurl, hdrop, hinner]
  simp only [List.getLast?_concat, List.dropLast_concat, if_true]
  rw [trim_spaced (hwhite hb) (hwhite he)]

/-! The tokens of an import. -/

theorem measured_import (y : Text) : Measured .importSym "@import".toList (' ' :: y) := by
  have hword : ∀ c ∈ "import".toList, isNameChar c := List.all_eq_true.mp (by decide)
  have hstop : ∀ c ∈ (' ' :: y).head?, isNameChar c = false ∧ c ≠ '\\' := by
    rintro _ ⟨⟩
    decide
  have hname : nameLength ("import".toList ++ ' ' :: y) = 6 := nameLength_plain hword hstop
  have hident : identLength ("import".toList ++ ' ' :: y) = 6 := by
    rw [identLength_of_ne (by simp), if_pos (by rfl), hname]
  refine .of_length (t := "import".toList) ?_
  show ofAt ("import".toList ++ ' ' :: y) = _
  rw [ofAt, hident]
  rfl

theorem plainString_of_target (hx : Target x) (hq : isQuote q) : quotedText q x ∈ plainString := by
  refine ⟨q, x, hq, rfl, fun c hc => ⟨?_, (hx c hc).2.2.2.2, ?_⟩⟩
  · rintro rfl
    simp [(hx c hc).2.1] at hq
  · refine Bool.eq_false_iff.mpr fun hn => ?_
    have := isBlank_of_isNewline hn
    simp [(hx c hc).1] at this

theorem quotedAddress_of_target (hx : Target x) (hq : isQuote q) : quotedText q x ∈ quotedAddress := by
  obtain ⟨p, s, hp, heq, hs⟩ := plainString_of_target hx hq
  refine ⟨p, s, hp, ?_, heq⟩
  refine mem_of_le (kstar_mono le_sup_left) (mem_char_kstar.mpr fun c hc => ?_)
  simp [hs c hc]

theorem bareItems_of_target (hx : Target x) : x ∈ bareItem∗ := by
  refine mem_of_le (kstar_mono le_sup_left) (mem_char_kstar.mpr fun c hc => ?_)
  simp [hx c hc]

theorem measured_urlText (hx : x ∈ quotedAddress + bareItem∗) (hb : b ∈ blank∗) (he : e ∈ blank∗)
    (y : Text) : Measured .uri (urlText b x e) y := by
  have hmem : b ++ (x ++ (e ++ [')'])) ∈ address := mem_enclosed.mpr ⟨b, hb, x, hx, e, he, rfl⟩
  exact measured_address (w := "url".toList) rfl
    (uriTail?_eq_some_iff_mem.mpr ⟨_, hmem, [], (List.append_nil _).symm, rfl⟩) y

namespace Grammar
open Production

theorem accept_ends_here {ks : List Kind} (h : .eof ∉ ks) : Runs (accept ks) [] [] [] (· = none) := by
  intro ts hts c hc
  obtain ⟨t, rfl, ht⟩ := hts.of_nil
  have hspace : t.isSpace = false := by simp [Token.isSpace, ht]
  have hnext : c.next = t := hc.next_eq (s := []) (r := []) (by simp) hspace
  exact ⟨none, c, [t], accept_none (by rwa [hnext, ht]), rfl, hts, hc⟩

theorem marks_advance : Advances (accept [.cdo, .cdc]) :=
  (Tracks.accept [.cdo, .cdc] (by decide)).advances (by simp [Syntax.tok])

theorem importSheet_runs (hw : Measured k w [';']) (hk : k ∈ [Kind.string, .uri]) :
    Runs importSheet (importText w) [] [.importSheet (importAddress w) none] (· = some ()) := by
  have hsemicolon : Measured .semicolon [';'] [] := measured_symbol (c := ';') (by decide) []
  have hspace : k ≠ .space := by
    rintro rfl
    exact absurd hk (by decide)
  have hmedia : Runs importMedia [';'] [';'] [] (· = none) := by
    refine (Runs.peek (hsemicolon.next (by decide))).silent fun t ht => ?_
    rw [if_neg (by rw [ht]; decide)]
    exact .pure rfl
  have hmarks : Runs marks [] [] [] fun _ => True :=
    (Runs.many_nil marks_advance (accept_ends_here (by decide))).quiet (.pure trivial)
  refine (Runs.accept_here (measured_import _) (by decide) (by decide)).silent fun o ho => ?_
  obtain ⟨u, rfl, -⟩ := ho
  have hblank : ∀ c ∈ ([' '] : Text), isBlank c := List.all_eq_true.mp (by decide)
  refine (Runs.expect (b := [' ']) hblank hw hspace hk).silent fun target ht => ?_
  rw [ht.2]
  refine hmedia.quiet ((Runs.expect_here hsemicolon (by decide) (by decide)).silent fun _ _ => ?_)
  exact Runs.fire.bind fun _ _ => hmarks.silent fun _ _ => .pure rfl

theorem import_runs (hw : Measured k w [';']) (hk : k ∈ [Kind.string, .uri]) :
    Runs stylesheet (importText w) [] [.startStylesheet, .importSheet (importAddress w) none,
      .endStylesheet] fun _ => True := by
  have hskip : ∀ {ks : List Kind}, .importSym ∉ ks →
      Runs (accept ks) (importText w) (importText w) [] (· = none) := fun hks => Runs.skip ((measured_import _).next (by decide)) hks
  have hcharset : Runs charset (importText w) (importText w) [] fun _ => True :=
    (hskip (by decide)).quiet (.pure trivial)
  have hmarks : Runs marks (importText w) (importText w) [] fun _ => True :=
    (Runs.many_nil marks_advance (hskip (by decide))).quiet (.pure trivial)
  have hno : Runs importSheet [] [] [] (· = none) := (accept_ends_here (by decide)).quiet (.pure rfl)
  have himports := Runs.many_cons importSheet_advances (importSheet_runs hw hk)
    (.many_nil importSheet_advances hno)
  have hstatements : Runs (many statement) [] [] [] (· = []) :=
    .many_nil statement_advances statement_ends_here
  exact Runs.fire.bind fun _ _ => hcharset.silent fun _ _ => hmarks.silent fun _ _ =>
    himports.next (hstatements.quiet .fire)

end Grammar

theorem parse_importText (hw : Measured k w [';']) (hk : k ∈ [Kind.string, .uri]) :
    parse (importText w) = imported (importAddress w) := parse_of_runs (Grammar.import_runs hw hk)

theorem parse_importText_quoted (hx : Target x) (hq : isQuote q) :
    parse (importText (quotedText q x)) = imported x := by
  rw [parse_importText (measured_string (plainString_of_target hx hq) _) (by simp),
    importAddress_quotedText hq]

theorem parse_importText_url (hx : x ∈ quotedAddress + bareItem∗) (hb : b ∈ blank∗) (he : e ∈ blank∗) :
    parse (importText (urlText b x e)) = imported (unquote (trim x)) := by
  rw [parse_importText (measured_urlText hx hb he _) (by simp), importAddress_urlText hb he]

/-- What the spellings of the target `x` report, where `b` and `e` are the blanks in an address. -/
structure SpellingsAgree (b x e : Text) : Prop where
  string : ∀ q, isQuote q → parse (importText (quotedText q x)) = imported x
  quoted : ∀ q, isQuote q → parse (importText (urlText b (quotedText q x) e)) = imported x
  bare : parse (importText (urlText b x e)) = imported (trim x)
  bare_iff : parse (importText (urlText b x e)) = imported x ↔ Trimmed x

/-- Four spellings of a target report it as it is. The fifth, an address without quotes, reports it
without the white space at its ends, and so as it is just if there is none. -/
theorem imports_agree (hx : Target x) (hb : b ∈ blank∗) (he : e ∈ blank∗) : SpellingsAgree b x e := by
  have hbare : parse (importText (urlText b x e)) = imported (trim x) := by
    rw [parse_importText_url (.inr (bareItems_of_target hx)) hb he, unquote_of_target hx]
  refine ⟨fun q hq => parse_importText_quoted hx hq, fun q hq => ?_, hbare, ?_⟩
  · rw [parse_importText_url (.inl (quotedAddress_of_target hx hq)) hb he,
      trim_eq_self_iff.mpr (trimmed_quotedText hq x), unquote_quotedText hq]
  · rw [hbare, ← trim_eq_self_iff]
    simp [imported]

/-- A target of letters, with a line end and a tab around it in an address. -/
theorem letters_agree : SpellingsAgree ['\r', '\n'] ['a', '.', 'b'] ['\t'] :=
  imports_agree (by decide) (mem_char_kstar.mpr (List.all_eq_true.mp (by decide)))
    (mem_char_kstar.mpr (List.all_eq_true.mp (by decide)))

/-- A target that begins with a space that is no blank. -/
def spacedTarget : Text := ['\u00a0', 'a']

/-- That space is part of the target in a string, and of the token that is an address. -/
theorem spacedTarget_lost : Target spacedTarget ∧
    (tokens (urlText [] spacedTarget [])).map Token.text = [urlText [] spacedTarget [], []] ∧
    parse (importText (quotedText '"' spacedTarget)) = imported spacedTarget ∧
    parse (importText (urlText [] spacedTarget [])) = imported ['a'] := by
  have hx : Target spacedTarget := by decide
  have htrim : unquote (trim spacedTarget) = ['a'] := rfl
  refine ⟨hx, by cbv, parse_importText_quoted hx (by decide), ?_⟩
  rw [parse_importText_url (.inr (bareItems_of_target hx)) (Language.nil_mem_kstar _) (Language.nil_mem_kstar _), htrim]

end Stylesheet
