import Stylesheet.Proofs.ProperEvents
import Stylesheet.Proofs.Unterminated

/-! The content of a string token is what its quotes delimit. The quotes are told by the ends of the
text alone, so a string that lacks its closing quote also loses a quote that it ends with behind a
backslash. -/
namespace Stylesheet
open Computability Lexical

/-- What a string was scanned to enclose: all behind its opening quote, or up to the closing quote
where one was found. -/
def Lexeme.inner (l : Lexeme) : Text := if l.closed then l.text.tail.dropLast else l.text.tail

/-- A string without its closing quote that ends with such a quote behind a backslash. -/
def Lexeme.LosesQuote (l : Lexeme) : Prop :=
  l.closed = false ∧ ∃ q v, isQuote q ∧ l.text = q :: v ++ ['\\', q]

variable {q : Char} {b s u w : Text} {l : Lexeme}

/-! How a string can end. -/

theorem escaped_of_item (hq : isQuote q) (hu : u ∈ stringItem q) (h : u.getLast? = some q) :
    u = ['\\', q] := by
  rcases hu with (⟨c, hc, rfl⟩ | hu) | ⟨ds, b, rfl, hne, -, hd, hb⟩ | ⟨c, -, -, rfl⟩
  · obtain rfl : c = q := by simpa using h
    simp at hc
  · obtain ⟨_, rfl, n, ⟨c, hc, rfl⟩ | rfl, rfl⟩ := Language.mem_mul.mp hu
    · obtain rfl : c = q := by simpa using h
      exact absurd rfl (ne_of_isQuote hq (.inr (isBlank_of_isNewline hc))).2
    · obtain rfl : '\n' = q := by simpa using h
      exact absurd hq (by decide)
  · have hlast : (ds ++ b).getLast? = some q := by
      have hsplit : '\\' :: (ds ++ b) = ['\\'] ++ (ds ++ b) := rfl
      rwa [hsplit, List.getLast?_append_of_ne_nil _ (by simp [hne])] at h
    have hmem := (List.mem_append.mp (List.mem_of_getLast? hlast)).imp (hd q)
      (isBlank_of_mem_oneBlank hb q)
    exact absurd rfl (ne_of_isQuote hq hmem).2
  · obtain rfl : c = q := by simpa using h
    rfl

/-- Inside a string its own quote stands behind a backslash only. -/
theorem escaped_of_getLast? (hq : isQuote q) (hw : w ∈ (stringItem q)∗) (h : w.getLast? = some q) :
    ∃ v, w = v ++ ['\\', q] := by
  revert h
  refine kstar_induction (P := fun w => w.getLast? = some q → ∃ v, w = v ++ ['\\', q])
    (by simp) (fun u v hu _ ih h => ?_) hw
  by_cases hv : v = []
  · subst hv
    rw [List.append_nil] at h ⊢
    exact ⟨[], escaped_of_item hq hu h⟩
  · rw [List.getLast?_append_of_ne_nil u hv] at h
    obtain ⟨x, rfl⟩ := ih h
    exact ⟨u ++ x, (List.append_assoc ..).symm⟩

theorem getLast?_unended (hq : isQuote q) (hw : w ∈ (stringItem q)∗) (hb : b ∈ opt (exactly "\\")) :
    (w ++ b).getLast? = some q ↔ ∃ v, w ++ b = v ++ ['\\', q] := by
  constructor
  · intro h
    obtain rfl | rfl := hb
    · rw [List.append_nil] at h ⊢
      exact escaped_of_getLast? hq hw h
    · obtain rfl : '\\' = q := by simpa using h
      exact absurd hq (by decide)
  · rintro ⟨v, hv⟩
    rw [hv]
    simp

/-! What is taken off a string. -/

theorem unquote_quoted (hq : isQuote q) (s : Text) :
    unquote (q :: s) = if s.getLast? = some q then s.dropLast else s := if_pos hq

theorem Lexeme.not_losesQuote (h : l.closed = true) : ¬ l.LosesQuote := by
  rintro ⟨hfalse, -⟩
  simp [h] at hfalse

theorem Lexeme.unquote_closed (h : l.closed = true) (ht : l.text ∈ closedString) :
    unquote l.text = l.inner := by
  obtain ⟨q, s, hq, -, heq⟩ := ht
  rw [inner, if_pos h, heq, List.cons_append, unquote_quoted hq, List.tail_cons, if_pos (by simp)]

theorem Lexeme.losesQuote_iff (hq : isQuote q) (h : l.closed = false) (ht : l.text = q :: s) :
    l.LosesQuote ↔ ∃ v, s = v ++ ['\\', q] := by
  rw [LosesQuote, ht]
  constructor
  · rintro ⟨-, p, v, -, heq⟩
    obtain ⟨rfl, hs⟩ := List.cons.inj heq
    exact ⟨v, hs⟩
  · rintro ⟨v, rfl⟩
    exact ⟨h, q, v, hq, rfl⟩

theorem Lexeme.unquote_open (h : l.closed = false) (ht : l.text ∈ openString * opt (exactly "\\")) :
    (¬ l.LosesQuote → unquote l.text = l.inner) ∧
      (l.LosesQuote → ∃ q, isQuote q ∧ l.inner = unquote l.text ++ [q]) := by
  obtain ⟨_, ⟨q, w, hq, hw, rfl⟩, b, hb, heq⟩ := Language.mem_mul.mp ht
  have heq : l.text = q :: (w ++ b) := heq.symm
  have hloses := (losesQuote_iff hq h heq).trans (getLast?_unended hq hw hb).symm
  have hinner : l.inner = w ++ b := by rw [inner, if_neg (by simp [h]), heq, List.tail_cons]
  rw [hloses, hinner, heq, unquote_quoted hq]
  refine ⟨fun hkeeps => if_neg hkeeps, fun hquote => ⟨q, hq, ?_⟩⟩
  rw [if_pos hquote, List.dropLast_append_getLast? q hquote]

/-! The strings of a style sheet. -/

/-- A string has its closing quote, or it lacks it and nothing follows. -/
theorem placed_string {css : Text} {l : Placed} (hl : l ∈ placed css)
    (hk : l.lexeme.kind = some .string) :
    if l.lexeme.closed then l.lexeme.text ∈ closedString
    else l.lexeme.text ∈ openString * opt (exactly "\\") ∧ (placed css).getLast? = some l := by
  have hopen := placeFrom_closed css .start l hl (.inl hk)
  rw [Lexeme.open_string hk] at hopen
  cases hc : l.lexeme.closed with
  | true =>
    rw [if_pos rfl]
    by_contra hno
    simp [hc, hno] at hopen
  | false =>
    have htext : l.lexeme.text ∉ closedString := hopen.mp hc
    have htoken : l.token? = some ⟨.string, l.lexeme.text, l.position⟩ := by rw [Placed.token?, hk]; rfl
    have hmem := List.mem_append_left [endToken css] (List.mem_filterMap.mpr ⟨l, hl, htoken⟩)
    obtain ⟨rest, hm⟩ := (lexed_tokens css _ hmem).resolve_left (by simp)
    obtain ⟨before, after, hplaced⟩ := List.append_of_mem hl
    obtain rfl := placeFrom_open css .start hplaced ((Lexeme.open_string hk).mpr htext)
    rw [if_neg (by simp), hplaced, List.getLast?_concat]
    exact ⟨(hm.mem_production (k := .string) (by decide)).resolve_left htext, rfl⟩

/-- How the content of the token `t` stands to the string `l` of a style sheet. -/
structure Unquotes (css : Text) (l : Placed) (t : Token) : Prop where
  /-- The closing quote was found, or the string lacks it and is the last lexeme. -/
  delimited : if l.lexeme.closed then t.text ∈ closedString
    else t.text ∉ closedString ∧ (placed css).getLast? = some l
  content : ¬ l.lexeme.LosesQuote → t.content = l.lexeme.inner
  lost : l.lexeme.LosesQuote → ∃ q, isQuote q ∧ l.lexeme.inner = t.content ++ [q]

/-- The content of a string token is what the string was scanned to enclose, but for a quote behind a
backslash at the end of a string that lacks its closing quote. -/
theorem strings_unquote (css : Text) : ∀ l ∈ placed css, ∀ t ∈ l.token?, t.kind = .string →
    Unquotes css l t := by
  intro l hl t ht hstring
  obtain ⟨k, hk, rfl⟩ := Option.map_eq_some_iff.mp ht
  obtain rfl : k = .string := hstring
  have hplaced := placed_string hl hk
  cases hc : l.lexeme.closed with
  | true =>
    rw [hc, if_pos rfl] at hplaced
    exact ⟨by rwa [hc, if_pos rfl], fun _ => Lexeme.unquote_closed hc hplaced,
      fun h => absurd h (Lexeme.not_losesQuote hc)⟩
  | false =>
    rw [hc, if_neg (by simp)] at hplaced
    obtain ⟨hcontent, hlost⟩ := Lexeme.unquote_open hc hplaced.1
    refine ⟨?_, hcontent, hlost⟩
    rw [hc, if_neg (by simp)]
    exact ⟨notMem_closedString hplaced.1, hplaced.2⟩

/-- A string that lacks its closing quote and ends with the other one. -/
def otherQuote : Placed := ⟨⟨some .string, "\"a\\'".toList, false⟩, ⟨1, 1⟩⟩

theorem otherQuote_unquotes : otherQuote ∈ placed otherQuote.lexeme.text ∧
    otherQuote.token? = some ⟨.string, "\"a\\'".toList, ⟨1, 1⟩⟩ ∧
    Unquotes otherQuote.lexeme.text otherQuote ⟨.string, "\"a\\'".toList, ⟨1, 1⟩⟩ := by
  have hplaced : placed otherQuote.lexeme.text = [otherQuote] := by cbv
  have hmem : otherQuote ∈ placed otherQuote.lexeme.text := by simp [hplaced]
  exact ⟨hmem, rfl, strings_unquote _ otherQuote hmem _ rfl rfl⟩

/-- A string that lacks its closing quote and ends with a quote behind a backslash. -/
def escapedQuote : Text := "\"a\\\"".toList

/-- The scanner did not take that quote for the closing one, and yet the content lacks it. -/
theorem escapedQuote_lost : (placed escapedQuote).map (fun l => (l.lexeme.kind, l.lexeme.closed, l.lexeme.inner)) =
      [(some .string, false, "a\\\"".toList)] ∧
    (tokens escapedQuote).map Token.content = ["a\\".toList, []] := by
  constructor <;> cbv

end Stylesheet
