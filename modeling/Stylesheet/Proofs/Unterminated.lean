import Stylesheet.Proofs.Scanning

/-! What a text is warned of: each string that a newline breaks, and one string or one comment that
lacks its end, which is the last of its kind and runs to the end of the text. -/
namespace Stylesheet
open Computability Lexical

/-! Closed strings and comments are no open ones. -/

/-- Whether `q` stands in a text where a backslash keeps the character behind it from being read. -/
def hasQuote (q : Char) : Text → Bool
  | [] => false
  | ['\\'] => false
  | '\\' :: _ :: s => hasQuote q s
  | c :: s => c == q || hasQuote q s

theorem hasQuote_cons {q c : Char} (hc : c ≠ '\\') (s : Text) :
    hasQuote q (c :: s) = (c == q || hasQuote q s) := by
  rw [hasQuote]
  · rintro rfl
    exact absurd rfl hc
  · rintro _ _ rfl
    exact absurd rfl hc

theorem hasQuote_append_of_ne {q : Char} {u : Text} (hu : ∀ c ∈ u, c ≠ '\\' ∧ c ≠ q) (s : Text) :
    hasQuote q (u ++ s) = hasQuote q s := by
  induction u with
  | nil => rfl
  | cons c u ih =>
    rw [List.forall_mem_cons] at hu
    rw [List.cons_append, hasQuote_cons hu.1.1, ih hu.2, beq_false_of_ne hu.1.2, Bool.false_or]

theorem ne_of_isQuote {q c : Char} (hq : isQuote q) (hc : isHexDigit c ∨ isBlank c) :
    c ≠ '\\' ∧ c ≠ q := by
  refine ⟨hc.elim ne_backslash_of_isHexDigit ne_backslash_of_isBlank, ?_⟩
  rintro rfl
  rcases (isQuote_iff c).mp hq with rfl | rfl <;> exact absurd hc (by decide)

theorem hasQuote_item {q : Char} (hq : isQuote q) {u : Text} (hu : u ∈ stringItem q) (s : Text) :
    hasQuote q (u ++ s) = hasQuote q s := by
  rcases hu with (⟨c, hc, rfl⟩ | hu) | ⟨ds, b, rfl, hne, -, hd, hb⟩ | ⟨c, -, -, rfl⟩
  · obtain ⟨⟨hne, -⟩, hback⟩ : (c ≠ q ∧ isNewline c = false) ∧ c ≠ '\\' := by simpa using hc
    exact hasQuote_append_of_ne (by simp [hne, hback]) s
  · obtain ⟨a, rfl, n, ⟨c, -, rfl⟩ | rfl, rfl⟩ := Language.mem_mul.mp hu
    · rfl
    · have hfeed : '\n' ≠ '\\' ∧ '\n' ≠ q := ne_of_isQuote hq (.inr (by decide))
      exact hasQuote_append_of_ne (u := ['\n']) (by simpa using hfeed) s
  · -- The first digit is kept from being read; the other ones and the blank are no quotes.
    obtain ⟨d, ds, rfl⟩ := List.exists_cons_of_ne_nil hne
    rw [List.cons_append, List.cons_append, List.cons_append, hasQuote]
    refine hasQuote_append_of_ne (fun c hc => ne_of_isQuote hq ?_) s
    exact (List.mem_append.mp hc).imp (fun h => hd c (List.mem_cons_of_mem d h))
      (isBlank_of_mem_oneBlank hb c)
  · rfl

theorem hasQuote_items {q : Char} (hq : isQuote q) {w : Text} (hw : w ∈ (stringItem q)∗) (s : Text) :
    hasQuote q (w ++ s) = hasQuote q s := by
  refine kstar_induction (P := fun w => hasQuote q (w ++ s) = hasQuote q s) rfl
    (fun u v hu _ ih => ?_) hw
  rw [List.append_assoc, hasQuote_item hq hu, ih]

theorem notMem_closedString {w : Text} (hw : w ∈ openString * opt (exactly "\\")) :
    w ∉ closedString := by
  rintro ⟨q, u, hq, hu, rfl⟩
  obtain ⟨_, ⟨p, v, -, hv, rfl⟩, e, he, heq⟩ := Language.mem_mul.mp hw
  obtain ⟨rfl, -⟩ := List.cons.inj heq
  have hs : v ++ e = u ++ [p] := (List.cons.inj heq).2
  have hquote := congrArg (hasQuote p) hs
  rw [hasQuote_items hq hv, hasQuote_items hq hu] at hquote
  rcases he with rfl | rfl
  all_goals simp [hasQuote, hasQuote_cons (ne_backslash_of_isQuote hq)] at hquote

theorem notMem_comment {w : Text} (hw : w ∈ openComment) : w ∉ comment := by
  rintro ⟨b, rfl, -⟩
  obtain ⟨body, heq, hno⟩ := hw
  have hbody : b ++ "*/".toList = body := by simpa using heq
  exact hno ⟨b, [], by rw [List.append_nil, hbody]⟩

/-! Lexemes that lack their end. -/

/-- A string or a comment without its end. -/
def Lexeme.Open (l : Lexeme) : Prop :=
  l.kind = some .string ∧ l.text ∉ closedString ∨ l.kind = none ∧ l.text ∉ comment

theorem Lexeme.open_string {l : Lexeme} (h : l.kind = some .string) :
    l.Open ↔ l.text ∉ closedString := by simp [Lexeme.Open, h]

theorem Lexeme.open_comment {l : Lexeme} (h : l.kind = none) : l.Open ↔ l.text ∉ comment := by
  simp [Lexeme.Open, h]

namespace Extent

/-- The lexeme of an extent at the front of `c :: s`. -/
def lexeme (e : Extent) (c : Char) (s : Text) : Lexeme := ⟨e.kind, c :: s.take e.more, e.closed⟩

/-- What is told of a string or comment is whether it has its end; if not, nothing follows it. -/
structure Ends (e : Extent) (c : Char) (s : Text) : Prop where
  closed : e.kind = some .string ∨ e.kind = none → (e.closed = false ↔ (e.lexeme c s).Open)
  last : (e.lexeme c s).Open → s.drop e.more = []

theorem ends_ofString {q : Char} (hq : isQuote q) {s : Text}
    (hk : (ofString q s).kind = some .string) : Ends (ofString q s) q s := by
  obtain ⟨-, hclosed, -, hunclosed⟩ := stringTail_spec q s
  have hopen : ((ofString q s).lexeme q s).Open ↔ q :: s.take (stringTail q s).1 ∉ closedString :=
    Lexeme.open_string hk
  cases he : (stringTail q s).2 with
  | closed =>
    obtain ⟨w, hw, htake⟩ := hclosed he
    have hmem : q :: s.take (stringTail q s).1 ∈ closedString := ⟨q, w, hq, hw, by rw [htake]; rfl⟩
    have hnot : ¬ ((ofString q s).lexeme q s).Open := fun h => hopen.mp h hmem
    exact ⟨fun _ => iff_of_false (by simp [ofString, he]) hnot, fun h => absurd h hnot⟩
  | broken => simp [ofString, he] at hk
  | unclosed =>
    obtain ⟨hmem, hlen⟩ := hunclosed he
    obtain ⟨w, hw, b, hb, htake⟩ := Language.mem_mul.mp hmem
    have hnot : q :: s.take (stringTail q s).1 ∉ closedString := by
      rw [← htake]
      exact notMem_closedString (Language.append_mem_mul (a := q :: w) ⟨q, w, hq, hw, rfl⟩ hb)
    exact ⟨fun _ => iff_of_true (by simp [ofString, he]) (hopen.mpr hnot),
      fun _ => by simp [ofString, hlen]⟩

theorem ends_comment (r : Text) :
    Ends ⟨none, 1 + (commentTail r).1, (commentTail r).2⟩ '/' ('*' :: r) := by
  have htiles := comment_tiles (r := r)
  have htake : ('*' :: r).take (1 + (commentTail r).1) = '*' :: r.take (commentTail r).1 := by
    rw [Nat.add_comm, List.take_succ_cons]
  cases h : (commentTail r).2 with
  | true =>
    rw [h, if_pos rfl] at htiles
    have hnot : ¬ (lexeme ⟨none, 1 + (commentTail r).1, true⟩ '/' ('*' :: r)).Open := fun ho =>
      (Lexeme.open_comment rfl).mp ho (by rwa [lexeme, htake])
    exact ⟨fun _ => iff_of_false (by simp) hnot, fun ho => absurd ho hnot⟩
  | false =>
    rw [h, if_neg (by simp)] at htiles
    have hopen : (lexeme ⟨none, 1 + (commentTail r).1, false⟩ '/' ('*' :: r)).Open := by
      rw [Lexeme.open_comment rfl, lexeme, htake, htiles.2, List.take_length]
      exact notMem_comment htiles.1
    exact ⟨fun _ => iff_of_true rfl hopen, fun _ => by simp [Nat.add_comm 1, htiles.2]⟩

theorem measure_string {c : Char} {s : Text} (h : (measure c s).kind = some .string) :
    isQuote c ∧ measure c s = ofString c s := by
  have hmem := ((Measured.scanned ⟨c, s, h, rfl, rfl⟩) (by decide)).longest.1
  have hq : isQuote c := by
    rcases hmem with ⟨q, u, hq, -, heq⟩ | hmem
    · exact (List.cons.inj heq).1 ▸ hq
    · obtain ⟨_, ⟨q, u, hq, -, rfl⟩, b, -, heq⟩ := Language.mem_mul.mp hmem
      exact (List.cons.inj heq).1 ▸ hq
  exact ⟨hq, measure_quote hq s⟩

theorem measure_ends (c : Char) (s : Text) : Ends (measure c s) c s := by
  obtain ⟨k, hk, -⟩ | ⟨r, rfl, rfl, hx⟩ := measure_cases c s
  · by_cases hs : k = .string
    · subst hs
      obtain ⟨hq, he⟩ := measure_string hk
      rw [he] at hk ⊢
      exact ends_ofString hq hk
    · constructor
      · simp [hk, hs]
      · simp [Lexeme.Open, lexeme, hk, hs]
  · rw [hx]
    exact ends_comment r

end Extent

theorem placeFrom_closed (s : Text) : ∀ (p : Position), ∀ l ∈ placeFrom p (lexemes s),
    l.lexeme.kind = some .string ∨ l.lexeme.kind = none →
      (l.lexeme.closed = false ↔ l.lexeme.Open) := by
  fun_induction lexemes s with
  | case1 => simp [placeFrom]
  | case2 c s e ih =>
    intro p l hl
    obtain rfl | hl := List.mem_cons.mp hl
    · exact (Extent.measure_ends c s).closed
    · exact ih _ l hl

theorem placeFrom_open (s : Text) : ∀ (p : Position) {before after : List Placed} {l : Placed},
    placeFrom p (lexemes s) = before ++ l :: after → l.lexeme.Open → after = [] := by
  fun_induction lexemes s with
  | case1 => simp [placeFrom]
  | case2 c s e ih =>
    intro p before after l heq hopen
    cases before with
    | nil =>
      obtain ⟨rfl, rfl⟩ := List.cons.inj heq
      simp [(Extent.measure_ends c s).last hopen, e, lexemes, placeFrom]
    | cons b before => exact ih _ (List.cons.inj heq).2 hopen

end Stylesheet
