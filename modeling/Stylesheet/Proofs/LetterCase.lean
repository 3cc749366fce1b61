import Stylesheet.Proofs.AppendedTexts
import Stylesheet.Proofs.BlurredScans

/-! Texts that differ in the case of ASCII letters only: their tokens are the same up to the case of
letters, and so is what is parsed. -/
namespace Stylesheet
open Extent
variable (v : Blur)

namespace Extent

theorem ofNumber_blur (s : Text) : ofNumber (blur v s) = ofNumber s := by
  have hunit : ∀ u : Text, unitKind (blur v u) = unitKind u := fun u => by
    rw [unitKind, foldCase_blur, unitKind]
  simp only [ofNumber, numberLength_blur, drop_blur, identLength_blur, take_blur, hunit,
    head?_blur v (show '%'.isAlpha = false by rfl)]

theorem ofWord_blur (s : Text) : ofWord (blur v s) = ofWord s := by
  simp only [ofWord, nameLength_blur, drop_blur, take_blur, foldCase_blur, tail_blur, uriTail?_blur,
    head?_blur v (show '('.isAlpha = false by rfl)]

theorem ofString_blur {q : Char} (hq : q.isAlpha = false) (s : Text) :
    ofString q (blur v s) = ofString q s := by
  simp only [ofString, stringTail_blur v hq]

theorem ofAt_blur (s : Text) : ofAt (blur v s) = ofAt s := by
  have hkind : ∀ u : Text, atKind (blur v u) = atKind u := fun u => by
    rw [atKind, foldCase_blur, atKind]
  simp only [ofAt, identLength_blur, take_blur, hkind]

end Extent

/-- A text without letters is read as it is. -/
theorem blur_eq_iff {s t : Text} (ht : ∀ c ∈ t, c.isAlpha = false) : blur v s = t ↔ s = t := by
  induction t generalizing s with
  | nil => exact List.map_eq_nil_iff
  | cons d t ih =>
    rw [List.forall_mem_cons] at ht
    cases s with
    | nil => exact iff_of_false (by simp [blur]) (by simp)
    | cons c s => rw [blur_cons, List.cons.injEq, List.cons.injEq, letter_eq_iff v ht.1, ih ht.2]

/-- The extent of a lexeme. Where its first character is a letter it is a word; else that character
stays the same. -/
theorem measure_blur (c : Char) (s : Text) : measure (v.letter c) (blur v s) = measure c s := by
  have hstart := startsName_blur v (c :: s)
  cases hc : c.isAlpha with
  | true =>
    have hname : startsName (c :: s) := by simp [startsName, isNameStart, hc]
    have hname' : startsName (v.letter c :: blur v s) := hstart.trans hname
    rw [measure_startsName hname, measure_startsName hname']
    exact ofWord_blur v (c :: s)
  | false =>
    have hcons : c :: blur v s = blur v (c :: s) := by rw [blur_cons, letter_eq v hc]
    have htake : ∀ n, ∀ t : Text, (∀ d ∈ t, d.isAlpha = false) →
        ((blur v s).take n = t ↔ s.take n = t) := fun n t ht => by rw [take_blur, blur_eq_iff v ht]
    rw [letter_eq v hc]
    unfold Extent.measure
    simp only [hcons, blanksLength_blur, ofString_blur v hc, ofNumber_blur, ofWord_blur, startsName_blur,
      nameLength_blur, ofAt_blur, importantTail?_blur, tail_blur, commentTail_blur, fractionLength_blur,
      head?_blur v (show '*'.isAlpha = false by rfl), head?_blur v (show '='.isAlpha = false by rfl),
      htake 2 "->".toList (by simp), htake 3 "!--".toList (by simp)]

instance : Blurred Lexeme where
  blur v l := ⟨l.kind, blur v l.text, l.closed⟩
  blur_none l := by rw [blur_none]

theorem lexemes_blur (s : Text) : lexemes (blur v s) = (lexemes s).map (blur v) := by
  induction s using lexemes.induct with
  | case1 => rw [blur_nil, lexemes, List.map_nil]
  | case2 c s e ih =>
    rw [blur_cons, lexemes_cons, lexemes_cons, measure_blur, drop_blur, ih, List.map_cons, front,
      measure_blur, take_blur]
    rfl

theorem after_blur (p : Position) (s : Text) : p.after (blur v s) = p.after s := by
  fun_induction Position.after p s with
  | case1 => rfl
  | case2 p s ih => rw [blur_cons, blur_cons, letter_eq v rfl, letter_eq v rfl, Position.after, ih]
  | case3 p c s hc ih =>
    have hc' : ∀ t, v.letter c = '\r' → blur v s = '\n' :: t → False := by
      intro t hreturn ht
      have hs := (head?_blur v (show '\n'.isAlpha = false by rfl) s).mp (by rw [ht]; rfl)
      obtain ⟨r, rfl⟩ := List.head?_eq_some_iff.mp hs
      exact hc r ((letter_eq_iff v rfl).mp hreturn) rfl
    rw [blur_cons, Position.after.eq_3 _ _ _ hc', isNewline_letter, ih]

theorem placeFrom_blur (p : Position) (ls : List Lexeme) : placeFrom p (ls.map (blur v)) =
    (placeFrom p ls).map fun l => ⟨blur v l.lexeme, l.position⟩ := by
  induction ls generalizing p with
  | nil => rfl
  | cons l ls ih =>
    have hafter : p.after (blur v l).text = p.after l.text := after_blur v p l.text
    simp only [List.map_cons, placeFrom, hafter, ih]

/-- In small letters a text has the tokens that it has, in small letters. -/
theorem tokens_foldCase (css : Text) : tokens (foldCase css) = (tokens css).map (blur .letters) := by
  have htoken : ∀ l : Placed, Placed.token? ⟨blur .letters l.lexeme, l.position⟩ =
      l.token?.map (blur .letters) := by
    rintro ⟨⟨k | k, t, b⟩, p⟩ <;> rfl
  have hend : endToken (foldCase css) = blur .letters (endToken css) :=
    congrArg (Token.mk .eof []) (after_blur .letters .start css)
  have hplaced : placed (foldCase css) = (placed css).map fun l =>
      ⟨blur .letters l.lexeme, l.position⟩ :=
    (congrArg (placeFrom .start) (lexemes_blur .letters css)).trans (placeFrom_blur .letters .start _)
  rw [tokens, hplaced, hend, List.filterMap_map, tokens, List.map_append, List.map_filterMap,
    List.map_singleton]
  simp only [Function.comp_def, htoken]

theorem Like.of_map {v : Blur} {x y : List Token} (h : x.map (blur v) = y.map (blur v))
    (hx : Terminated x) : Like v false x y := by
  have hseam : Like v false ([] ++ ([] ++ x)) ([] ++ ([] ++ y)) :=
    .seam rfl (by simp) (by simp) (by simp) h hx
  exact hseam

/-- The case of letters changes no more than the case of the letters in what is made of a text. -/
theorem parse_foldCase {x y : Text} (h : foldCase x = foldCase y) :
    List.Forall₂ (fun t u => t.kind = u.kind ∧ foldCase t.text = foldCase u.text ∧
      t.position = u.position) (tokens x) (tokens y) ∧
    blur .letters (parse x).events = blur .letters (parse y).events ∧
    (parse x).error.map ParseError.position = (parse y).error.map ParseError.position := by
  have htokens : (tokens x).map (blur .letters) = (tokens y).map (blur .letters) := by
    rw [← tokens_foldCase, ← tokens_foldCase, h]
  have hparse := parseFrom_alike ⟨tokens_terminated x, tokens_terminated y,
    .of_map htokens (tokens_terminated x)⟩
  have herror : (parse x).error.map (blur .letters) = (parse y).error.map (blur .letters) :=
    congrArg Parse.error hparse
  refine ⟨?_, congrArg Parse.events hparse, ?_⟩
  · have hall : List.Forall₂ (· = ·) ((tokens x).map (blur .letters)) ((tokens y).map (blur .letters)) := by
      rw [List.forall₂_eq_eq_eq, htokens]
    rw [List.forall₂_map_left_iff, List.forall₂_map_right_iff] at hall
    exact hall.imp fun _ _ htu => Token.blur_eq_iff.mp htu
  · have := congrArg (Option.map ParseError.position) herror
    simpa [Function.comp_def, blur, Blur.letters] using this

/-- A rule in small letters. -/
def murmured : Text := "a\x7bb:url(c) 1px!important\x7d".toList

/-- The same rule in capital letters. -/
def roared : Text := "A\x7bB:URL(C) 1PX!IMPORTANT\x7d".toList

theorem murmured_roared : foldCase murmured = foldCase roared ∧
    List.Forall₂ (fun t u => t.kind = u.kind ∧ foldCase t.text = foldCase u.text ∧
      t.position = u.position) (tokens murmured) (tokens roared) ∧
    blur .letters (parse murmured).events = blur .letters (parse roared).events ∧
    (parse murmured).error.map ParseError.position = (parse roared).error.map ParseError.position :=
  have h : foldCase murmured = foldCase roared := by decide
  ⟨h, parse_foldCase h⟩

end Stylesheet
