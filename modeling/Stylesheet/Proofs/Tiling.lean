import Mathlib
import Stylesheet.Tokens

/-! The tokens of a text cover it without overlap: between them, and before the end token, stand
comments and nothing else. Only the last comment may lack its end. -/
namespace Stylesheet
open Computability

/-- From `/*` up to and including the first `*/` behind it. -/
def comment : Language Char :=
  {g | ∃ body, g = "/*".toList ++ body ++ "*/".toList ∧ ¬ "*/".toList <:+: body ++ ['*']}

/-- From `/*` to the end of the text, where no `*/` follows. -/
def openComment : Language Char :=
  {g | ∃ body, g = "/*".toList ++ body ∧ ¬ "*/".toList <:+: body}

/-- A text made of gaps and the texts of tokens in turn, with the end token behind the last gap. -/
inductive Tiles : Text → List Token → Prop
  | last {g : Text} {e : Token} (hg : g ∈ comment∗ * (1 + openComment))
      (he : e.kind = .eof) (ht : e.text = []) : Tiles g [e]
  | token {g s : Text} {t : Token} {ts : List Token} (hg : g ∈ comment∗)
      (ht : t.text ≠ []) (hk : t.kind ≠ .eof) (hs : Tiles s ts) : Tiles (g ++ t.text ++ s) (t :: ts)

theorem Tiles.length_le {s : Text} {ts : List Token} (h : Tiles s ts) :
    ts.length ≤ s.length + 1 := by
  induction h with
  | last => simp
  | token _ ht _ _ ih =>
    have := List.length_pos_iff.mpr ht
    simp only [List.length_cons, List.length_append]
    omega

theorem commentTail_closed {s : Text} (h : (commentTail s).2 = true) :
    ∃ body, s.take (commentTail s).1 = body ++ "*/".toList ∧
      ¬ "*/".toList <:+: body ++ ['*'] := by
  fun_induction commentTail s with
  | case1 => simp at h
  | case2 s => exact ⟨[], by simp, by decide⟩
  | case3 c s hc tail ih =>
    obtain ⟨body, hb, hn⟩ := ih h
    refine ⟨c :: body, by simpa [Nat.add_comm 1, tail] using hb, ?_⟩
    rw [List.cons_append, List.infix_cons_iff]
    rintro (hp | hi)
    · -- A `*/` at the very front would have ended the comment there.
      obtain ⟨rfl, hs⟩ := by simpa using hp
      cases body with
      | nil => simp at hs
      | cons d body =>
        obtain rfl : '/' = d := by simpa using hs
        cases s with
        | nil => simp at hb
        | cons e s =>
          have he : e = '/' := by
            have := congrArg List.head? hb
            exact (by simpa [List.head?_take, tail] using this : _ ∧ e = '/').2
          exact hc s rfl (by rw [he])
    · exact hn hi

theorem commentTail_open {s : Text} (h : (commentTail s).2 = false) :
    (commentTail s).1 = s.length ∧ ¬ "*/".toList <:+: s := by
  fun_induction commentTail s with
  | case1 => simp
  | case2 => simp at h
  | case3 c s hc tail ih =>
    obtain ⟨hl, hn⟩ := ih h
    refine ⟨by simp [tail, hl, Nat.add_comm], ?_⟩
    rw [List.infix_cons_iff]
    rintro (hp | hi)
    · obtain ⟨rfl, t, rfl⟩ := by simpa [List.cons_prefix_iff] using hp
      exact hc _ rfl rfl
    · exact hn hi

theorem commentTail_body {body : Text} (h : ¬ "*/".toList <:+: body ++ ['*']) (s : Text) :
    commentTail (body ++ ("*/".toList ++ s)) = (body.length + 2, true) := by
  induction body with
  | nil => rfl
  | cons c body ih =>
    rw [List.cons_append, List.infix_cons_iff, not_or] at h
    have hgoes : ∀ r, c = '*' → body ++ ("*/".toList ++ s) = '/' :: r → False := by
      rintro r rfl heq
      cases body with
      | nil => exact absurd (List.cons.inj heq).1 (by decide)
      | cons d body =>
        obtain ⟨rfl, -⟩ := List.cons.inj heq
        exact h.1 ⟨body ++ ['*'], rfl⟩
    rw [List.cons_append, commentTail.eq_3 _ _ hgoes, ih h.2, List.length_cons]
    exact Prod.ext (by omega) rfl

namespace Extent

/-- The extent of a token; the end token is no lexeme. -/
def IsToken (e : Extent) : Prop := ∃ k, e.kind = some k ∧ k ≠ .eof

theorem isToken_ofLength {k : Kind} (n : Nat) (h : k ≠ .eof) : IsToken (ofLength k n) :=
  ⟨k, rfl, h⟩

theorem isToken_ofString (q : Char) (s : Text) : IsToken (ofString q s) := by
  refine ⟨_, rfl, ?_⟩
  split <;> decide

/-- A kind that a table does not list is not looked up in it. -/
theorem lookup_getD_ne {l : List (Text × Kind)} {j k : Kind} (hl : ∀ p ∈ l, p.2 ≠ k) (hj : j ≠ k)
    (s : Text) : (l.lookup s).getD j ≠ k := by
  cases h : l.lookup s with
  | none => exact hj
  | some i =>
    obtain ⟨before, after, rfl, _⟩ := List.lookup_eq_some_iff.mp h
    exact hl (s, i) (by simp)

theorem isToken_ofNumber (s : Text) : IsToken (ofNumber s) := by
  unfold ofNumber
  dsimp only
  split
  · exact isToken_ofLength _ (lookup_getD_ne (by decide) (by decide) _)
  · split <;> exact isToken_ofLength _ (by decide)

theorem isToken_ofWord (s : Text) : IsToken (ofWord s) := by
  unfold ofWord
  dsimp only
  split
  · split
    · split <;> exact isToken_ofLength _ (by decide)
    · exact isToken_ofLength _ (by decide)
  · exact isToken_ofLength _ (by decide)

theorem isToken_ofAt (s : Text) : IsToken (ofAt s) := by
  unfold ofAt
  dsimp only
  split
  · exact isToken_ofLength _ (by decide)
  · exact isToken_ofLength _ (lookup_getD_ne (by decide) (by decide) _)

theorem punctuation_ne_eof (c : Char) : punctuation c ≠ .eof := by
  unfold punctuation
  split <;> decide

/-- A lexeme is a comment behind `/*`, and else a token. -/
theorem measure_cases (c : Char) (s : Text) :
    IsToken (measure c s) ∨ ∃ r, c = '/' ∧ s = '*' :: r ∧
      measure c s = ⟨none, 1 + (commentTail r).1, (commentTail r).2⟩ := by
  unfold measure
  split
  · exact .inl (isToken_ofLength _ (by decide))
  split
  · exact .inl (isToken_ofString _ _)
  split
  · exact .inl (isToken_ofNumber _)
  split
  · exact .inl (isToken_ofWord _)
  split
  · cases s with
    | nil => exact .inl (isToken_ofLength _ (by decide))
    | cons d r =>
      by_cases hd : d = '*'
      · subst hd
        exact .inr ⟨r, rfl, rfl, rfl⟩
      · exact .inl (by simpa [hd] using isToken_ofLength 1 (by decide))
  all_goals left
  case h_8 => split <;> exact isToken_ofLength _ (by decide)
  case h_6 => exact isToken_ofAt _
  case h_10 => exact isToken_ofLength _ (punctuation_ne_eof c)
  case h_3 =>
    split
    · exact isToken_ofLength _ (by decide)
    split
    · exact isToken_ofWord _
    · exact isToken_ofLength _ (by decide)
  case h_4 =>
    split
    · exact isToken_ofLength _ (by decide)
    · exact isToken_ofNumber _
  all_goals split <;> exact isToken_ofLength _ (by decide)

end Extent

/-- A closed comment is a whole one; an open one runs to the end of the text. -/
theorem comment_tiles {r : Text} :
    if (commentTail r).2 then '/' :: '*' :: r.take (commentTail r).1 ∈ comment
    else '/' :: '*' :: r ∈ openComment ∧ (commentTail r).1 = r.length := by
  cases h : (commentTail r).2 with
  | true =>
    obtain ⟨body, hb, hn⟩ := commentTail_closed h
    exact ⟨body, by simp [hb], hn⟩
  | false =>
    obtain ⟨hl, hn⟩ := commentTail_open h
    exact ⟨⟨r, rfl, hn⟩, hl⟩

/-- A text cut into tokens and the comments between them, where `P` holds of the kind of each token,
its text and all that follows it. -/
inductive Cut (P : Kind → Text → Text → Prop) : Text → List Token → Prop
  | last {g : Text} {e : Token} (hg : g ∈ comment∗ * (1 + openComment)) (he : e.kind = .eof)
      (ht : e.text = []) : Cut P g [e]
  | token {g s : Text} {t : Token} {ts : List Token} (hg : g ∈ comment∗)
      (h : P t.kind t.text s) (hs : Cut P s ts) : Cut P (g ++ t.text ++ s) (t :: ts)

theorem Cut.mono {P Q : Kind → Text → Text → Prop} {s : Text} {ts : List Token} (h : Cut P s ts)
    (hPQ : ∀ {k t s}, P k t s → Q k t s) : Cut Q s ts := by
  induction h with
  | last hg he ht => exact .last hg he ht
  | token hg h _ ih => exact .token hg (hPQ h) ih

/-- A token of the kind `k` and the text `t` is measured in front of `rest`. -/
def Measured (k : Kind) (t rest : Text) : Prop :=
  ∃ c s, (Extent.measure c s).kind = some k ∧ t = c :: s.take (Extent.measure c s).more ∧
    rest = s.drop (Extent.measure c s).more

/-- Behind a gap, the placed lexemes of a text cut it together with the end token. -/
theorem cut_placeFrom {e : Token} (he : e.kind = .eof) (ht : e.text = []) (s : Text) :
    ∀ (g : Text) (p : Position), g ∈ comment∗ →
      Cut Measured (g ++ s) ((placeFrom p (lexemes s)).filterMap Placed.token? ++ [e]) := by
  fun_induction lexemes s with
  | case1 =>
    intro g p hg
    rw [List.append_nil]
    refine .last ?_ he ht
    rw [mul_add, mul_one]
    exact .inl hg
  | case2 c s x ih =>
    intro g p hg
    obtain ⟨k, hk, hne⟩ | ⟨r, rfl, rfl, hx⟩ := Extent.measure_cases c s
    · have h := Cut.token (t := ⟨k, c :: s.take x.more, p⟩) hg ⟨c, s, hk, rfl, rfl⟩
        (ih [] (p.after (c :: s.take x.more)) (Language.nil_mem_kstar _))
      simpa [placeFrom, Placed.token?, x, hk] using h
    · have hc := comment_tiles (r := r)
      cases hb : (commentTail r).2 with
      | true =>
        have hr : g ++ '/' :: '*' :: r.take (commentTail r).1 ∈ comment∗ := by
          rw [hb] at hc
          exact Set.mem_of_mem_of_subset (Language.append_mem_mul hg hc) (kstar_mul_le_kstar (a := comment))
        have h := ih _ (p.after ('/' :: '*' :: r.take (commentTail r).1)) hr
        simpa [placeFrom, Placed.token?, List.filterMap_cons, x, hx, Nat.add_comm 1] using h
      | false =>
        rw [hb] at hc
        have hl : g ++ '/' :: '*' :: r ∈ comment∗ * (1 + openComment) :=
          Language.append_mem_mul hg (.inr hc.1)
        have h := Cut.last (P := Measured) hl he ht
        simpa [placeFrom, Placed.token?, List.filterMap_cons, x, hx, Nat.add_comm 1, hc.2, lexemes] using h

theorem cut_tokens (css : Text) : Cut Measured css (tokens css) :=
  cut_placeFrom rfl rfl css [] .start (Language.nil_mem_kstar _)

theorem Measured.isToken {k : Kind} {t rest : Text} (h : Measured k t rest) : t ≠ [] ∧ k ≠ .eof := by
  obtain ⟨c, s, hk, rfl, rfl⟩ := h
  refine ⟨by simp, ?_⟩
  obtain ⟨j, hj, hne⟩ | ⟨r, -, -, hx⟩ := Extent.measure_cases c s
  · exact Option.some.inj (hj.symm.trans hk) ▸ hne
  · simp [hx] at hk

theorem tiles_tokens (css : Text) : Tiles css (tokens css) := by
  have hcut : ∀ {s : Text} {ts : List Token}, Cut Measured s ts → Tiles s ts := by
    intro s ts h
    induction h with
    | last hg he ht => exact .last hg he ht
    | token hg h _ ih => exact .token hg h.isToken.1 h.isToken.2 ih
  exact hcut (cut_tokens css)

theorem tokens_tile (css : Text) :
    Tiles css (tokens css) ∧ (tokens css).length ≤ css.length + 1 :=
  ⟨tiles_tokens css, (tiles_tokens css).length_le⟩

end Stylesheet
