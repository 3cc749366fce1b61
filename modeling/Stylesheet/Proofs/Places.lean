import Stylesheet.Proofs.LetterCase
import Stylesheet.Proofs.LineBreaks

/-! Where tokens stand: the places that reading the text character by character leads to are those
that a search in the table of the rows finds. -/
namespace Stylesheet
open Computability

/-- The indices of the characters behind the line ends of a text whose first character has the
index `i`. -/
def rowStartsFrom (i : Nat) : Text → List Nat
  | [] => []
  | '\r' :: '\n' :: s => (i + 2) :: rowStartsFrom (i + 2) s
  | c :: s => if isNewline c then (i + 1) :: rowStartsFrom (i + 1) s else rowStartsFrom (i + 1) s

/-- The index of the first character of each row. -/
def rowStarts (css : Text) : List Nat := 0 :: rowStartsFrom 0 css

/-- The place of the character at `index`, in front of the first row that starts behind it. -/
def placeIn (starts : List Nat) (index : Nat) : Position :=
  let row := starts.findIdx fun start => index < start
  ⟨row, index - starts.getD (row - 1) 0 + 1⟩

attribute [ext] Position

variable {s t u v : Text} {c : Char} {i b index : Nat} {p q r : Position}

theorem rowStartsFrom_cons (h : c = '\r' → s.head? ≠ some '\n') : rowStartsFrom i (c :: s) =
    if isNewline c then (i + 1) :: rowStartsFrom (i + 1) s else rowStartsFrom (i + 1) s := by
  refine rowStartsFrom.eq_3 i c s fun x hc hs => ?_
  exact h hc (hs ▸ rfl)

theorem rowStartsFrom_sorted (i : Nat) (s : Text) :
    (rowStartsFrom i s).Pairwise (· < ·) ∧ ∀ x ∈ rowStartsFrom i s, i < x := by
  fun_induction rowStartsFrom i s with
  | case1 => simp
  | case2 i s ih =>
    refine ⟨List.pairwise_cons.mpr ⟨ih.2, ih.1⟩, List.forall_mem_cons.mpr ⟨by omega, fun x hx => ?_⟩⟩
    exact Nat.lt_of_le_of_lt (by omega) (ih.2 x hx)
  | case3 i c s _ hc ih =>
    refine ⟨List.pairwise_cons.mpr ⟨ih.2, ih.1⟩, List.forall_mem_cons.mpr ⟨by omega, fun x hx => ?_⟩⟩
    exact Nat.lt_of_succ_lt (ih.2 x hx)
  | case4 i c s _ hc ih => exact ⟨ih.1, fun x hx => Nat.lt_of_succ_lt (ih.2 x hx)⟩

theorem rowStarts_sorted (css : Text) : (rowStarts css).Pairwise (· < ·) :=
  List.pairwise_cons.mpr ⟨(rowStartsFrom_sorted 0 css).2, (rowStartsFrom_sorted 0 css).1⟩

/-- The first row behind the character parts a sorted table in two, as any search in it must. -/
theorem findIdx_parts {starts : List Nat} (h : starts.Pairwise (· < ·)) :
    (∀ x ∈ starts.take (starts.findIdx fun start => index < start), x ≤ index) ∧
      ∀ x ∈ starts.drop (starts.findIdx fun start => index < start), index < x := by
  induction starts with
  | nil => simp
  | cons b starts ih =>
    obtain ⟨hb, h⟩ := List.pairwise_cons.mp h
    by_cases hlt : index < b
    · simp only [List.findIdx_cons, hlt, decide_true, cond_true, List.take_zero, List.drop_zero]
      exact ⟨by simp, List.forall_mem_cons.mpr ⟨hlt, fun x hx => hlt.trans (hb x hx)⟩⟩
    · simp only [List.findIdx_cons, hlt, decide_false, cond_false, List.take_succ_cons, List.drop_succ_cons]
      exact ⟨List.forall_mem_cons.mpr ⟨Nat.le_of_not_lt hlt, (ih h).1⟩, (ih h).2⟩

/-- The rows up to that of a character start at it or before it, and the ones after it behind it: it is
where a binary search ends. -/
theorem placeIn_parts (css : Text) (index : Nat) :
    (∀ x ∈ (rowStarts css).take (placeIn (rowStarts css) index).row, x ≤ index) ∧
      ∀ x ∈ (rowStarts css).drop (placeIn (rowStarts css) index).row, index < x :=
  findIdx_parts (rowStarts_sorted css)

/-- In the row where the table starts. -/
theorem placeIn_first {starts : List Nat} (hb : b ≤ index) (h : ∀ x ∈ starts, index < x) :
    placeIn (b :: starts) index = ⟨1, index - b + 1⟩ := by
  have hrow : starts.findIdx (fun start => decide (index < start)) = 0 := by
    cases starts with
    | nil => rfl
    | cons x starts => simp [List.findIdx_cons, h x (by simp)]
  simp [placeIn, List.findIdx_cons, Nat.not_lt.mpr hb, hrow]

/-- In a row behind it. -/
theorem placeIn_behind {starts : List Nat} (hb : b ≤ index) (hi : i ≤ index) :
    placeIn (b :: i :: starts) index =
      ⟨(placeIn (i :: starts) index).row + 1, (placeIn (i :: starts) index).column⟩ := by
  simp [placeIn, List.findIdx_cons, Nat.not_lt.mpr hb, Nat.not_lt.mpr hi]

theorem Unsplit.tail (h : Unsplit (c :: s) t) : Unsplit s t := by
  intro hr
  refine h ?_
  rw [List.getLast?_cons, hr]
  rfl

/-- A character in front makes no pair with what follows it. -/
theorem Unsplit.head (h : Unsplit (c :: s) t) (hc : ∀ u, c = '\r' → s = '\n' :: u → False) :
    c = '\r' → (s ++ t).head? ≠ some '\n' := by
  rintro rfl
  cases s with
  | nil => exact h rfl
  | cons d s =>
    intro hd
    obtain rfl : d = '\n' := by simpa using hd
    exact hc s rfl rfl

namespace Position

theorem after_cons (h : c = '\r' → s.head? ≠ some '\n') :
    p.after (c :: s) = (if isNewline c then p.nextRow else p.nextColumn).after s := by
  refine after.eq_3 p c s fun x hc hs => ?_
  exact h hc (hs ▸ rfl)

theorem after_append (h : Unsplit s t) (p : Position) : p.after (s ++ t) = (p.after s).after t := by
  fun_induction after p s with
  | case1 => rfl
  | case2 p s ih => exact ih h.tail.tail
  | case3 p c s hc ih => rw [List.cons_append, after_cons (h.head hc), ih h.tail]

end Position

/-- The search finds the place that reading leads to: rows are counted from the one at `b`. -/
theorem placeIn_after (h : Unsplit u v) (hb : b ≤ i) (hp : p.column = i - b + 1) :
    (p.after u).row + 1 = p.row + (placeIn (b :: rowStartsFrom i (u ++ v)) (i + u.length)).row ∧
      (p.after u).column = (placeIn (b :: rowStartsFrom i (u ++ v)) (i + u.length)).column := by
  fun_induction Position.after p u generalizing i b with
  | case1 p =>
    have hfirst := placeIn_first hb (rowStartsFrom_sorted i v).2
    exact ⟨congrArg (p.row + ·.row) hfirst.symm, hp.trans (congrArg Position.column hfirst.symm)⟩
  | case2 p s ih =>
    have ih := ih h.tail.tail (Nat.le_refl (i + 2)) (by simp [Position.nextRow])
    have hlen : i + ('\r' :: '\n' :: s).length = i + 2 + s.length := by
      simp only [List.length_cons]
      omega
    rw [List.cons_append, List.cons_append, rowStartsFrom, hlen, placeIn_behind (by omega) (by omega),
      ih.1, ih.2]
    exact ⟨by simp only [Position.nextRow]; omega, rfl⟩
  | case3 p c s hc ih =>
    have hlen : i + (c :: s).length = i + 1 + s.length := by
      rw [List.length_cons]
      omega
    rw [List.cons_append, rowStartsFrom_cons (h.head hc), hlen]
    by_cases hn : isNewline c
    · rw [if_pos hn] at ih ⊢
      rw [if_pos hn]
      have ih := ih h.tail (Nat.le_refl (i + 1)) (by simp [Position.nextRow])
      rw [placeIn_behind (by omega) (by omega), ih.1, ih.2]
      exact ⟨by simp only [Position.nextRow]; omega, rfl⟩
    · rw [if_neg hn] at ih ⊢
      rw [if_neg hn]
      exact ih h.tail (by omega) (by simp only [Position.nextColumn]; omega)

theorem after_start (h : Unsplit u v) :
    Position.start.after u = placeIn (rowStarts (u ++ v)) u.length := by
  obtain ⟨hrow, hcolumn⟩ := placeIn_after (p := .start) h (Nat.le_refl 0) rfl
  rw [Nat.zero_add] at hrow hcolumn
  exact Position.ext (Nat.add_right_cancel (hrow.trans (Nat.add_comm 1 _))) hcolumn

/-! Places in the order of reading. -/

namespace Position

/-- `p` is met before `q` when a text is read. -/
def Before (p q : Position) : Prop := p.row < q.row ∨ p.row = q.row ∧ p.column < q.column

theorem Before.trans (h : p.Before q) (h' : q.Before r) : p.Before r := by
  simp only [Before] at *
  omega

theorem Before.ne (h : p.Before q) : p ≠ q := by
  rintro rfl
  simp [Before] at h

theorem before_nextRow (p : Position) : p.Before p.nextRow := .inl (Nat.lt_succ_self _)

theorem before_nextColumn (p : Position) : p.Before p.nextColumn := .inr ⟨rfl, Nat.lt_succ_self _⟩

theorem Before.after (h : p.Before q) (hs : s ≠ [] → q.Before (q.after s)) : p.Before (q.after s) := by
  cases s with
  | nil => exact h
  | cons c s => exact h.trans (hs (List.cons_ne_nil c s))

theorem before_after (hs : s ≠ []) (p : Position) : p.Before (p.after s) := by
  fun_induction after p s with
  | case1 => exact absurd rfl hs
  | case2 p s ih => exact p.before_nextRow.after ih
  | case3 p c s _ ih =>
    refine Before.after ?_ ih
    split
    · exact p.before_nextRow
    · exact p.before_nextColumn

end Position

theorem placeFrom_ordered (s : Text) : ∀ p, (placeFrom p (lexemes s)).Pairwise (·.position.Before ·.position) ∧
    ∀ l ∈ placeFrom p (lexemes s), l.position = p ∨ p.Before l.position := by
  fun_induction lexemes s with
  | case1 => simp [placeFrom]
  | case2 c s e ih =>
    intro p
    obtain ⟨hrest, hlater⟩ := ih (p.after (c :: s.take e.more))
    have hfirst := p.before_after (List.cons_ne_nil c (s.take e.more))
    have hbehind : ∀ l ∈ placeFrom (p.after (c :: s.take e.more)) (lexemes (s.drop e.more)),
        p.Before l.position := fun l hl =>
      (hlater l hl).elim (fun he => he ▸ hfirst) hfirst.trans
    refine ⟨List.pairwise_cons.mpr ⟨hbehind, hrest⟩, List.forall_mem_cons.mpr ⟨.inl rfl, ?_⟩⟩
    exact fun l hl => .inr (hbehind l hl)

/-- Each lexeme stands behind the ones before it. -/
theorem placed_ordered (css : Text) : (placed css).Pairwise (·.position.Before ·.position) :=
  (placeFrom_ordered css .start).1

/-! The tokens of a text. -/

/-- The text `s` behind `before`, cut into tokens and the comments between them, where `P` holds of all
that stands before each token, the token, and all that stands behind it. -/
inductive CutFrom (P : Text → Token → Text → Prop) : Text → Text → List Token → Prop
  | last {before g : Text} {e : Token} (hg : g ∈ comment∗ * (1 + openComment)) (he : e.kind = .eof)
      (ht : e.text = []) (h : P (before ++ g) e []) : CutFrom P before g [e]
  | token {before g s : Text} {t : Token} {ts : List Token} (hg : g ∈ comment∗)
      (h : P (before ++ g) t s) (hs : CutFrom P (before ++ g ++ t.text) s ts) :
      CutFrom P before (g ++ t.text ++ s) (t :: ts)

/-- Where the token `t` stands in a text. -/
structure Stands (css before : Text) (t : Token) (behind : Text) : Prop where
  text : css = before ++ (t.text ++ behind)
  /-- Reading all that stands before it leads to its place. -/
  counted : t.position = Position.start.after before
  /-- So does the search in the table of the rows. -/
  found : t.position = placeIn (rowStarts css) before.length
  unsplit : Unsplit before (t.text ++ behind)

theorem Stands.of_after {css before behind : Text} {t : Token} (h : css = before ++ (t.text ++ behind))
    (hp : t.position = Position.start.after before) (hu : Unsplit before (t.text ++ behind)) :
    Stands css before t behind :=
  ⟨h, hp, by rw [hp, h, after_start hu], hu⟩

theorem Unsplit.left (h : Unsplit s (t ++ u)) : Unsplit s t := by
  intro hr hn
  exact h hr (by rw [List.head?_append, hn]; rfl)

/-! Comments have places, too, though they are no tokens. -/

structure Comment where
  text : Text
  position : Position

def Placed.comment? (l : Placed) : Option Comment :=
  if l.lexeme.kind = none then some ⟨l.lexeme.text, l.position⟩ else none

/-- The comments of a text, in order. -/
def comments (css : Text) : List Comment := (placed css).filterMap Placed.comment?

/-- A comment stands in a text as a token of its characters would, whatever its kind. -/
def Comment.Stands (css before : Text) (c : Comment) (behind : Text) : Prop :=
  ∀ k, Stylesheet.Stands css before ⟨k, c.text, c.position⟩ behind

/-- The text `s` behind `before`, laid out as tokens and comments, each of which stands where it is
said to. No token starts like a comment, and a comment that lacks its end is the last one. -/
inductive Laid (css : Text) : Text → Text → List Token → List Comment → Prop
  | last {before : Text} {e : Token} (he : e.kind = .eof) (ht : e.text = [])
      (h : Stands css before e []) : Laid css before [] [e] []
  | token {before s : Text} {t : Token} {ts : List Token} {cs : List Comment} (ht : t.text ≠ [])
      (hfront : ∀ r, t.text ++ s ≠ '/' :: '*' :: r) (h : Stands css before t s)
      (hs : Laid css (before ++ t.text) s ts cs) : Laid css before (t.text ++ s) (t :: ts) cs
  | closed {before s : Text} {c : Comment} {ts : List Token} {cs : List Comment}
      (hc : c.text ∈ comment) (h : c.Stands css before s)
      (hs : Laid css (before ++ c.text) s ts cs) : Laid css before (c.text ++ s) ts (c :: cs)
  | unclosed {before : Text} {c : Comment} {e : Token} (hc : c.text ∈ openComment)
      (h : c.Stands css before []) (he : e.kind = .eof) (ht : e.text = [])
      (hlast : Stands css (before ++ c.text) e []) : Laid css before c.text [e] [c]

/-- The lexemes `s` behind `before`, which has been read up to `p`. -/
theorem laid_placeFrom {css : Text} {e : Token} (he : e.kind = .eof) (ht : e.text = [])
    (hend : e.position = Position.start.after css) (s : Text) : ∀ (before : Text) (p : Position),
      css = before ++ s → p = Position.start.after before → Unsplit before s →
      Laid css before s ((placeFrom p (lexemes s)).filterMap Placed.token? ++ [e])
        ((placeFrom p (lexemes s)).filterMap Placed.comment?) := by
  have hlast : Stands css css e [] := by
    refine .of_after (by rw [ht, List.nil_append, List.append_nil]) hend ?_
    rw [ht]
    exact .nil_right css
  fun_induction lexemes s with
  | case1 =>
    rintro before p hcss - -
    obtain rfl : css = before := hcss.trans (List.append_nil before)
    exact .last he ht hlast
  | case2 c s x ih =>
    intro before p hcss hp hu
    have hcut : c :: s = c :: s.take x.more ++ s.drop x.more := by
      rw [List.cons_append, List.take_append_drop]
    rw [hcut] at hcss hu
    have hseam : Unsplit (before ++ c :: s.take x.more) (s.drop x.more) :=
      (Extent.measure_unsplit c s).append (by simp) before
    have hstands : ∀ k, Stands css before ⟨k, c :: s.take x.more, p⟩ (s.drop x.more) :=
      fun k => .of_after hcss hp hu
    have hrest := ih (before ++ c :: s.take x.more) (p.after (c :: s.take x.more))
      (by rw [hcss, List.append_assoc]) (by rw [hp, Position.after_append hu.left]) hseam
    rw [hcut]
    obtain ⟨k, hk, -⟩ | ⟨r, rfl, rfl, hx⟩ := Extent.measure_cases c s
    · have hm : Measured k (c :: s.take x.more) (s.drop x.more) := ⟨c, s, hk, rfl, rfl⟩
      have h := Laid.token (t := ⟨k, c :: s.take x.more, p⟩) (List.cons_ne_nil _ _)
        (fun r => hm.no_comment) (hstands k) hrest
      simpa [placeFrom, Placed.token?, Placed.comment?, x, hk] using h
    · have hc := comment_tiles (r := r)
      have htext : ('*' :: r).take x.more = '*' :: r.take (commentTail r).1 := by
        simp [x, hx, Nat.add_comm 1]
      have hkind : x.kind = none := congrArg Extent.kind hx
      cases hb : (commentTail r).2 with
      | true =>
        rw [hb, if_pos rfl, ← htext] at hc
        have h := Laid.closed (c := ⟨'/' :: ('*' :: r).take x.more, p⟩) hc hstands hrest
        simpa [placeFrom, Placed.token?, Placed.comment?, List.filterMap_cons, x, hkind] using h
      | false =>
        rw [hb, if_neg (by simp)] at hc
        have hdrop : ('*' :: r).drop x.more = [] := by simp [x, hx, Nat.add_comm 1, hc.2]
        have hwhole : '/' :: ('*' :: r).take x.more = '/' :: '*' :: r := by
          rw [htext, hc.2, List.take_length]
        rw [hdrop, List.append_nil] at hcss
        rw [hdrop] at hstands ⊢
        have h := Laid.unclosed (c := ⟨'/' :: ('*' :: r).take x.more, p⟩) (hwhole ▸ hc.1) hstands he ht
          (hcss ▸ hlast)
        simpa [placeFrom, Placed.token?, Placed.comment?, List.filterMap_cons, x, hkind, lexemes] using h

/-- Every token and every comment stands where reading the text up to its first character leads. -/
theorem laid_tokens (css : Text) : Laid css [] css (tokens css) (comments css) :=
  laid_placeFrom rfl rfl rfl css [] .start rfl rfl (.nil_left css)

/-- Between the tokens stand the comments. -/
theorem Laid.cutFrom {css : Text} {ts : List Token} {cs : List Comment} (h : Laid css u s ts cs) :
    ∀ before g, u = before ++ g → g ∈ comment∗ → CutFrom (Stands css) before (g ++ s) ts := by
  induction h with
  | last he ht h =>
    rintro before g rfl hg
    rw [List.append_nil]
    refine .last ?_ he ht h
    rw [mul_add, mul_one]
    exact .inl hg
  | @token u s t ts cs _ _ h _ ih =>
    rintro before g rfl hg
    rw [← List.append_assoc]
    exact .token hg h (ih (before ++ g ++ t.text) [] (List.append_nil _).symm (Language.nil_mem_kstar _))
  | @closed u s c ts cs hc h _ ih =>
    rintro before g rfl hg
    rw [← List.append_assoc]
    exact ih before (g ++ c.text) (List.append_assoc ..)
      (Set.mem_of_mem_of_subset (Language.append_mem_mul hg hc) (kstar_mul_le_kstar (a := comment)))
  | @unclosed u c e hc h he ht hlast =>
    rintro before g rfl hg
    rw [List.append_assoc] at hlast
    exact .last (Language.append_mem_mul hg (.inr hc)) he ht hlast

theorem cutFrom_tokens (css : Text) : CutFrom (Stands css) [] css (tokens css) :=
  (laid_tokens css).cutFrom [] [] rfl (Language.nil_mem_kstar _)

/-- Every token, the end token among them, stands where reading the text up to its first character
leads, and never inside a pair CR LF. -/
theorem tokens_stand (css : Text) : CutFrom (Stands css) [] css (tokens css) :=
  cutFrom_tokens css

example : (tokens "a\r\n/*\n*/b".toList).map Token.position = [⟨1, 1⟩, ⟨1, 2⟩, ⟨3, 3⟩, ⟨3, 4⟩] := by cbv

end Stylesheet
