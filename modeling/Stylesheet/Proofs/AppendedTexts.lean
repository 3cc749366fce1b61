import Stylesheet.Proofs.Concatenation
import Stylesheet.Proofs.Scanning
import Stylesheet.Proofs.StrayTokens
import Stylesheet.Proofs.Seams

/-! A text behind that of a whole style sheet: it is cut as by itself, but for blanks at the seam,
and parsed as what the sheet goes on with. -/
namespace Stylesheet
open Extent

/-- A lexeme that means something and opens no address, and no comment that lacks its end. -/
structure Lexeme.Whole (l : Lexeme) : Prop where
  meaning : l.kind ≠ some .delim
  address : l.kind = some .function → foldCase l.text ≠ "url(".toList
  closed : l.kind = none → l.closed

/-- What a style sheet can end with: a comment, blanks, or what ends a part of it. -/
def Lexeme.Final (l : Lexeme) : Prop := ∀ k ∈ l.kind, k = .space ∨ k ∈ closers

/-- Whole lexemes, of which the last one is final. -/
structure Complete (s : Text) : Prop where
  whole : ∀ l ∈ lexemes s, l.Whole
  final : ∀ l ∈ (lexemes s).getLast?, l.Final

variable {s x : Text} {c : Char}

/-- The first lexeme of a text that starts with `c`. -/
def front (c : Char) (s : Text) : Lexeme :=
  ⟨(measure c s).kind, c :: s.take (measure c s).more, (measure c s).closed⟩

theorem lexemes_cons (c : Char) (s : Text) :
    lexemes (c :: s) = front c s :: lexemes (s.drop (measure c s).more) := by
  rw [lexemes, front]

theorem lexemes_ne_nil (h : s ≠ []) : lexemes s ≠ [] := by
  obtain ⟨c, s, rfl⟩ := List.exists_cons_of_ne_nil h
  simp [lexemes_cons]

/-- What is not settled ends with a lexeme that is not final. -/
theorem Complete.settled (h : Complete s) (hs : s ≠ []) : Settled s := by
  intro hm
  have hkinds : unsettled.tail.map (fun s => (lexemes s).getLast?.bind Lexeme.kind) =
      [some .minus, some .delim, some .delim, some .dot] := by cbv
  have htail : s ∈ unsettled.tail := (List.mem_cons.mp hm).resolve_left hs
  have hk := List.mem_map_of_mem (f := fun s => (lexemes s).getLast?.bind Lexeme.kind) htail
  rw [hkinds] at hk
  obtain ⟨l, hl⟩ := Option.ne_none_iff_exists'.mp (mt List.getLast?_eq_none_iff.mp (lexemes_ne_nil hs))
  have hfinal := h.final l hl
  simp only [hl, Option.bind_some, List.mem_cons, List.not_mem_nil, or_false] at hk
  rcases hk with hk | hk | hk | hk
  all_goals exact absurd (hfinal _ hk) (by decide)

/-- What stands behind the first lexeme is complete again. -/
theorem Complete.rest (h : Complete (c :: s)) : Complete (s.drop (measure c s).more) := by
  constructor
  · intro l hl
    exact h.whole l (by simp [lexemes_cons, hl])
  · intro l hl
    refine h.final l ?_
    rw [lexemes_cons, List.getLast?_cons]
    simp [Option.mem_def.mp hl]

theorem Complete.firm (h : Complete (c :: s)) (hs : s.drop (measure c s).more ≠ []) :
    (measure c s).Firm (c :: s) := by
  have hwhole := h.whole (front c s) (by rw [lexemes_cons]; exact List.mem_cons_self ..)
  have hone : ∀ n, 1 + n = n + 1 := fun n => Nat.add_comm 1 n
  refine ⟨hwhole.meaning, fun hk => ?_, ?_⟩
  · rw [hone, List.take_succ_cons]
    exact hwhole.address hk
  · rw [hone, List.drop_succ_cons]
    exact h.rest.settled hs

/-- The whole text is one lexeme that ends a part of a style sheet, or a comment. -/
theorem measure_last (hs : s.drop (measure c s).more = [])
    (hk : ∀ k ∈ (measure c s).kind, k ∈ closers)
    (hc : (measure c s).kind = none → (measure c s).closed) :
    (measure c s).more ≤ s.length ∧ ∀ x, measure c (s ++ x) = measure c s := by
  obtain ⟨k, hkind, -⟩ | ⟨r, rfl, rfl, hr⟩ := measure_cases c s
  · have hm := hk k hkind
    have hother : ∀ k ∈ closers, k ∉ otherKinds := by decide
    have hmem := (measure_sound c s k hkind (hother k hm)).longest.1
    rw [Nat.add_comm, List.take_succ_cons, List.take_of_length_le (List.drop_eq_nil_iff.mp hs)] at hmem
    simp only [closers, List.mem_cons, List.not_mem_nil, or_false] at hm
    rcases hm with rfl | rfl | rfl | rfl
    all_goals
      obtain ⟨rfl, rfl⟩ := List.cons.inj (show c :: s = _ from hmem)
      exact ⟨by decide, fun x => rfl⟩
  · rw [hr] at hc
    refine ⟨?_, fun x => measure_comment_append (hc rfl)⟩
    have hle : 1 + (commentTail r).1 ≤ r.length + 1 := by
      have := commentTail_le r
      omega
    rwa [hr, List.length_cons]

theorem blank_of_measure_space (hs : s.drop (measure c s).more = [])
    (hk : (measure c s).kind = some .space) : ∀ d ∈ c :: s, isBlank d := by
  have hmem := (measure_sound c s .space hk (by decide)).longest.1
  rw [Nat.add_comm, List.take_succ_cons, List.take_of_length_le (List.drop_eq_nil_iff.mp hs)] at hmem
  obtain ⟨u, ⟨d, hd, rfl⟩, v, hv, heq⟩ := Language.mem_mul.mp hmem
  rw [← heq]
  simpa using ⟨hd, mem_char_kstar.mp hv⟩

theorem lexemes_cons_append (h : measure c (s ++ x) = measure c s) (hm : (measure c s).more ≤ s.length) :
    lexemes (c :: s ++ x) = front c s :: lexemes (s.drop (measure c s).more ++ x) := by
  rw [List.cons_append, lexemes_cons, front, h, List.take_append_of_le_length hm,
    List.drop_append_of_le_length hm, front]

/-- What is put behind a complete text changes nothing before the blanks that the text ends with. -/
theorem lexemes_append (h : Complete s) : ∃ ls b, (∀ c ∈ b, isBlank c) ∧
    ∀ x, lexemes (s ++ x) = ls ++ lexemes (b ++ x) := by
  induction s using lexemes.induct with
  | case1 => exact ⟨[], [], by simp, fun x => rfl⟩
  | case2 c s e ih =>
    by_cases hs : s.drop (measure c s).more = []
    · have hwhole := h.whole (front c s) (by rw [lexemes_cons]; exact List.mem_cons_self ..)
      have hfinal := h.final (front c s) (by rw [lexemes_cons, hs, lexemes]; exact rfl)
      by_cases hk : (measure c s).kind = some .space
      · exact ⟨[], c :: s, blank_of_measure_space hs hk, fun x => rfl⟩
      · obtain ⟨hm, hmeasure⟩ := measure_last hs
          (fun k hm => (hfinal k hm).resolve_left fun he => hk (he ▸ hm)) hwhole.closed
        refine ⟨[front c s], [], by simp, fun x => ?_⟩
        rw [lexemes_cons_append (hmeasure x) hm, hs]
        rfl
    · obtain ⟨ls, b, hb, heq⟩ := ih h.rest
      refine ⟨front c s :: ls, b, hb, fun x => ?_⟩
      rw [lexemes_cons_append (measure_append (h.firm hs)) (le_length_of_drop hs), heq x]
      rfl

/-- The blanks at the front of a text are lexemes by themselves. -/
theorem lexemes_dropWhile (x : Text) : ∃ ls : List Lexeme, (∀ l ∈ ls, l.kind = some .space) ∧
    lexemes x = ls ++ lexemes (x.dropWhile isBlank) := by
  cases x with
  | nil => exact ⟨[], by simp, rfl⟩
  | cons c s =>
    by_cases hc : isBlank c
    · have hdrop : s.drop (s.takeWhile isBlank).length = s.dropWhile isBlank := by
        nth_rewrite 2 [← List.takeWhile_append_dropWhile (p := isBlank) (l := s)]
        exact List.drop_left
      have hm : (measure c s).more = (s.takeWhile isBlank).length := by
        rw [measure_blank hc, ofLength, Nat.add_sub_cancel_left]
        rfl
      refine ⟨[front c s], ?_, ?_⟩
      · simp [front, measure_blank hc, ofLength]
      · rw [lexemes_cons, List.dropWhile_cons_of_pos hc, hm, hdrop]
        rfl
    · exact ⟨[], by simp, by rw [List.dropWhile_cons_of_neg hc]; rfl⟩

/-! Tokens without their places. -/

/-- The token of a lexeme, wherever it stands. -/
def Lexeme.bare? (l : Lexeme) : Option Token := l.kind.map fun k => ⟨k, l.text, .start⟩

theorem blur_places_text (s : Text) : blur .places s = s := List.map_id s

theorem tokens_bare (css : Text) : (tokens css).map (blur .places) =
    (lexemes css).filterMap Lexeme.bare? ++ [⟨.eof, [], .start⟩] := by
  have hplaced : ∀ (ls : List Lexeme) (p : Position),
      ((placeFrom p ls).filterMap Placed.token?).map (blur .places) = ls.filterMap Lexeme.bare? := by
    intro ls
    induction ls with
    | nil => exact fun p => rfl
    | cons l ls ih =>
      intro p
      rcases l with ⟨k | k, t, b⟩
      · exact ih _
      · have hl : blur .places (Token.mk k t p) = ⟨k, t, .start⟩ :=
          congrArg (fun t => Token.mk k t .start) (blur_places_text t)
        exact congrArg₂ List.cons hl (ih _)
  rw [tokens, List.map_append, placed, hplaced]
  rfl

theorem isSpace_of_bare {ls : List Lexeme} (h : ∀ l ∈ ls, l.kind = some .space) :
    ∀ t ∈ ls.filterMap Lexeme.bare?, t.isSpace := by
  intro t ht
  obtain ⟨l, hl, hb⟩ := List.mem_filterMap.mp ht
  rw [Lexeme.bare?, h l hl] at hb
  simp [← Option.some.inj hb, Token.isSpace]

/-! The seam in the tokens: which blanks stand there does not matter. -/
section
variable {v : Blur} {w w' x x' k k' : List Token}

theorem Like.append (hw : w.map (blur v) = w'.map (blur v))
    (hlast : ∀ t ∈ w.getLast?, t.kind ∉ .space :: unitEnds) (hx : Like v false x x') :
    ∀ {close : Bool} {s s' : List Token}, (∀ b ∈ s, b.isSpace) → (∀ b ∈ s', b.isSpace) →
      (close = true → (s = [] ↔ s' = [])) → (w = [] → s = [] ∧ s' = [] ∧ close = false) →
      Like v close (s ++ (w ++ x)) (s' ++ (w' ++ x')) := by
  induction w generalizing w' with
  | nil =>
    intro close s s' _ _ _ hnil
    obtain ⟨rfl, rfl, rfl⟩ := hnil rfl
    rw [List.map_nil, eq_comm, List.map_eq_nil_iff] at hw
    simpa [hw] using hx
  | cons t w ih =>
    intro close s s' hs hs' hgap _
    obtain ⟨t', w', rfl, ht, hw⟩ := List.map_eq_cons_iff.mp hw.symm
    have hend : w = [] → t.kind ∉ .space :: unitEnds := by
      rintro rfl
      exact hlast t rfl
    have hrest : ∀ t ∈ w.getLast?, t.kind ∉ .space :: unitEnds := by
      intro u hu
      exact hlast u (by simp [List.getLast?_cons, Option.mem_def.mp hu])
    cases hb : t.isSpace with
    | true =>
      have hb' : t'.isSpace := isSpace_eq ht ▸ hb
      have hne : w ≠ [] := fun hn => hend hn (by simp [show t.kind = .space by simpa [Token.isSpace] using hb])
      have hmore : Like v close ((s ++ [t]) ++ (w ++ x)) ((s' ++ [t']) ++ (w' ++ x')) := by
        refine ih hw.symm hrest ?_ ?_ (by simp) fun hn => absurd hn hne
        · simpa [or_imp, forall_and] using ⟨hs, hb⟩
        · simpa [or_imp, forall_and] using ⟨hs', hb'⟩
      simpa using hmore
    | false =>
      refine .token hs hs' hb ht.symm (fun hc _ => hgap hc) ?_
      have hmore : Like v (decide (t.kind ∈ unitEnds)) ([] ++ (w ++ x)) ([] ++ (w' ++ x')) :=
        ih hw.symm hrest (by simp) (by simp) (by simp) fun hn =>
          ⟨rfl, rfl, decide_eq_false fun hm => hend hn (List.mem_cons_of_mem _ hm)⟩
      exact hmore

theorem Like.seam {s s' : List Token} (hw : w.map (blur v) = w'.map (blur v))
    (hlast : ∀ t ∈ w.getLast?, t.kind ∉ .space :: unitEnds) (hs : ∀ b ∈ s, b.isSpace)
    (hs' : ∀ b ∈ s', b.isSpace) (hk : k.map (blur v) = k'.map (blur v)) (ht : Terminated k) :
    Like v false (w ++ (s ++ k)) (w' ++ (s' ++ k')) := by
  obtain ⟨q, t, rfl, he⟩ := ht.exists_append
  have hend : ∀ u ∈ (q ++ [t]).getLast?, u.kind ∉ .space :: unitEnds := by
    intro u hu
    obtain rfl : t = u := by simpa using hu
    rw [he]
    decide
  have hbehind : Like v false (s ++ ((q ++ [t]) ++ [])) (s' ++ (k' ++ [])) :=
    .append hk hend .nil hs hs' (by simp) (by simp)
  rw [List.append_nil, List.append_nil] at hbehind
  have hseam : Like v false ([] ++ (w ++ (s ++ (q ++ [t])))) ([] ++ (w' ++ (s' ++ k'))) :=
    .append hw hlast hbehind (by simp) (by simp) (by simp) fun _ => ⟨rfl, rfl, rfl⟩
  exact hseam
end

/-! The texts of style sheets are complete. -/
section
variable {css : Text} {w r : List Token}

theorem exists_token {l : Lexeme} {k : Kind} (hl : l ∈ lexemes css) (hk : l.kind = some k) :
    ∃ t ∈ tokens css, t.kind = k ∧ t.text = l.text := by
  have hbare : ⟨k, l.text, .start⟩ ∈ (tokens css).map (blur .places) := by
    rw [tokens_bare]
    exact List.mem_append_left _ (List.mem_filterMap.mpr ⟨l, hl, by rw [Lexeme.bare?, hk]; rfl⟩)
  obtain ⟨t, ht, heq⟩ := List.mem_map.mp hbare
  obtain ⟨hkind, htext, -⟩ := Token.mk.inj heq
  exact ⟨t, ht, hkind, (blur_places_text _).symm.trans htext⟩

theorem exists_placed {l : Lexeme} {ls : List Lexeme} (hl : l ∈ ls) (p : Position) :
    ∃ q, ⟨l, q⟩ ∈ placeFrom p ls := by
  induction ls generalizing p with
  | nil => simp at hl
  | cons l' ls ih =>
    obtain rfl | hl := List.mem_cons.mp hl
    · exact ⟨p, List.mem_cons_self ..⟩
    · obtain ⟨q, hq⟩ := ih hl (p.after l'.text)
      exact ⟨q, List.mem_cons_of_mem _ hq⟩

theorem closed_of_faults (hc : ∀ p, Fault.unclosedComment p ∉ faults css) {l : Lexeme}
    (hl : l ∈ lexemes css) (hk : l.kind = none) : l.closed := by
  obtain ⟨p, hp⟩ := exists_placed hl .start
  by_contra hopen
  refine hc p (List.mem_filterMap.mpr ⟨⟨l, p⟩, hp, ?_⟩)
  simp [Placed.fault?, hk, hopen]

/-- What the tokens end with is what the lexemes end with. -/
theorem final_of_tokens (hw : tokens css = w ++ r) (hr : Grammar.AtEnd r) (hclosed : w = [] ∨ Closed w) :
    ∀ l ∈ (lexemes css).getLast?, l.Final := by
  intro l hl k hk
  obtain ⟨ls, hls⟩ := List.getLast?_eq_some_iff.mp hl
  obtain ⟨s, e, rfl, hs, -⟩ := hr
  have hbare : l.bare? = some ⟨k, l.text, .start⟩ := by
    rw [Lexeme.bare?, hk]
    rfl
  have hmap := tokens_bare css
  rw [hw, hls, ← List.append_assoc, List.map_append, List.filterMap_append] at hmap
  have hinit := (List.append_inj' hmap rfl).1
  rw [List.filterMap_cons_some hbare, List.filterMap_nil] at hinit
  have hlast : ∀ {v u}, w ++ s = v ++ [u] → u.kind = k := by
    intro v u hv
    rw [hv, List.map_append] at hinit
    exact congrArg Token.kind (List.singleton_inj.mp (List.append_inj' hinit rfl).2)
  obtain rfl | ⟨s, b, rfl⟩ := List.eq_nil_or_concat' s
  · obtain rfl | ⟨v, u, rfl, hu⟩ := hclosed
    · simp at hinit
    · exact .inr (hlast (List.append_nil _) ▸ hu)
  · have hb : b.kind = .space := by simpa [Token.isSpace] using hs b (by simp)
    exact .inl (hlast (List.append_assoc ..).symm ▸ hb)

theorem complete_of_parse (hp : (parse css).error = none)
    (hf : ∀ t ∈ tokens css, t.kind = .function → foldCase t.text ≠ "url(".toList)
    (hc : ∀ p, Fault.unclosedComment p ∉ faults css) (hw : tokens css = w ++ r)
    (hr : Grammar.AtEnd r) (hclosed : w = [] ∨ Closed w) : Complete css where
  whole l hl := by
    refine ⟨fun hk => ?_, fun hk => ?_, closed_of_faults hc hl⟩
    · obtain ⟨t, ht, hkind, -⟩ := exists_token hl hk
      exact kind_notMem_strayKinds hp ht (by rw [hkind]; decide)
    · obtain ⟨t, ht, hkind, htext⟩ := exists_token hl hk
      exact htext ▸ hf t ht hkind
  final := final_of_tokens hw hr hclosed
end

/-! The seam. -/
section
variable {a : Text} {w r : List Token}

theorem last_of_closed (h : w = [] ∨ Closed w) : ∀ t ∈ w.getLast?, t.kind ∉ .space :: unitEnds := by
  intro t ht
  obtain rfl | ⟨v, u, rfl, hu⟩ := h
  · simp at ht
  · obtain rfl : u = t := by simpa using ht
    have : ∀ k ∈ closers, k ∉ .space :: unitEnds := by decide
    exact this _ hu

theorem eq_append_of_closed {u s s' : List Token} (h : w ++ s = u ++ s')
    (hs : ∀ b ∈ s, b.isSpace) (hs' : ∀ b ∈ s', b.isSpace)
    (hw : ∀ t ∈ w.getLast?, t.kind ∉ .space :: unitEnds) : ∃ q, u = w ++ q ∧ ∀ b ∈ q, b.isSpace := by
  rcases List.append_eq_append_iff.mp h with ⟨q, rfl, rfl⟩ | ⟨q, rfl, rfl⟩
  · exact ⟨q, rfl, fun b hb => hs b (List.mem_append_left _ hb)⟩
  · obtain rfl | ⟨q, b, rfl⟩ := List.eq_nil_or_concat' q
    · exact ⟨[], by simp, by simp⟩
    · have hb : b.kind = .space := by simpa [Token.isSpace] using hs' b (by simp)
      exact absurd (hb ▸ List.mem_cons_self ..) (hw b (by simp))

theorem last_of_map {w' : List Token} (h : w'.map (blur .places) = w.map (blur .places))
    (hw : ∀ t ∈ w.getLast?, t.kind ∉ .space :: unitEnds) :
    ∀ t ∈ w'.getLast?, t.kind ∉ .space :: unitEnds := by
  intro t ht
  have hlast := congrArg List.getLast? h
  rw [List.getLast?_map, List.getLast?_map, Option.mem_def.mp ht] at hlast
  obtain ⟨u, hu, heq⟩ := Option.map_eq_some_iff.mp hlast.symm
  exact Token.kind_eq heq ▸ hw u hu

theorem isSpace_of_map {s s' : List Token} (h : s.map (blur .places) = s')
    (hs : ∀ b ∈ s', b.isSpace) : ∀ b ∈ s, b.isSpace :=
  fun b hb => hs (blur .places b) (h ▸ List.mem_map_of_mem hb)

/-- The tokens of a text behind a complete one are its own, but for blanks where they start. -/
theorem tokens_append_like (ha : Complete a) (hw : tokens a = w ++ r) (hr : Grammar.AtEnd r)
    (hclosed : w = [] ∨ Closed w) (b : Text) :
    Like .places false (tokens (a ++ b)) (w ++ tokens b) := by
  obtain ⟨ls, g, hg, happend⟩ := lexemes_append ha
  obtain ⟨ls₀, hls₀, hfront⟩ := lexemes_dropWhile g
  obtain ⟨ls₁, hls₁, hseam⟩ := lexemes_dropWhile (g ++ b)
  obtain ⟨ls₂, hls₂, hbehind⟩ := lexemes_dropWhile b
  obtain ⟨s, e, rfl, hs, -⟩ := hr
  have hlast := last_of_closed hclosed
  rw [List.dropWhile_append_of_pos hg] at hseam
  -- what stands before the seam
  obtain ⟨q, hq, hqs⟩ : ∃ q, ls.filterMap Lexeme.bare? = w.map (blur .places) ++ q ∧
      ∀ b ∈ q, b.isSpace := by
    have hmap := tokens_bare a
    have hnil : g.dropWhile isBlank = [] := List.dropWhile_eq_nil_iff.mpr hg
    rw [hw, ← List.append_nil a, happend [], List.append_nil, hfront, hnil, ← List.append_assoc,
      List.map_append, lexemes, List.append_nil, List.filterMap_append] at hmap
    have hinit := (List.append_inj' hmap rfl).1
    rw [List.map_append] at hinit
    refine eq_append_of_closed hinit ?_ (isSpace_of_bare hls₀) ?_
    · intro b hb
      obtain ⟨u, hu, rfl⟩ := List.mem_map.mp hb
      exact hs u hu
    · intro t ht
      rw [List.getLast?_map] at ht
      obtain ⟨u, hu, rfl⟩ := Option.map_eq_some_iff.mp ht
      exact hlast u hu
  -- the whole, and what stands behind the seam
  have hwhole := tokens_bare (a ++ b)
  rw [happend b, hseam, List.filterMap_append, List.filterMap_append, hq, List.append_assoc,
    List.append_assoc, List.append_assoc, ← List.append_assoc q] at hwhole
  have hrest := tokens_bare b
  rw [hbehind, List.filterMap_append, List.append_assoc] at hrest
  obtain ⟨w', x, hx, hw', hmap⟩ := List.map_eq_append_iff.mp hwhole
  obtain ⟨s₁, k, rfl, hs₁, hk⟩ := List.map_eq_append_iff.mp hmap
  obtain ⟨s₂, k', hk', hs₂, hmap'⟩ := List.map_eq_append_iff.mp hrest
  have hterm : Terminated k := by
    have hne : k ≠ [] := by
      rintro rfl
      simp at hk
    have := tokens_terminated (a ++ b)
    rw [hx, ← List.append_assoc] at this
    exact this.drop hne
  rw [hx, hk']
  refine .seam hw' (last_of_map hw' hlast) (isSpace_of_map hs₁ ?_) (isSpace_of_map hs₂ (isSpace_of_bare hls₂))
    (hk.trans hmap'.symm) hterm
  intro b hb
  exact (List.mem_append.mp hb).elim (hqs b) (isSpace_of_bare hls₁ b)
end

/-- A style sheet behind another one: the events of both come one after the other, but for the rows
and columns of terms, and what does not fit into the second one does not fit behind the first. -/
theorem parse_append {a b : Text} (ha : (parse a).error = none)
    (hf : ∀ t ∈ tokens a, t.kind = .function → foldCase t.text ≠ "url(".toList)
    (hc : ∀ p, Fault.unclosedComment p ∉ faults a) (hb : Grammar.Appendable (tokens b)) :
    ∃ es fs, (parse a).events = es ++ [.endStylesheet] ∧ (parse b).events = .startStylesheet :: fs ∧
      blur .places (parse (a ++ b)).events = blur .places (es ++ fs) ∧
      ((parse (a ++ b)).error = none ↔ (parse b).error = none) ∧
      (parse (a ++ b)).error.map ParseError.text = (parse b).error.map ParseError.text := by
  obtain ⟨w, r, es, hw, hr, hclosed, hevents, happend⟩ := parseFrom_append (tokens_terminated a) ha
  obtain ⟨fs, hfs, hparse⟩ := happend _ (tokens_terminated b) hb
  have hcomplete := complete_of_parse ha hf hc hw hr hclosed
  have hterm : Terminated (w ++ tokens b) := by
    have := tokens_terminated a
    rw [hw] at this
    exact this.exchange hr.ne_nil (tokens_terminated b)
  have halike := parseFrom_alike ⟨tokens_terminated (a ++ b), hterm,
    tokens_append_like hcomplete hw hr hclosed b⟩
  rw [hparse] at halike
  have herror : (parse (a ++ b)).error.map (blur .places) = (parse b).error.map (blur .places) :=
    congrArg Parse.error halike
  have htext : ∀ e : ParseError, (blur .places e).text = e.text := fun e => blur_places_text e.text
  refine ⟨.startStylesheet :: es, fs, hevents, hfs, congrArg Parse.events halike, ?_, ?_⟩
  · rw [← Option.map_eq_none_iff (f := blur .places), herror, Option.map_eq_none_iff]
  · have := congrArg (Option.map ParseError.text) herror
    simpa [Function.comp_def, htext] using this

/-- A rule with a blank behind it. -/
def lonely : Text := "a\x7b\x7d ".toList

/-- A rule between marks, with a blank before them. -/
def marked : Text := " <!--b\x7bc:1\x7d-->".toList

theorem lonely_marked : (parse lonely).error = none ∧
    (∀ t ∈ tokens lonely, t.kind = .function → foldCase t.text ≠ "url(".toList) ∧
    (∀ p, Fault.unclosedComment p ∉ faults lonely) ∧ Grammar.Appendable (tokens marked) ∧
    ∃ es fs, (parse lonely).events = es ++ [.endStylesheet] ∧
      (parse marked).events = .startStylesheet :: fs ∧
      blur .places (parse (lonely ++ marked)).events = blur .places (es ++ fs) ∧
      ((parse (lonely ++ marked)).error = none ↔ (parse marked).error = none) ∧
      (parse (lonely ++ marked)).error.map ParseError.text =
        (parse marked).error.map ParseError.text := by
  have ha : (parse lonely).error = none := by cbv
  have htokens : tokens lonely = [⟨.ident, ['a'], ⟨1, 1⟩⟩, ⟨.lbrace, ['{'], ⟨1, 2⟩⟩,
      ⟨.rbrace, ['}'], ⟨1, 3⟩⟩, ⟨.space, [' '], ⟨1, 4⟩⟩, ⟨.eof, [], ⟨1, 5⟩⟩] := by cbv
  have hf : ∀ t ∈ tokens lonely, t.kind = .function → foldCase t.text ≠ "url(".toList := by
    rw [htokens]
    decide
  have hfaults : faults lonely = [] := by cbv
  have hc : ∀ p, Fault.unclosedComment p ∉ faults lonely := by
    rw [hfaults]
    exact fun p => List.not_mem_nil
  have hmarked : tokens marked = [⟨.space, [' '], ⟨1, 1⟩⟩, ⟨.cdo, "<!--".toList, ⟨1, 2⟩⟩,
      ⟨.ident, ['b'], ⟨1, 6⟩⟩, ⟨.lbrace, ['{'], ⟨1, 7⟩⟩, ⟨.ident, ['c'], ⟨1, 8⟩⟩,
      ⟨.colon, [':'], ⟨1, 9⟩⟩, ⟨.number, ['1'], ⟨1, 10⟩⟩, ⟨.rbrace, ['}'], ⟨1, 11⟩⟩,
      ⟨.cdc, "-->".toList, ⟨1, 12⟩⟩, ⟨.eof, [], ⟨1, 15⟩⟩] := by cbv
  have hb : Grammar.Appendable (tokens marked) := by
    rw [hmarked]
    exact ⟨by simp [Grammar.Unset, Token.isSpace], by simp [Grammar.Importless, Token.isSpace]⟩
  exact ⟨ha, hf, hc, hb, parse_append ha hf hc hb⟩

end Stylesheet
