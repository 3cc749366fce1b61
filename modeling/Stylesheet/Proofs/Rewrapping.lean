import Stylesheet.Proofs.EarliestFailure
import Stylesheet.Proofs.Tape
import Stylesheet.Proofs.TermPlaces

/-! The tokens of a text, wrapped anew without their end token. The end token that is supplied for them
stands in the row where the last token starts, and a parse can tell it from the one of the text by the
place of an error at the end, and by nothing else. -/
namespace Stylesheet

/-- The tokens of a text but for the end token. -/
def properTokens (css : Text) : List Token := (tokens css).dropLast

/-- The last token ends in the row where it starts. -/
def EndsInRow (ts : List Token) : Prop := ∀ t ∈ ts.getLast?, ∀ c ∈ t.text, isNewline c = false

/-- The parse, where an error at the token `e` is one at `e'` instead. -/
def Parse.moveEnd (e e' : Token) (x : Parse) : Parse where
  events := x.events
  error := x.error.map fun d => if d = .atToken e then .atToken e' else d

variable {css s before : Text} {ts : List Token} {e e' : Token} {p q : Position}

theorem tokens_eq (css : Text) : tokens css = properTokens css ++ [endToken css] := by
  rw [properTokens, tokens, List.dropLast_concat]

theorem properTokens_proper (css : Text) : ∀ t ∈ properTokens css, t.kind ≠ .eof ∧ t.text ≠ [] := by
  intro t ht
  have hends := tokens_terminated css
  rw [tokens_eq] at hends
  have hkind := hends.ne_eof_of_mem (by simp) ht
  obtain ⟨rest, hm⟩ := (lexed_tokens css t (List.mem_of_mem_dropLast ht)).resolve_left hkind
  exact ⟨hkind, hm.isToken.1⟩

/-! Rows. -/

theorem rowStartsFrom_eq_nil_iff (i : Nat) (s : Text) :
    rowStartsFrom i s = [] ↔ ∀ c ∈ s, isNewline c = false := by
  fun_induction rowStartsFrom i s with
  | case1 => simp
  | case2 => simp [isNewline]
  | case3 i c s _ hc => simp [hc]
  | case4 i c s _ hc ih => simp [hc, ih]

namespace Position

theorem row_after (p : Position) (i : Nat) (s : Text) :
    (p.after s).row = p.row + (rowStartsFrom i s).length := by
  fun_induction after p s generalizing i with
  | case1 => rfl
  | case2 p s ih =>
    rw [rowStartsFrom, List.length_cons, ih (i + 2)]
    simp only [nextRow]
    omega
  | case3 p c s hc ih =>
    rw [rowStartsFrom.eq_3 i c s hc, ih (i + 1)]
    split
    · simp only [List.length_cons, nextRow]
      omega
    · rfl

theorem after_of_flat (hs : ∀ c ∈ s, isNewline c = false) (p : Position) :
    p.after s = ⟨p.row, p.column + s.length⟩ := by
  induction s generalizing p with
  | nil => rfl
  | cons c s ih =>
    obtain ⟨hc, hs⟩ := List.forall_mem_cons.mp hs
    have hreturn : c ≠ '\r' := by
      rintro rfl
      exact absurd hc (by decide)
    rw [after_cons fun h => absurd h hreturn, if_neg (by simp [hc]), ih hs, nextColumn, List.length_cons,
      Nat.add_assoc, Nat.add_comm 1]

/-- Counting the characters of a text leads to its end just if it has no line end. -/
theorem after_eq_iff (p : Position) (s : Text) :
    p.after s = ⟨p.row, p.column + s.length⟩ ↔ ∀ c ∈ s, isNewline c = false := by
  refine ⟨fun h => (rowStartsFrom_eq_nil_iff 0 s).mp ?_, fun hs => after_of_flat hs p⟩
  have hrow := (row_after p 0 s).symm.trans (congrArg row h)
  exact List.length_eq_zero_iff.mp (Nat.add_eq_left.mp hrow)

end Position

/-! Texts that the tokens alone make up: each token stands where the one before it ends. -/

theorem CutFrom.length_le {P : Text → Token → Text → Prop} (h : CutFrom P before s ts) :
    (ts.flatMap Token.text).length ≤ s.length := by
  induction h with
  | last _ _ ht => simp [ht]
  | token _ _ _ ih =>
    simp only [List.flatMap_cons, List.length_append]
    omega

theorem CutFrom.adjacent (h : CutFrom (Stands css) before s ts) (hs : ts.flatMap Token.text = s) :
    ts.IsChain (fun t u => u.position = t.position.after t.text) ∧
      ∀ t ∈ ts.head?, t.position = Position.start.after before := by
  induction h with
  | @last before g e _ _ ht hstands =>
    obtain rfl : [] = g := by simpa [ht] using hs
    refine ⟨.singleton e, fun t he => ?_⟩
    obtain rfl := Option.some.inj he
    rw [hstands.counted, List.append_nil]
  | @token before g s t ts _ hstands hcut ih =>
    -- The texts of the tokens leave no room for a gap.
    have hle := hcut.length_le
    have hlength := congrArg List.length hs
    simp only [List.flatMap_cons, List.length_append] at hlength
    obtain rfl : g = [] := List.length_eq_zero_iff.mp (by omega)
    obtain ⟨hchain, hfirst⟩ := ih (List.append_cancel_left hs)
    have hseam := hstands.unsplit.left
    rw [List.append_nil] at hseam
    have hplace : t.position = Position.start.after before := by
      rw [hstands.counted, List.append_nil]
    refine ⟨List.isChain_cons.mpr ⟨fun u hu => ?_, hchain⟩, fun u hu => ?_⟩
    · rw [hfirst u hu, List.append_nil, Position.after_append hseam, hplace]
    · rw [← Option.some.inj hu, hplace]

theorem endToken_position (h : (tokens css).flatMap Token.text = css) :
    ∀ t ∈ (properTokens css).getLast?, (endToken css).position = t.position.after t.text := by
  have hchain := ((cutFrom_tokens css).adjacent h).1
  rw [tokens_eq, List.isChain_append] at hchain
  exact fun t ht => hchain.2.2 t ht _ rfl

/-! The end token that is supplied. -/

theorem withEnd_of_ne_eof (h : ∀ t ∈ ts, t.kind ≠ .eof) :
    Cursor.withEnd ts = ts ++ [Cursor.endAfter ts] := by
  refine if_neg fun hlast => ?_
  obtain ⟨t, ht, heof⟩ := (Option.any_eq_true _ _).mp hlast
  exact h t (List.mem_of_getLast? ht) (by simpa [Token.isEof] using heof)

theorem endAfter_eq (ts : List Token) : Cursor.endAfter ts = ⟨.eof, [], (Cursor.endAfter ts).position⟩ := by
  unfold Cursor.endAfter
  split <;> rfl

theorem endAfter_position {t : Token} (h : t ∈ ts.getLast?) :
    (Cursor.endAfter ts).position = ⟨t.position.row, t.position.column + t.text.length⟩ := by
  rw [Cursor.endAfter, Option.mem_def.mp h]

theorem endAfter_eq_endToken_iff (h : (tokens css).flatMap Token.text = css) :
    Cursor.endAfter (properTokens css) = endToken css ↔ EndsInRow (properTokens css) := by
  have hplaces : Cursor.endAfter (properTokens css) = endToken css ↔
      (Cursor.endAfter (properTokens css)).position = (endToken css).position := by
    rw [endAfter_eq]
    exact ⟨congrArg Token.position, congrArg (Token.mk .eof [])⟩
  rw [hplaces]
  cases hlast : (properTokens css).getLast? with
  | none =>
    have hnil : properTokens css = [] := List.getLast?_eq_none_iff.mp hlast
    have hcss : [] = css := by rwa [tokens_eq, hnil] at h
    rw [EndsInRow, hlast, hnil, ← hcss]
    exact iff_of_true rfl (by simp)
  | some t =>
    rw [EndsInRow, hlast, endAfter_position hlast, endToken_position h t hlast, eq_comm,
      Position.after_eq_iff]
    simp

/-- No token stands at the end that is supplied behind all of them. -/
theorem properTokens_before (css : Text) :
    ∀ t ∈ properTokens css, t.position.Before (Cursor.endAfter (properTokens css)).position := by
  intro t ht
  obtain ⟨us, u, hus⟩ := (List.eq_nil_or_concat' _).resolve_left (List.ne_nil_of_mem ht)
  have hlast : u ∈ (properTokens css).getLast? := by rw [hus, List.getLast?_concat]; rfl
  have htext := List.length_pos_iff.mpr (properTokens_proper css u (List.mem_of_getLast? hlast)).2
  have hend : u.position.Before (Cursor.endAfter (properTokens css)).position := by
    rw [endAfter_position hlast]
    exact .inr ⟨rfl, Nat.lt_add_of_pos_right htext⟩
  have hordered : (us ++ [u]).Pairwise (·.position.Before ·.position) := hus ▸ tokens_ordered css
  rw [hus] at ht
  rcases List.mem_append.mp ht with ht | ht
  · exact ((List.pairwise_append.mp hordered).2.2 t ht u (by simp)).trans hend
  · rwa [List.mem_singleton.mp ht]

/-- A cursor knows its tokens and nothing else. -/
theorem Cursor.ofTokens_eq_iff {xs ys : List Token} :
    Cursor.ofTokens xs = Cursor.ofTokens ys ↔ Cursor.withEnd xs = Cursor.withEnd ys := by
  have hcursor : ∀ {ts us : List Token} {e : Token}, Cursor.withEnd ts = us ++ [e] →
      Cursor.ofTokens ts = ⟨us, e, us.headD e, false⟩ := by
    intro ts us e h
    rw [Cursor.ofTokens, h, List.dropLast_concat, List.getLastD_concat]
    cases us <;> rfl
  obtain ⟨us, e, hx, -⟩ := (Tape.withEnd_spec xs).ended
  obtain ⟨vs, f, hy, -⟩ := (Tape.withEnd_spec ys).ended
  rw [hcursor hx, hcursor hy, hx, hy]
  constructor
  · intro h
    simp only [Cursor.mk.injEq] at h
    rw [h.1, h.2.1]
  · intro h
    obtain ⟨rfl, hends⟩ := List.append_inj' h rfl
    rw [List.singleton_inj.mp hends]

/-! Parses. Where one end token is taken to stand at the other they cannot be told apart, and what does not
stand there stays as it is. -/

/-- What stands at `q` is taken to stand at `p`. -/
def Blur.moved (p q : Position) : Blur := { Blur.none with place := fun r => if r = q then p else r }

theorem Position.blur_moved {r : Position} (h : r ≠ q) : blur (.moved p q) r = r := if_neg h

theorem Event.blur_moved {x : Event} (h : ∀ t ∈ x.terms, t.position ≠ q) : blur (.moved p q) x = x := by
  have hplaceless : ∀ {x : Event}, blur (.moved p q) x = blur .none x → blur (.moved p q) x = x :=
    fun hx => hx.trans (blur_none _)
  cases x with
  | property name v important =>
    have hv : blur (.moved p q) v = v := by
      refine (List.map_congr_left fun y hy => ?_).trans (List.map_id v)
      cases y with
      | operator o => rfl
      | term t =>
        have ht := h t (List.mem_filterMap.mpr ⟨_, hy, rfl⟩)
        exact congrArg₂ (fun s r => Value.Part.term ⟨s, t.kind, r⟩) (List.map_id t.text)
          (Position.blur_moved ht)
    exact congrArg₂ (property · · important) (List.map_id name) hv
  | _ => exact hplaceless rfl

/-- The events of a parse whose terms stand at tokens, none of which stands at `q`. -/
theorem Located.blur_moved {x : Parse} (h : Located x.terms ts) (hts : ∀ t ∈ ts, t.position ≠ q) :
    blur (.moved p q) x.events = x.events := by
  refine (List.map_congr_left fun y hy => ?_).trans (List.map_id x.events)
  refine Event.blur_moved fun t ht => ?_
  have hterm : t ∈ x.terms := List.mem_flatMap.mpr ⟨y, hy, ht⟩
  obtain ⟨k, hk, hposition⟩ := List.mem_map.mp (h.positions.subset (List.mem_map_of_mem hterm))
  exact hposition ▸ hts k hk

/-- A parse fails at one of its tokens. -/
theorem parseFrom_error_mem {x : List Token} {d : ParseError} (hx : Terminated x)
    (h : (parseFrom (.ofTokens x)).error = some d) : ∃ t ∈ x, d = .atToken t := by
  obtain ⟨w, r, es, -, -, -, hp⟩ | ⟨w, t, r, es, rfl, -, -, hp⟩ := parseFrom_cases hx
  · simp [hp] at h
  · rw [hp r hx] at h
    exact ⟨t, by simp, (Option.some.inj h).symm⟩

section
variable (hts : ∀ t ∈ ts, t.kind ≠ .eof ∧ t.text ≠ []) (he : e.kind = .eof ∧ e.text = [])
  (he' : e'.kind = .eof ∧ e'.text = []) (hplace : ∀ t ∈ ts, t.position ≠ e'.position)
include hts he he' hplace

/-- If errors at two tokens are the same where `e'` is taken to stand at `e`, the tokens are the same or
both the end. -/
theorem atToken_moved {t t' : Token} (ht : t ∈ ts ++ [e]) (ht' : t' ∈ ts ++ [e'])
    (h : blur (.moved e.position e'.position) (ParseError.atToken t) =
      blur (.moved e.position e'.position) (ParseError.atToken t')) :
    ParseError.atToken t' = if ParseError.atToken t = .atToken e then .atToken e' else .atToken t := by
  have htext : t.text = t'.text := by
    have htexts := congrArg ParseError.text h
    exact (List.map_id t.text).symm.trans (htexts.trans (List.map_id t'.text))
  simp only [List.mem_append, List.mem_singleton] at ht ht'
  rcases ht with ht | rfl
  · have hproper := (hts t ht).2
    have hmem : t' ∈ ts := by
      refine ht'.resolve_right ?_
      rintro rfl
      exact hproper (htext.trans he'.2)
    have hposition : t.position = t'.position := by
      have hmoved := congrArg ParseError.position h
      exact (Position.blur_moved (hplace t ht)).symm.trans
        (hmoved.trans (Position.blur_moved (hplace t' hmem)))
    rw [if_neg fun heq => hproper ((congrArg ParseError.text heq).trans he.2)]
    exact congrArg₂ ParseError.mk htext.symm hposition.symm
  · rw [if_pos rfl, ht'.resolve_left fun hmem => (hts t' hmem).2 (htext.symm.trans he.2)]

/-- With another end token, whose place is that of no token before it, a parse does the same, but for
the place of an error at the end. -/
theorem parseFrom_moveEnd :
    parseFrom (.ofTokens (ts ++ [e'])) = (parseFrom (.ofTokens (ts ++ [e]))).moveEnd e e' := by
  have hends : ∀ {x : Token}, x.kind = .eof → Terminated (ts ++ [x]) := .snoc fun t ht => (hts t ht).1
  have hmap : (ts ++ [e]).map (blur (.moved e.position e'.position)) =
      (ts ++ [e']).map (blur (.moved e.position e'.position)) := by
    have hend : blur (.moved e.position e'.position) e = blur (.moved e.position e'.position) e' := by
      refine Token.blur_eq_iff.mpr ⟨he.1.trans he'.1.symm, by rw [he.2, he'.2], ?_⟩
      show (if _ then _ else _) = if _ then _ else _
      simp
    rw [List.map_append, List.map_append, List.map_singleton, List.map_singleton, hend]
  have halike := parseFrom_alike ⟨hends he.1, hends he'.1, .of_map hmap (hends he.1)⟩
  have hevents : (parseFrom (.ofTokens (ts ++ [e']))).events = (parseFrom (.ofTokens (ts ++ [e]))).events := by
    have hfixed : ∀ {x : Token}, x.kind = .eof →
        blur (.moved e.position e'.position) (parseFrom (.ofTokens (ts ++ [x]))).events =
          (parseFrom (.ofTokens (ts ++ [x]))).events := by
      intro x hx
      have hlocated := parseFrom_located (hends hx)
      rw [List.dropLast_concat] at hlocated
      exact hlocated.blur_moved hplace
    rw [← hfixed he.1, ← hfixed he'.1]
    exact (congrArg Parse.events halike).symm
  have herror : (parseFrom (.ofTokens (ts ++ [e']))).error = (parseFrom (.ofTokens (ts ++ [e]))).error.map
      fun d => if d = .atToken e then .atToken e' else d := by
    have hblurred : (parseFrom (.ofTokens (ts ++ [e]))).error.map (blur (.moved e.position e'.position)) =
        (parseFrom (.ofTokens (ts ++ [e']))).error.map (blur (.moved e.position e'.position)) :=
      congrArg Parse.error halike
    cases hd : (parseFrom (.ofTokens (ts ++ [e]))).error with
    | none =>
      rw [hd, Option.map_none] at hblurred
      exact Option.map_eq_none_iff.mp hblurred.symm
    | some d =>
      rw [hd, Option.map_some] at hblurred
      obtain ⟨d', hd', hdd'⟩ := Option.map_eq_some_iff.mp hblurred.symm
      obtain ⟨t, ht, rfl⟩ := parseFrom_error_mem (hends he.1) hd
      obtain ⟨t', ht', rfl⟩ := parseFrom_error_mem (hends he'.1) hd'
      rw [hd', Option.map_some, atToken_moved hts he he' hplace ht ht' hdd'.symm]
  exact congrArg₂ Parse.mk hevents herror

end

theorem Parse.moveEnd_eq_self (x : Parse) (h : e' = e ∨ x.error ≠ some (.atToken e)) :
    x.moveEnd e e' = x := by
  refine congrArg (Parse.mk x.events) ((Option.map_congr fun d hd => ?_).trans Option.map_id_apply)
  rcases h with rfl | h
  · exact ite_eq_right_iff.mpr Eq.symm
  · exact if_neg fun heq => h ((Option.mem_def.mp hd).trans (congrArg some heq))

/-- The parse of the tokens of a text wrapped anew. -/
theorem parseFrom_properTokens (css : Text) : parseFrom (.ofTokens (properTokens css)) =
    (parse css).moveEnd (endToken css) (Cursor.endAfter (properTokens css)) := by
  have hproper := properTokens_proper css
  have hend := endAfter_eq (properTokens css)
  have hends : Terminated (properTokens css ++ [Cursor.endAfter (properTokens css)]) :=
    .snoc (fun t ht => (hproper t ht).1) (by rw [hend])
  have hsupplied := withEnd_of_ne_eof fun t ht => (hproper t ht).1
  have hmoved := parseFrom_moveEnd (e := endToken css) hproper ⟨rfl, rfl⟩ (by rw [hend]; exact ⟨rfl, rfl⟩)
    fun t ht => (properTokens_before css t ht).ne
  rwa [← tokens_eq, ← Cursor.ofTokens_eq_iff.mpr (hsupplied.trans hends.withEnd.symm)] at hmoved

/-- The tokens of a text wrapped anew, compared with the text itself. -/
structure Rewrapped (css : Text) : Prop where
  /-- Only the end token may be another one. -/
  supplied : Cursor.withEnd (properTokens css) =
    properTokens css ++ [Cursor.endAfter (properTokens css)]
  tokens_iff : Cursor.withEnd (properTokens css) = tokens css ↔ EndsInRow (properTokens css)
  stream_iff : Stream.ofTokens (properTokens css) = Stream.ofText css ↔ EndsInRow (properTokens css)
  /-- It misses as many rows as the last token goes on in. -/
  rows : ∀ t ∈ (properTokens css).getLast?, (endToken css).position.row + 1 =
    (Cursor.endAfter (properTokens css)).position.row + (rowStarts t.text).length
  /-- The events are the same, and so is an error that is not at the end. -/
  parse_eq : parseFrom (.ofTokens (properTokens css)) =
    (parse css).moveEnd (endToken css) (Cursor.endAfter (properTokens css))
  parse_iff : parseFrom (.ofTokens (properTokens css)) = parse css ↔
    EndsInRow (properTokens css) ∨ (parse css).error ≠ some (.atToken (endToken css))

/-- Where the tokens alone make up the text, wrapping them anew gives the tokens of the text if the last
one ends in the row where it starts. Else the end token stands in too early a row, and an error at the
end is reported there. -/
theorem tokens_rewrapped (h : (tokens css).flatMap Token.text = css) : Rewrapped css := by
  have hsupplied := withEnd_of_ne_eof fun t ht => (properTokens_proper css t ht).1
  have hends := endAfter_eq_endToken_iff h
  have hparse := parseFrom_properTokens css
  have htokens : Cursor.withEnd (properTokens css) = tokens css ↔ EndsInRow (properTokens css) := by
    rw [hsupplied, tokens_eq, List.append_cancel_left_eq, List.singleton_inj, hends]
  have hstream : Stream.ofTokens (properTokens css) = Stream.ofText css ↔
      EndsInRow (properTokens css) := by
    rw [← htokens, ← (tokens_terminated css).withEnd, ← Cursor.ofTokens_eq_iff]
    exact ⟨congrArg Stream.cursor, congrArg (Stream.mk · none)⟩
  refine ⟨hsupplied, htokens, hstream, fun t ht => ?_, hparse, fun hsame => ?_, fun hcase => ?_⟩
  · rw [endToken_position h t ht, endAfter_position ht, Position.row_after _ 0, rowStarts, List.length_cons,
      Nat.add_assoc]
  · by_contra hno
    obtain ⟨hrow, herror⟩ := not_or.mp hno
    rw [not_not] at herror
    have hlast := congrArg Parse.error (hparse.symm.trans hsame)
    rw [Parse.moveEnd, herror, Option.map_some, if_pos rfl] at hlast
    have hplace := congrArg ParseError.position (Option.some.inj hlast)
    refine hrow (hends.mp ?_)
    rw [endAfter_eq]
    exact congrArg (Token.mk .eof []) hplace
  · rw [hparse]
    exact Parse.moveEnd_eq_self _ (hcase.imp_left hends.mpr)

-- Blanks, strings, addresses and the blank behind an escape can go on in another row.
example : ["a \r\n", "'b\\\nc'", "url(\nd)", "\\e\r\n", "e \x7d"].map (fun css =>
    ((endToken css.toList).position, (Cursor.endAfter (properTokens css.toList)).position)) =
      [(⟨2, 1⟩, ⟨1, 5⟩), (⟨2, 3⟩, ⟨1, 7⟩), (⟨2, 3⟩, ⟨1, 8⟩), (⟨2, 1⟩, ⟨1, 5⟩), (⟨1, 4⟩, ⟨1, 4⟩)] := by cbv

/-- A rule that lacks its end, behind a string that goes on in the next row. -/
def continuedString : Text := "a\x7bb:'c\\\nd'".toList

theorem continuedString_rewrapped : (tokens continuedString).flatMap Token.text = continuedString ∧
    (parse continuedString).error = some ⟨[], ⟨2, 3⟩⟩ ∧ Rewrapped continuedString := by
  have h : (tokens continuedString).flatMap Token.text = continuedString := by cbv
  exact ⟨h, by cbv, tokens_rewrapped h⟩

/-- A word and the end of its row. -/
def trailingBreak : Text := "a\n".toList

/-- The end token that is supplied stands in the row of the word, and so does the error there. -/
theorem trailingBreak_moved : (tokens trailingBreak).flatMap Token.text = trailingBreak ∧
    Cursor.withEnd (properTokens trailingBreak) ≠ tokens trailingBreak ∧
    (parse trailingBreak).error = some ⟨[], ⟨2, 1⟩⟩ ∧
    (parseFrom (.ofTokens (properTokens trailingBreak))).error = some ⟨[], ⟨1, 3⟩⟩ := by
  have htokens : tokens trailingBreak = [⟨.ident, ['a'], ⟨1, 1⟩⟩, ⟨.space, ['\n'], ⟨1, 2⟩⟩,
      ⟨.eof, [], ⟨2, 1⟩⟩] := by cbv
  refine ⟨by cbv, ?_, by cbv, by cbv⟩
  rw [properTokens, htokens]
  decide

end Stylesheet
