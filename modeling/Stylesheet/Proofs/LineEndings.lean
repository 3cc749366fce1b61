import Stylesheet.Proofs.AppendedTexts
import Stylesheet.Proofs.LineEnds

/-! Rows that end with CR LF instead of LF: the tokens are the same, and so are their places. The
one exception is an address in which a backslash stands before a line feed. -/
namespace Stylesheet
open Extent
variable {s t : Text} {c : Char} {n : Nat} {k : Kind}

/-- What begins like a name of a table has no line end in it. -/
theorem foldCase_crlf_eq_iff (ht : '\n' ∉ t) : foldCase (crlf s) = t ↔ foldCase s = t := by
  by_cases hs : '\n' ∈ s
  · have hmem : ∀ u : Text, '\n' ∈ u → foldCase u ≠ t := fun u hu he =>
      ht (he ▸ List.mem_map_of_mem (f := Char.toLower) hu)
    have hcrlf : '\n' ∈ crlf s := List.mem_flatMap.mpr ⟨'\n', hs, by decide⟩
    exact iff_of_false (hmem _ hcrlf) (hmem _ hs)
  · rw [crlf_eq_self hs]

theorem lookup_crlf {table : List (Text × Kind)} (h : ∀ p ∈ table, '\n' ∉ p.1) (s : Text) :
    table.lookup (foldCase (crlf s)) = table.lookup (foldCase s) := by
  induction table with
  | nil => rfl
  | cons p table ih =>
    rw [List.forall_mem_cons] at h
    have hbeq : (foldCase (crlf s) == p.1) = (foldCase s == p.1) := by
      rw [Bool.eq_iff_iff, beq_iff_eq, beq_iff_eq, foldCase_crlf_eq_iff h.1]
    simp only [List.lookup, hbeq, ih h.2]

/-- The extent with the carriage returns among the characters of `s`, which follow the first one. -/
def Extent.stretched (e : Extent) (s : Text) : Extent := ⟨e.kind, stretch s e.more, e.closed⟩

theorem ofLength_stretch (hc : c ≠ '\n') (hn : 0 < n) :
    ofLength k (stretch (c :: s) n) = (ofLength k n).stretched s := by
  obtain ⟨m, rfl⟩ : ∃ m, n = 1 + m := ⟨n - 1, by omega⟩
  simp only [ofLength, Extent.stretched, stretch_cons hc, Nat.add_sub_cancel_left]

theorem ofLength_behind (k : Kind) (s : Text) (n : Nat) :
    ofLength k (1 + stretch s n) = (ofLength k (1 + n)).stretched s := by
  simp only [ofLength, Extent.stretched, Nat.add_sub_cancel_left]

theorem stretch_of_take (h : s.take n = t) (hn : t.length = n) (ht : '\n' ∉ t) : stretch s n = n := by
  rw [stretch, h, crlf_eq_self ht, hn]

theorem stretch_succ {d : Char} (h : (s.drop n).head? = some d) (hd : d ≠ '\n') :
    stretch s (n + 1) = stretch s n + 1 := by
  obtain ⟨r, hr⟩ := List.head?_eq_some_iff.mp h
  rw [stretch_add, hr, stretch_cons (n := 0) hd, stretch_zero]

theorem stretch_add_of_drop {m : Nat} (h : s.drop n = t) :
    stretch s n + stretch t m = stretch s (n + m) := h ▸ (stretch_add s n m).symm

theorem ofNumber_crlf (hc : c ≠ '\n') (h : '\r' ∉ c :: s) (hn : numberLength (c :: s) ≠ 0) :
    ofNumber (c :: crlf s) = (ofNumber (c :: s)).stretched s := by
  rw [← crlf_cons hc]
  generalize hrest : (c :: s).drop (numberLength (c :: s)) = rest
  have hreturn : '\r' ∉ rest := fun hm => h (List.mem_of_mem_drop (hrest ▸ hm))
  have hzero : stretch rest (identLength rest) = 0 ↔ identLength rest = 0 :=
    stretch_eq_zero_iff fun he => by rw [he]; rfl
  have hhead : (crlf rest).head? = some '%' ↔ rest.head? = some '%' :=
    head?_crlf (by decide) (by decide)
  have hkind : ∀ u, unitKind (crlf u) = unitKind u := fun u => by
    rw [unitKind, lookup_crlf (by decide), unitKind]
  unfold ofNumber
  dsimp only
  rw [numberLength_crlf, drop_stretch, hrest, identLength_crlf hreturn, take_stretch, hkind]
  by_cases hu : identLength rest = 0
  · rw [if_neg (not_not.mpr (hzero.mpr hu)), if_neg (not_not.mpr hu)]
    by_cases hp : rest.head? = some '%'
    · rw [if_pos (hhead.mpr hp), if_pos hp, ← stretch_succ (hrest ▸ hp) (by decide)]
      exact ofLength_stretch hc (by omega)
    · rw [if_neg (mt hhead.mp hp), if_neg hp]
      exact ofLength_stretch hc (Nat.pos_of_ne_zero hn)
  · rw [if_pos (mt hzero.mp hu), if_pos hu]
    rw [stretch_add_of_drop hrest]
    exact ofLength_stretch hc (by omega)

/-- The text of an address has no backslash before a line feed. -/
def Extent.Unbroken (e : Extent) (t : Text) : Prop :=
  e.kind = some .uri → ¬ Continued (t.take (1 + e.more))

theorem ofWord_crlf (hc : c ≠ '\n') (h : '\r' ∉ c :: s) (hn : nameLength (c :: s) ≠ 0)
    (hu : (ofWord (c :: s)).Unbroken (c :: s)) :
    ofWord (c :: crlf s) = (ofWord (c :: s)).stretched s := by
  rw [← crlf_cons hc]
  have hname := nameLength_crlf h
  have hpos := Nat.pos_of_ne_zero hn
  have hdrop := drop_stretch (c :: s) (nameLength (c :: s))
  have hhead : ((crlf (c :: s)).drop (stretch (c :: s) (nameLength (c :: s)))).head? = some '(' ↔
      ((c :: s).drop (nameLength (c :: s))).head? = some '(' := by
    rw [hdrop, head?_crlf (by decide) (by decide)]
  by_cases hopen : ((c :: s).drop (nameLength (c :: s))).head? = some '('
  · have hopen' := hhead.mpr hopen
    have hurl : foldCase ((crlf (c :: s)).take (stretch (c :: s) (nameLength (c :: s)))) = "url".toList ↔
        foldCase ((c :: s).take (nameLength (c :: s))) = "url".toList := by
      rw [take_stretch, foldCase_crlf_eq_iff (by decide)]
    have hsucc := stretch_succ hopen (by decide)
    by_cases haddress : foldCase ((c :: s).take (nameLength (c :: s))) = "url".toList
    · obtain ⟨r, hr⟩ := List.head?_eq_some_iff.mp hopen
      have htail : ((crlf (c :: s)).drop (stretch (c :: s) (nameLength (c :: s)))).tail = crlf r := by
        rw [hdrop, hr, crlf_cons (by decide), List.tail_cons]
      have hword := ofWord_url rfl hopen haddress
      rw [hr, List.tail_cons] at hword
      rw [hword] at hu ⊢
      rw [ofWord_url hname hopen' (hurl.mpr haddress), htail, ← hsucc]
      cases hm : uriTail? r with
      | none =>
        rw [uriTail?_of_crlf hm]
        exact ofLength_stretch hc (by omega)
      | some m =>
        have hbehind : (c :: s).drop (nameLength (c :: s) + 1) = r := by
          rw [← List.drop_drop, hr, List.drop_succ_cons, List.drop_zero]
        rw [hm] at hu
        have hr' : ¬ Continued (r.take m) := by
          refine fun ht => hu rfl (ht.trans ?_)
          rw [more_ofLength (by omega), List.take_add, hbehind]
          exact (List.suffix_append _ _).isInfix
        rw [uriTail?_crlf hm hr']
        dsimp only
        rw [stretch_add_of_drop hbehind]
        exact ofLength_stretch hc (by omega)
    · rw [ofWord_function rfl hopen haddress, ofWord_function hname hopen' (mt hurl.mp haddress), ← hsucc]
      exact ofLength_stretch hc (by omega)
  · rw [ofWord_ident rfl hopen, ofWord_ident hname (mt hhead.mp hopen)]
    exact ofLength_stretch hc hpos

theorem ofString_crlf {q : Char} (hq : isQuote q) (h : '\r' ∉ s) :
    ofString q (crlf s) = (ofString q s).stretched s := by
  rw [ofString, stringTail_crlf hq h]
  rfl

theorem ofAt_crlf (h : '\r' ∉ s) : ofAt (crlf s) = (ofAt s).stretched s := by
  have hzero : stretch s (identLength s) = 0 ↔ identLength s = 0 :=
    stretch_eq_zero_iff fun he => by rw [he]; rfl
  have hkind : ∀ u, atKind (crlf u) = atKind u := fun u => by
    rw [atKind, lookup_crlf (by decide), atKind]
  unfold ofAt
  dsimp only
  rw [identLength_crlf h, take_stretch, hkind]
  by_cases hz : identLength s = 0
  · rw [if_pos (hzero.mpr hz), if_pos hz]
    rfl
  · rw [if_neg (mt hzero.mp hz), if_neg hz]
    exact ofLength_behind _ s _

theorem take_crlf_iff (hr : '\r' ∉ t) (hn : '\n' ∉ t) :
    (crlf s).take t.length = t ↔ s.take t.length = t := by
  simpa using map_take_crlf (s := s) (g := id) hr hn

theorem comparison_crlf (k : Kind) (s : Text) :
    (if (crlf s).head? = some '=' then ofLength k 2 else ofLength .delim 1) =
      (if s.head? = some '=' then ofLength k 2 else ofLength .delim 1).stretched s := by
  by_cases heq : s.head? = some '='
  · rw [if_pos heq, if_pos ((head?_crlf (by decide) (by decide)).mpr heq)]
    obtain ⟨r, rfl⟩ := List.head?_eq_some_iff.mp heq
    rfl
  · rw [if_neg heq, if_neg (mt (head?_crlf (by decide) (by decide)).mp heq)]
    rfl

theorem measure_slash_crlf (s : Text) :
    Extent.measure '/' (crlf s) = (Extent.measure '/' s).stretched s := by
  rw [measure_slash, measure_slash]
  by_cases hstar : s.head? = some '*'
  · obtain ⟨r, rfl⟩ := List.head?_eq_some_iff.mp hstar
    have hstar' : (crlf ('*' :: r)).head? = some '*' := rfl
    rw [if_pos hstar, if_pos hstar', crlf_cons (by decide), List.tail_cons, List.tail_cons,
      commentTail_crlf, Extent.stretched, stretch_cons (by decide)]
  · rw [if_neg hstar, if_neg (mt (head?_crlf (by decide) (by decide)).mp hstar)]
    rfl

theorem measure_hash_crlf (h : '\r' ∉ s) :
    Extent.measure '#' (crlf s) = (Extent.measure '#' s).stretched s := by
  have hzero : stretch s (nameLength s) = 0 ↔ nameLength s = 0 :=
    stretch_eq_zero_iff fun he => by rw [he, nameLength]
  rw [measure_hash, measure_hash, nameLength_crlf h]
  by_cases hz : nameLength s = 0
  · rw [if_pos (hzero.mpr hz), if_pos hz]
    rfl
  · rw [if_neg (mt hzero.mp hz), if_neg hz]
    exact ofLength_behind _ s _

theorem measure_hyphen_crlf (h : '\r' ∉ '-' :: s) (hu : (Extent.measure '-' s).Unbroken ('-' :: s)) :
    Extent.measure '-' (crlf s) = (Extent.measure '-' s).stretched s := by
  have htake : (crlf s).take 2 = "->".toList ↔ s.take 2 = "->".toList :=
    take_crlf_iff (t := "->".toList) (by decide) (by decide)
  rw [measure_hyphen] at hu
  rw [measure_hyphen, measure_hyphen]
  by_cases hcdc : s.take 2 = "->".toList
  · rw [if_pos hcdc, if_pos (htake.mpr hcdc), ofLength, Extent.stretched,
      stretch_of_take hcdc rfl (by decide)]
  rw [if_neg hcdc] at hu ⊢
  rw [if_neg (mt htake.mp hcdc), startsName_crlf (List.ne_and_not_mem_of_not_mem_cons h).2]
  by_cases hname : startsName s
  · rw [if_pos hname] at hu ⊢
    rw [if_pos hname]
    exact ofWord_crlf (by decide) h (by rw [nameLength_char (by decide)]; omega) hu
  · rw [if_neg hname, if_neg hname]
    rfl

theorem measure_point_crlf (h : '\r' ∉ '.' :: s) :
    Extent.measure '.' (crlf s) = (Extent.measure '.' s).stretched s := by
  have hfraction := fractionLength_crlf ('.' :: s)
  rw [crlf_cons (by decide)] at hfraction
  have hzero : stretch ('.' :: s) (fractionLength ('.' :: s)) = 0 ↔ fractionLength ('.' :: s) = 0 :=
    stretch_eq_zero_iff fun he => absurd he (by simp)
  rw [measure_point, measure_point, hfraction]
  by_cases hz : fractionLength ('.' :: s) = 0
  · rw [if_pos (hzero.mpr hz), if_pos hz]
    rfl
  · rw [if_neg (mt hzero.mp hz), if_neg hz, ofNumber_crlf (by decide) h]
    rwa [numberLength_point]

theorem measure_less_crlf (s : Text) :
    Extent.measure '<' (crlf s) = (Extent.measure '<' s).stretched s := by
  have hless : ∀ s, Extent.measure '<' s =
    if s.take 3 = "!--".toList then ofLength .cdo 4 else ofLength .delim 1 := fun _ => rfl
  have htake : (crlf s).take 3 = "!--".toList ↔ s.take 3 = "!--".toList :=
    take_crlf_iff (t := "!--".toList) (by decide) (by decide)
  rw [hless, hless]
  by_cases hcdo : s.take 3 = "!--".toList
  · rw [if_pos hcdo, if_pos (htake.mpr hcdo), ofLength, Extent.stretched,
      stretch_of_take hcdo rfl (by decide)]
  · rw [if_neg hcdo, if_neg (mt htake.mp hcdo)]
    rfl

/-- The lexeme at the front, where that is no line feed. -/
theorem measure_crlf (hc : c ≠ '\n') (h : '\r' ∉ c :: s)
    (hu : (Extent.measure c s).Unbroken (c :: s)) :
    Extent.measure c (crlf s) = (Extent.measure c s).stretched s := by
  have hs := (List.ne_and_not_mem_of_not_mem_cons h).2
  have hstarts : startsName (c :: crlf s) = startsName (c :: s) := by
    rw [← crlf_cons hc, startsName_crlf h]
  unfold Extent.measure at hu ⊢
  by_cases hblank : isBlank c
  · rw [if_pos hblank, if_pos hblank, blanksLength_crlf]
    exact ofLength_behind _ s _
  rw [if_neg hblank] at hu ⊢
  rw [if_neg hblank]
  by_cases hquote : isQuote c
  · rw [if_pos hquote, if_pos hquote, ofString_crlf hquote hs]
  rw [if_neg hquote] at hu ⊢
  rw [if_neg hquote]
  by_cases hdigit : c.isDigit
  · rw [if_pos hdigit, if_pos hdigit, ofNumber_crlf hc h (numberLength_digit hdigit s)]
  rw [if_neg hdigit] at hu ⊢
  rw [if_neg hdigit]
  by_cases hstart : startsName (c :: s)
  · rw [if_pos hstart] at hu ⊢
    rw [if_pos (hstarts ▸ hstart), ofWord_crlf hc h (nameLength_ne_zero hstart) hu]
  rw [if_neg hstart] at hu ⊢
  rw [if_neg (hstarts ▸ hstart)]
  split
  case h_1 => exact measure_slash_crlf s
  case h_2 => exact measure_hash_crlf hs
  case h_3 => exact measure_hyphen_crlf h hu
  case h_4 => exact measure_point_crlf h
  case h_5 => exact measure_less_crlf s
  case h_6 => exact ofAt_crlf hs
  case h_7 =>
    rw [importantTail?_crlf]
    cases importantTail? s with
    | none => rfl
    | some n => exact ofLength_behind _ s n
  case h_8 => exact comparison_crlf _ s
  case h_9 => exact comparison_crlf _ s
  case h_10 => rfl

/-- A lexeme with its carriage returns. -/
def Lexeme.crlf (l : Lexeme) : Lexeme := ⟨l.kind, Stylesheet.crlf l.text, l.closed⟩

/-- A line feed at the front starts blanks, and so does the carriage return before it. -/
theorem front_newline (s : Text) : front '\r' ('\n' :: crlf s) = (front '\n' s).crlf ∧
    ('\n' :: crlf s).drop (Extent.measure '\r' ('\n' :: crlf s)).more =
      crlf (s.drop (Extent.measure '\n' s).more) := by
  have hblanks : blanksLength ('\n' :: crlf s) = 1 + stretch s (blanksLength s) := by
    rw [← blanksLength_crlf, Nat.add_comm]
    rfl
  rw [front, front, measure_blank (by decide), measure_blank (by decide), hblanks]
  simp only [ofLength, Nat.add_sub_cancel_left, Lexeme.crlf, crlf_newline]
  rw [Nat.add_comm, List.take_succ_cons, List.drop_succ_cons, take_stretch, drop_stretch]
  exact ⟨rfl, rfl⟩

theorem lexemes_crlf (h : '\r' ∉ s) (hu : ∀ l ∈ lexemes s, l.kind = some .uri → ¬ Continued l.text) :
    lexemes (crlf s) = (lexemes s).map Lexeme.crlf := by
  induction s using lexemes.induct with
  | case1 => rw [crlf_nil, lexemes, List.map_nil]
  | case2 c s e ih =>
    rw [lexemes_cons, List.forall_mem_cons] at hu
    have hs := (List.ne_and_not_mem_of_not_mem_cons h).2
    have ih := ih (fun hm => hs (List.mem_of_mem_drop hm)) hu.2
    rw [lexemes_cons c s, List.map_cons, ← ih]
    by_cases hc : c = '\n'
    · subst hc
      obtain ⟨hfront, hdrop⟩ := front_newline s
      rw [crlf_newline, lexemes_cons, hfront, hdrop]
    · have hunbroken : (Extent.measure c s).Unbroken (c :: s) := fun hk => by
        rw [Nat.add_comm, List.take_succ_cons]
        exact hu.1 hk
      rw [crlf_cons hc, lexemes_cons, front, measure_crlf hc h hunbroken, Extent.stretched, take_stretch,
        drop_stretch, front, Lexeme.crlf, crlf_cons hc]

theorem after_crlf (h : '\r' ∉ s) (p : Position) : p.after (crlf s) = p.after s := by
  induction s generalizing p with
  | nil => rfl
  | cons c s ih =>
    obtain ⟨hreturn, hs⟩ := List.ne_and_not_mem_of_not_mem_cons h
    by_cases hc : c = '\n'
    · subst hc
      exact ih hs p.nextRow
    · have hplain : ∀ t, p.after (c :: t) = (if isNewline c then p.nextRow else p.nextColumn).after t :=
        fun t => Position.after.eq_3 p c t fun _ he => absurd he hreturn.symm
      rw [crlf_cons hc, hplain, hplain, ih hs]

theorem placeFrom_crlf {ls : List Lexeme} (h : ∀ l ∈ ls, '\r' ∉ l.text) (p : Position) :
    placeFrom p (ls.map Lexeme.crlf) = (placeFrom p ls).map fun l => ⟨l.lexeme.crlf, l.position⟩ := by
  induction ls generalizing p with
  | nil => rfl
  | cons l ls ih =>
    rw [List.forall_mem_cons] at h
    have hafter : p.after l.crlf.text = p.after l.text := after_crlf h.1 p
    simp only [List.map_cons, placeFrom, hafter, ih h.2]

/-- Where no address breaks off a row behind a backslash, the tokens are the same. -/
theorem tokens_crlf {css : Text} (h : '\r' ∉ css)
    (hu : ∀ t ∈ tokens css, t.kind = .uri → ¬ ['\\', '\n'] <:+: t.text) :
    tokens (crlf css) = (tokens css).map fun t => ⟨t.kind, crlf t.text, t.position⟩ := by
  have hlexemes := lexemes_crlf h fun l hl hk => by
    obtain ⟨t, ht, hkind, htext⟩ := exists_token hl hk
    exact htext ▸ hu t ht hkind
  have hreturn : ∀ l ∈ lexemes css, '\r' ∉ l.text := by
    intro l hl hm
    rw [← flatten_lexemes css] at h
    exact h (List.mem_flatten.mpr ⟨l.text, List.mem_map_of_mem hl, hm⟩)
  have hplaced : placed (crlf css) = (placed css).map fun l => ⟨l.lexeme.crlf, l.position⟩ := by
    rw [placed, hlexemes, placeFrom_crlf hreturn, placed]
  have htoken : ∀ l : Placed, Placed.token? ⟨l.lexeme.crlf, l.position⟩ =
      l.token?.map fun t => ⟨t.kind, crlf t.text, t.position⟩ := by
    rintro ⟨⟨k | k, t, b⟩, p⟩ <;> rfl
  have hend : endToken (crlf css) = endToken css := congrArg (Token.mk .eof []) (after_crlf h .start)
  rw [tokens, hplaced, hend, List.filterMap_map, tokens, List.map_append, List.map_filterMap,
    List.map_singleton]
  simp only [Function.comp_def, htoken]
  rfl

/-- A string that goes on in the next row, and an address. -/
def rowed : Text := "'a\\\nb'\nurl(c)".toList

theorem rowed_crlf : '\r' ∉ rowed ∧
    (∀ t ∈ tokens rowed, t.kind = .uri → ¬ ['\\', '\n'] <:+: t.text) ∧
    tokens (crlf rowed) = (tokens rowed).map fun t => ⟨t.kind, crlf t.text, t.position⟩ := by
  have h : '\r' ∉ rowed := by decide
  have htokens : tokens rowed = [⟨.string, "'a\\\nb'".toList, ⟨1, 1⟩⟩, ⟨.space, ['\n'], ⟨2, 3⟩⟩,
      ⟨.uri, "url(c)".toList, ⟨3, 1⟩⟩, ⟨.eof, [], ⟨3, 7⟩⟩] := by cbv
  have hu : ∀ t ∈ tokens rowed, t.kind = .uri → ¬ ['\\', '\n'] <:+: t.text := by
    rw [htokens]
    decide
  exact ⟨h, hu, tokens_crlf h hu⟩

/-- An address that goes on in the next row. -/
def continuedAddress : Text := "url(\"a\\\nb\")".toList

/-- With the carriage return it is an address no more. -/
theorem continuedAddress_lost : '\r' ∉ continuedAddress ∧
    (tokens continuedAddress).map Token.kind = [.uri, .eof] ∧
    (tokens (crlf continuedAddress)).map Token.kind ≠ [.uri, .eof] := by
  have h : (tokens continuedAddress).map Token.kind = [.uri, .eof] := by cbv
  have hcrlf : (tokens (crlf continuedAddress)).map Token.kind = [.function, .string, .rparen, .eof] := by
    cbv
  exact ⟨by decide, h, by rw [hcrlf]; decide⟩

end Stylesheet
