import Stylesheet.Proofs.Appending

/-! Rows that end with CR LF instead of LF: the parts of a lexeme reach over the same characters, and
over the carriage returns put between them. -/
namespace Stylesheet
open Lexical

/-- Every line feed gets a carriage return before it. -/
def crlf (s : Text) : Text := s.flatMap fun c => if c = '\n' then ['\r', '\n'] else [c]

/-- How far the first `n` characters of `s` reach once the carriage returns stand among them. -/
def stretch (s : Text) (n : Nat) : Nat := (crlf (s.take n)).length

variable {s t : Text} {c d : Char} {n m : Nat}

theorem crlf_nil : crlf [] = [] := rfl

theorem crlf_newline (s : Text) : crlf ('\n' :: s) = '\r' :: '\n' :: crlf s := rfl

theorem crlf_cons (hc : c ≠ '\n') (s : Text) : crlf (c :: s) = c :: crlf s := by
  simp [crlf, hc]

theorem crlf_append (s t : Text) : crlf (s ++ t) = crlf s ++ crlf t := List.flatMap_append

theorem crlf_eq_self (h : '\n' ∉ s) : crlf s = s := by
  induction s with
  | nil => rfl
  | cons c s ih =>
    have h := List.ne_and_not_mem_of_not_mem_cons h
    rw [crlf_cons (Ne.symm h.1), ih h.2]

theorem crlf_take_append_drop (s : Text) (n : Nat) : crlf (s.take n) ++ crlf (s.drop n) = crlf s := by
  rw [← crlf_append, List.take_append_drop]

theorem take_stretch (s : Text) (n : Nat) : (crlf s).take (stretch s n) = crlf (s.take n) := by
  rw [← crlf_take_append_drop s n, stretch, List.take_left]

theorem drop_stretch (s : Text) (n : Nat) : (crlf s).drop (stretch s n) = crlf (s.drop n) := by
  rw [← crlf_take_append_drop s n, stretch, List.drop_left]

theorem stretch_zero (s : Text) : stretch s 0 = 0 := rfl

theorem stretch_add (s : Text) (n m : Nat) :
    stretch s (n + m) = stretch s n + stretch (s.drop n) m := by
  rw [stretch, List.take_add, crlf_append, List.length_append, stretch, stretch]

theorem stretch_cons (hc : c ≠ '\n') (s : Text) (n : Nat) :
    stretch (c :: s) (1 + n) = 1 + stretch s n := by
  rw [stretch, Nat.add_comm, List.take_succ_cons, crlf_cons hc, List.length_cons, Nat.add_comm, stretch]

theorem stretch_newline (s : Text) (n : Nat) : stretch ('\n' :: s) (1 + n) = 2 + stretch s n := by
  rw [stretch, Nat.add_comm, List.take_succ_cons, crlf_newline, List.length_cons, List.length_cons,
    stretch]
  omega

theorem stretch_eq_self (h : '\n' ∉ s.take n) (hn : n ≤ s.length) : stretch s n = n := by
  rw [stretch, crlf_eq_self h, List.length_take, min_eq_left hn]

theorem stretch_pos (hs : s ≠ []) (hn : 0 < n) : 0 < stretch s n := by
  obtain ⟨c, s, rfl⟩ := List.exists_cons_of_ne_nil hs
  obtain ⟨n, rfl⟩ : ∃ m, n = 1 + m := ⟨n - 1, by omega⟩
  by_cases hc : c = '\n'
  · subst hc
    rw [stretch_newline]
    omega
  · rw [stretch_cons hc]
    omega

theorem stretch_eq_zero_iff (h : s = [] → n = 0) : stretch s n = 0 ↔ n = 0 := by
  refine ⟨fun hz => ?_, fun hn => by rw [hn, stretch_zero]⟩
  by_contra hn
  have := stretch_pos (mt h hn) (Nat.pos_of_ne_zero hn)
  omega

/-- The first character, where it ends no row. -/
theorem head?_crlf (hr : d ≠ '\r') (hn : d ≠ '\n') : (crlf s).head? = some d ↔ s.head? = some d := by
  cases s with
  | nil => rfl
  | cons c s =>
    by_cases hc : c = '\n'
    · subst hc
      simp [crlf_newline, hr.symm, hn.symm]
    · simp [crlf_cons hc]

/-- A class that holds both of CR and LF or none of them. -/
theorem takeWhile_crlf {p : Char → Bool} (hp : p '\r' = p '\n') (s : Text) :
    (crlf s).takeWhile p = crlf (s.takeWhile p) := by
  induction s with
  | nil => rfl
  | cons c s ih =>
    by_cases hc : c = '\n'
    · subst hc
      cases hn : p '\n' with
      | false => simp [crlf_newline, hp, hn, crlf_nil]
      | true => simp [crlf_newline, hp, hn, ih]
    · cases hpc : p c with
      | false => simp [crlf_cons hc, hpc, crlf_nil]
      | true => simp [crlf_cons hc, hpc, ih]

theorem length_takeWhile_crlf {p : Char → Bool} (hp : p '\r' = p '\n') (s : Text) :
    ((crlf s).takeWhile p).length = stretch s (s.takeWhile p).length := by
  rw [takeWhile_crlf hp, stretch, take_length_takeWhile]

/-- A text without line ends stands at the front of both. -/
theorem map_take_crlf {g : Char → Char} (hr : g '\r' ∉ t) (hn : g '\n' ∉ t) :
    ((crlf s).take t.length).map g = t ↔ (s.take t.length).map g = t := by
  induction t generalizing s with
  | nil => simp
  | cons d t ih =>
    have hr := List.ne_and_not_mem_of_not_mem_cons hr
    have hn := List.ne_and_not_mem_of_not_mem_cons hn
    cases s with
    | nil => rfl
    | cons c s =>
      by_cases hc : c = '\n'
      · subst hc
        simp [crlf_newline, hr.1, hn.1]
      · rw [crlf_cons hc, List.length_cons, List.take_succ_cons, List.take_succ_cons, List.map_cons,
          List.map_cons, List.cons.injEq, List.cons.injEq, ih hr.2 hn.2]

/-! Escapes and names. -/

theorem blanksLength_crlf (s : Text) : blanksLength (crlf s) = stretch s (blanksLength s) :=
  length_takeWhile_crlf rfl s

theorem oneBlankLength_crlf (h : '\r' ∉ s) :
    oneBlankLength (crlf s) = stretch s (oneBlankLength s) := by
  cases s with
  | nil => rfl
  | cons c s =>
    have hreturn : c ≠ '\r' := Ne.symm (List.ne_and_not_mem_of_not_mem_cons h).1
    by_cases hc : c = '\n'
    · subst hc
      rfl
    · have hone : ∀ t, oneBlankLength (c :: t) = if isBlank c then 1 else 0 := fun t =>
        oneBlankLength.eq_2 c t fun _ he => absurd he hreturn
      rw [crlf_cons hc, hone, hone]
      split
      · rw [stretch_cons (n := 0) hc, stretch_zero]
      · rfl

theorem hexLength_crlf (s : Text) : hexLength (crlf s) = stretch s (hexLength s) := by
  have hhex : ∀ t, hexLength t = min 6 (t.takeWhile isHexDigit).length := fun t => by
    rw [hexLength, ← List.take_takeWhile, List.length_take]
  have hdigits : '\n' ∉ s.takeWhile isHexDigit := fun h =>
    absurd (List.mem_takeWhile_imp h) (by decide)
  have htake : '\n' ∉ s.take (hexLength s) := fun h =>
    absurd (isHexDigit_of_mem_take _ h) (by decide)
  rw [stretch_eq_self htake ((hexLength_le s).trans (min_le_right _ _)), hhex, takeWhile_crlf rfl,
    crlf_eq_self hdigits, hhex]

theorem escapeLength_crlf (h : '\r' ∉ s) : escapeLength (crlf s) = stretch s (escapeLength s) := by
  obtain he | ⟨x, rfl, hpos⟩ | ⟨c, x, rfl, hc, hn⟩ := escapeLength_cases s
  · rw [he, stretch_zero]
    match s with
    | [] => rfl
    | c :: s =>
      by_cases hc : c = '\\'
      · subst hc
        rw [crlf_cons (by decide)]
        cases s with
        | nil => rfl
        | cons d s =>
          have hd : isNewline d := escapeLength_eq_zero_iff.mp he
          by_cases hline : d = '\n'
          · subst hline
            rfl
          · rw [crlf_cons hline]
            exact escapeLength_eq_zero_iff.mpr hd
      · by_cases hline : c = '\n'
        · subst hline
          rfl
        · rw [crlf_cons hline, escapeLength_of_ne hc]
  · have hx := (List.ne_and_not_mem_of_not_mem_cons h).2
    have hhex := hexLength_crlf x
    have hne : x ≠ [] := by
      rintro rfl
      exact absurd hpos (by decide)
    rw [crlf_cons (by decide), escapeLength_hex hpos, stretch_cons (by decide), stretch_add,
      escapeLength_hex (hhex ▸ stretch_pos hne hpos), hhex, drop_stretch,
      oneBlankLength_crlf fun hm => hx (List.mem_of_mem_drop hm)]
  · have hline : c ≠ '\n' := by
      rintro rfl
      exact absurd hn (by decide)
    rw [crlf_cons (by decide), crlf_cons hline, escapeLength_plain hc hn, escapeLength_plain hc hn]
    exact (stretch_eq_self (by simp [hline.symm]) (by simp)).symm

theorem nameLength_crlf (h : '\r' ∉ s) : nameLength (crlf s) = stretch s (nameLength s) := by
  fun_induction nameLength s with
  | case1 => rw [crlf_nil, nameLength, stretch_zero]
  | case2 c s hc ih =>
    have hline : c ≠ '\n' := by
      rintro rfl
      exact absurd hc (by decide)
    rw [crlf_cons hline, nameLength_char hc, stretch_cons hline, ih (List.ne_and_not_mem_of_not_mem_cons h).2]
  | case3 c s hc he =>
    have hescape := escapeLength_crlf h
    rw [he, stretch_zero] at hescape
    rw [stretch_zero]
    by_cases hline : c = '\n'
    · subst hline
      exact nameLength_stop (by decide) hescape
    · rw [crlf_cons hline] at hescape ⊢
      exact nameLength_stop (by simpa using hc) hescape
  | case4 c s hc he ih =>
    have hescape := escapeLength_crlf h
    have hpos : 0 < stretch (c :: s) (escapeLength (c :: s)) :=
      stretch_pos (by simp) (Nat.pos_of_ne_zero he)
    rw [nameLength_escape (by omega), hescape, drop_stretch,
      ih fun hm => h (List.mem_of_mem_drop hm), stretch_add]

theorem startsName_crlf (h : '\r' ∉ s) : startsName (crlf s) = startsName s := by
  have hescape := escapeLength_crlf h
  have hzero : escapeLength (crlf s) = 0 ↔ escapeLength s = 0 := by
    rw [hescape, stretch_eq_zero_iff]
    rintro rfl
    rfl
  cases s with
  | nil => rfl
  | cons c s =>
    by_cases hc : c = '\n'
    · subst hc
      rfl
    · rw [crlf_cons hc] at hzero ⊢
      rw [startsName, startsName, Bool.eq_iff_iff]
      simp [hzero]

theorem identLength_crlf (h : '\r' ∉ s) : identLength (crlf s) = stretch s (identLength s) := by
  have hstart : startsName (if (crlf s).head? = some '-' then (crlf s).tail else crlf s) =
      startsName (if s.head? = some '-' then s.tail else s) := by
    by_cases hs : s.head? = some '-'
    · obtain ⟨r, rfl⟩ := List.head?_eq_some_iff.mp hs
      exact startsName_crlf (List.ne_and_not_mem_of_not_mem_cons h).2
    · have hs' := mt (head?_crlf (s := s) (d := '-') (by decide) (by decide)).mp hs
      rw [if_neg hs, if_neg hs', startsName_crlf h]
  by_cases hname : startsName (if s.head? = some '-' then s.tail else s)
  · rw [identLength, identLength, if_pos (hstart ▸ hname), if_pos hname, nameLength_crlf h]
  · rw [identLength, identLength, if_neg (hstart ▸ hname), if_neg hname, stretch_zero]

/-! Numbers. -/

theorem digitsLength_crlf (s : Text) : digitsLength (crlf s) = stretch s (digitsLength s) :=
  length_takeWhile_crlf rfl s

theorem fractionLength_crlf (s : Text) : fractionLength (crlf s) = stretch s (fractionLength s) := by
  cases s with
  | nil => rfl
  | cons c s =>
    by_cases hc : c = '.'
    · subst hc
      have hdigits := digitsLength_crlf s
      by_cases hz : digitsLength s = 0
      · rw [hz, stretch_zero] at hdigits
        rw [crlf_cons (by decide), fractionLength, fractionLength, if_pos hdigits, if_pos hz, stretch_zero]
      · have hs : s ≠ [] := by
          rintro rfl
          exact hz rfl
        have hpos := stretch_pos hs (Nat.pos_of_ne_zero hz)
        rw [crlf_cons (by decide), fractionLength, fractionLength, if_neg (by omega), if_neg hz,
          stretch_cons (by decide), hdigits]
    · by_cases hline : c = '\n'
      · subst hline
        rfl
      · rw [crlf_cons hline, fractionLength_of_ne hc, fractionLength_of_ne hc, stretch_zero]

theorem numberLength_crlf (s : Text) : numberLength (crlf s) = stretch s (numberLength s) := by
  rw [numberLength, digitsLength_crlf, drop_stretch, fractionLength_crlf, ← stretch_add, numberLength]

/-! Strings and comments. -/

theorem stringEscapeLength_crlf (h : '\r' ∉ s) :
    stringEscapeLength ('\\' :: crlf s) = stretch ('\\' :: s) (stringEscapeLength ('\\' :: s)) := by
  have hescape := escapeLength_crlf (s := '\\' :: s) (by simpa using h)
  rw [crlf_cons (by decide)] at hescape
  cases s with
  | nil => rfl
  | cons c s =>
    have hreturn := (List.ne_and_not_mem_of_not_mem_cons h).1
    cases hn : isNewline c with
    | false =>
      have hne : escapeLength ('\\' :: c :: s) ≠ 0 := mt escapeLength_eq_zero_iff.mp (by simp [hn])
      have hpos := stretch_pos (s := '\\' :: c :: s) (by simp) (Nat.pos_of_ne_zero hne)
      rw [stringEscapeLength_eq hne, stringEscapeLength_eq (by omega), hescape]
    | true =>
      have hplain : ∀ t, stringEscapeLength ('\\' :: c :: t) = 2 := fun t => by
        rw [stringEscapeLength.eq_2 c t fun _ he => absurd he.symm hreturn, if_pos hn]
      rw [hplain]
      by_cases hline : c = '\n'
      · subst hline
        rfl
      · rw [crlf_cons hline, hplain]
        exact (stretch_eq_self (by simp [Ne.symm hline]) (by simp)).symm

theorem stringTail_crlf {q : Char} (hq : isQuote q) (h : '\r' ∉ s) :
    stringTail q (crlf s) = (stretch s (stringTail q s).1, (stringTail q s).2) := by
  have hline : q ≠ '\n' := by
    rintro rfl
    exact absurd hq (by decide)
  fun_induction stringTail q s with
  | case1 => rw [crlf_nil, stringTail, stretch_zero]
  | case2 s => rw [crlf_cons hline, stringTail, if_pos rfl, stretch_cons (n := 0) hline, stretch_zero]
  | case3 c s hc hn =>
    rw [stretch_zero]
    by_cases hend : c = '\n'
    · subst hend
      rw [crlf_newline, stringTail, if_neg, if_pos (by decide)]
      rintro rfl
      exact absurd hq (by decide)
    · rw [crlf_cons hend, stringTail, if_neg hc, if_pos hn]
  | case4 s hc hn tail ih =>
    have hs := (List.ne_and_not_mem_of_not_mem_cons h).2
    have hdrop := drop_stretch ('\\' :: s) (stringEscapeLength ('\\' :: s))
    rw [crlf_cons (by decide)] at hdrop
    rw [crlf_cons (by decide), stringTail, if_neg hc, if_neg hn, if_pos rfl,
      stringEscapeLength_crlf hs, hdrop, ih fun hm => h (List.mem_of_mem_drop hm), stretch_add]
  | case5 c s hc hn he tail ih =>
    have hend : c ≠ '\n' := by
      rintro rfl
      exact absurd hn (by decide)
    rw [crlf_cons hend, stringTail, if_neg hc, if_neg hn, if_neg he,
      ih (List.ne_and_not_mem_of_not_mem_cons h).2, stretch_cons hend]

theorem commentTail_of_ne (hc : c ≠ '*') (s : Text) :
    commentTail (c :: s) = (1 + (commentTail s).1, (commentTail s).2) :=
  commentTail.eq_3 c s fun _ he => absurd he hc

theorem commentTail_crlf (s : Text) :
    commentTail (crlf s) = (stretch s (commentTail s).1, (commentTail s).2) := by
  fun_induction commentTail s with
  | case1 => rfl
  | case2 s => rfl
  | case3 c s hc tail ih =>
    by_cases hline : c = '\n'
    · subst hline
      rw [crlf_newline, commentTail_of_ne (by decide), commentTail_of_ne (by decide), ih,
        stretch_newline, ← Nat.add_assoc]
    · have hc' : ∀ t, c = '*' → crlf s = '/' :: t → False := by
        intro t hstar ht
        have hs := (head?_crlf (s := s) (d := '/') (by decide) (by decide)).mp (by rw [ht]; rfl)
        obtain ⟨r, rfl⟩ := List.head?_eq_some_iff.mp hs
        exact hc r hstar rfl
      rw [crlf_cons hline, commentTail.eq_3 _ _ hc', ih, stretch_cons hline]

/-! `!important`. -/

theorem crlf_opened (s : Text) : crlf ('/' :: '*' :: s) = '/' :: '*' :: crlf s := rfl

theorem stretch_opened (s : Text) (n : Nat) : stretch ('/' :: '*' :: s) (2 + n) = 2 + stretch s n := by
  rw [show 2 + n = 1 + (1 + n) by omega, stretch_cons (by decide), stretch_cons (by decide)]
  omega

theorem spacingLength_crlf (s : Text) : spacingLength (crlf s) = stretch s (spacingLength s) := by
  fun_induction spacingLength s with
  | case1 => rw [crlf_nil, spacingLength, stretch_zero]
  | case2 c s hb ih =>
    by_cases hline : c = '\n'
    · subst hline
      rw [crlf_newline, spacingLength, if_pos (by decide), spacingLength, if_pos (by decide), ih,
        stretch_newline, ← Nat.add_assoc]
    · rw [crlf_cons hline, spacingLength, if_pos hb, ih, stretch_cons hline]
  | case3 c s hb hc tail ht ih =>
    obtain ⟨rfl, hstar⟩ := hc
    obtain ⟨r, rfl⟩ := List.head?_eq_some_iff.mp hstar
    have hopen := stretch_opened r tail.1
    have hdrop := drop_stretch ('/' :: '*' :: r) (2 + tail.1)
    have hend : (commentTail (crlf r)).2 := by rwa [commentTail_crlf]
    have hcomment : (commentTail (crlf r)).1 = stretch r tail.1 := by rw [commentTail_crlf]; rfl
    rw [crlf_opened] at hdrop ⊢
    rw [spacingLength_comment hend, hcomment, ← hopen, hdrop, ih, ← stretch_add]
  | case4 c s hb hc tail ht =>
    obtain ⟨rfl, hstar⟩ := hc
    obtain ⟨r, rfl⟩ := List.head?_eq_some_iff.mp hstar
    have hend : ¬ (commentTail (crlf r)).2 := by rwa [commentTail_crlf]
    rw [crlf_opened, spacingLength_open hend, stretch_zero]
  | case5 c s hb hc =>
    have hline : c ≠ '\n' := by
      rintro rfl
      exact absurd hb (by decide)
    have hc' : ¬ (c = '/' ∧ (crlf s).head? = some '*') := by
      rwa [head?_crlf (by decide) (by decide)]
    rw [crlf_cons hline, spacingLength, if_neg hb, if_neg hc', stretch_zero]

theorem head?_any_crlf {p : Char → Bool} (hp : p '\r' = p '\n') (s : Text) :
    (crlf s).head?.any p = s.head?.any p := by
  cases s with
  | nil => rfl
  | cons c s =>
    by_cases hc : c = '\n'
    · subst hc
      exact hp
    · rw [crlf_cons hc]
      rfl

theorem importantTail?_crlf (s : Text) :
    importantTail? (crlf s) = (importantTail? s).map (stretch s) := by
  have hspacing := spacingLength_crlf s
  have hword : (crlf s).drop (spacingLength (crlf s)) = crlf (s.drop (spacingLength s)) := by
    rw [hspacing, drop_stretch]
  unfold importantTail?
  dsimp only
  rw [hword]
  generalize hw : s.drop (spacingLength s) = w
  have hsame : foldCase ((crlf w).take 9) = "important".toList ↔
      foldCase (w.take 9) = "important".toList :=
    map_take_crlf (t := "important".toList) (by decide) (by decide)
  by_cases himportant : foldCase (w.take 9) = "important".toList
  · have hline : '\n' ∉ w.take 9 := by
      intro hm
      have hfold : '\n' ∈ foldCase (w.take 9) := List.mem_map_of_mem (f := Char.toLower) hm
      rw [himportant] at hfold
      exact absurd hfold (by decide)
    have hlength : 9 ≤ w.length := by
      have := congrArg List.length himportant
      rw [foldCase, List.length_map, List.length_take] at this
      exact min_eq_left_iff.mp this
    have hnine := stretch_eq_self hline hlength
    have hdrop := drop_stretch w 9
    rw [hnine] at hdrop
    rw [hdrop, head?_any_crlf (by decide)]
    by_cases hend : (w.drop 9).head?.any isNameChar
    · rw [if_neg fun h => h.2 hend, if_neg fun h => h.2 hend, Option.map_none]
    · rw [if_pos ⟨hsame.mpr himportant, hend⟩, if_pos ⟨himportant, hend⟩, Option.map_some, stretch_add,
        hw, hnine, hspacing]
  · rw [if_neg fun h => himportant (hsame.mp h.1), if_neg fun h => himportant h.1, Option.map_none]

/-! Addresses. Behind a backslash they pass over one character only: with a carriage return there,
the line feed stays. -/

/-- A backslash stands right before a line feed. -/
def Continued (s : Text) : Prop := ['\\', '\n'] <:+: s

theorem continued_cons (h : Continued s) (c : Char) : Continued (c :: s) :=
  h.trans (List.suffix_cons c s).isInfix

theorem not_continued_pair (h : ¬ Continued ('\\' :: c :: s)) : c ≠ '\n' ∧ ¬ Continued s := by
  refine ⟨?_, fun hs => h (continued_cons (continued_cons hs c) '\\')⟩
  rintro rfl
  exact h (List.prefix_append ['\\', '\n'] s).isInfix

theorem quotedAddressTail?_crlf {q : Char} (hq : isQuote q) {n : Nat}
    (h : quotedAddressTail? q s = some n) (hs : ¬ Continued (s.take n)) :
    quotedAddressTail? q (crlf s) = some (stretch s n) := by
  have hline : q ≠ '\n' := by
    rintro rfl
    exact absurd hq (by decide)
  fun_induction quotedAddressTail? q s generalizing n with
  | case1 => simp at h
  | case2 => simp at h
  | case3 c s ih =>
    obtain ⟨m, hm, rfl⟩ := Option.map_eq_some_iff.mp h
    rw [Nat.add_comm, List.take_succ_cons, List.take_succ_cons] at hs
    obtain ⟨hc, hs⟩ := not_continued_pair hs
    rw [crlf_cons (by decide), crlf_cons hc, quotedAddressTail?, ih hm hs, Option.map_some,
      show 2 + m = 1 + (1 + m) by omega, stretch_cons (by decide), stretch_cons hc]
    exact congrArg some (by omega)
  | case4 s h₁ h₂ =>
    obtain rfl := Option.some.inj h
    rw [crlf_cons hline, quotedAddressTail?_char (ne_backslash_of_cases h₁ h₂), if_pos rfl,
      stretch_cons (n := 0) hline, stretch_zero]
  | case5 => simp at h
  | case6 c s h₁ h₂ hc hn ih =>
    obtain ⟨m, hm, rfl⟩ := Option.map_eq_some_iff.mp h
    have hend : c ≠ '\n' := by
      rintro rfl
      exact absurd hn (by decide)
    rw [Nat.add_comm, List.take_succ_cons] at hs
    rw [crlf_cons hend, quotedAddressTail?_char (ne_backslash_of_cases h₁ h₂), if_neg hc, if_neg hn,
      ih hm fun ht => hs (continued_cons ht c), Option.map_some, stretch_cons hend]

theorem quotedAddressTail?_newline {q : Char} (hq : isQuote q) (hc : isNewline c) (s : Text) :
    quotedAddressTail? q (c :: s) = none := by
  have hne : c ≠ q := by
    rintro rfl
    have := isBlank_of_isNewline hc
    simp [not_isBlank_of_isQuote hq] at this
  rw [quotedAddressTail?_char (ne_backslash_of_isBlank (isBlank_of_isNewline hc)), if_neg hne, if_pos hc]

/-- What is a quoted address with carriage returns in it is one without them. -/
theorem quotedAddressTail?_of_crlf {q : Char} (hq : isQuote q) {n : Nat}
    (h : quotedAddressTail? q (crlf s) = some n) :
    ∃ m, quotedAddressTail? q s = some m ∧ n = stretch s m := by
  have hline : q ≠ '\n' := by
    rintro rfl
    exact absurd hq (by decide)
  fun_induction quotedAddressTail? q s generalizing n with
  | case1 => simp [crlf_nil, quotedAddressTail?] at h
  | case2 => simp [crlf_cons, crlf_nil, quotedAddressTail?] at h
  | case3 c s ih =>
    rw [crlf_cons (by decide)] at h
    by_cases hc : c = '\n'
    · subst hc
      rw [crlf_newline, quotedAddressTail?, quotedAddressTail?_newline hq (by decide)] at h
      simp at h
    · rw [crlf_cons hc, quotedAddressTail?] at h
      obtain ⟨k, hk, rfl⟩ := Option.map_eq_some_iff.mp h
      obtain ⟨m, hm, rfl⟩ := ih hk
      refine ⟨2 + m, by rw [hm, Option.map_some], ?_⟩
      rw [show 2 + m = 1 + (1 + m) by omega, stretch_cons (by decide), stretch_cons hc]
      omega
  | case4 s h₁ h₂ =>
    rw [crlf_cons hline, quotedAddressTail?_char (ne_backslash_of_cases h₁ h₂), if_pos rfl] at h
    obtain rfl := Option.some.inj h
    exact ⟨1, rfl, by rw [stretch_cons (n := 0) hline, stretch_zero]⟩
  | case5 c s h₁ h₂ hc hn =>
    by_cases hend : c = '\n'
    · subst hend
      rw [crlf_newline, quotedAddressTail?_newline hq (by decide)] at h
      simp at h
    · rw [crlf_cons hend, quotedAddressTail?_newline hq hn] at h
      simp at h
  | case6 c s h₁ h₂ hc hn ih =>
    have hend : c ≠ '\n' := by
      rintro rfl
      exact absurd hn (by decide)
    rw [crlf_cons hend, quotedAddressTail?_char (ne_backslash_of_cases h₁ h₂), if_neg hc, if_neg hn] at h
    obtain ⟨k, hk, rfl⟩ := Option.map_eq_some_iff.mp h
    obtain ⟨m, hm, rfl⟩ := ih hk
    exact ⟨1 + m, by rw [hm, Option.map_some], by rw [stretch_cons hend]⟩

/-- The end of the text, or a character that no address without quotes goes on with. -/
theorem bareAddressLength_stop (hc : isBlank c ∨ c = ')') (s : Text) :
    bareAddressLength (c :: s) = 0 := by
  have hne : c ≠ '\\' := by
    rintro rfl
    exact absurd hc (by decide)
  rw [bareAddressLength_char hne, if_pos (by rcases hc with hc | hc <;> simp [hc])]

theorem bareAddressLength_crlf (h : ¬ Continued (s.take (bareAddressLength s))) :
    bareAddressLength (crlf s) = stretch s (bareAddressLength s) := by
  fun_induction bareAddressLength s with
  | case1 => rfl
  | case2 => rfl
  | case3 c s ih =>
    rw [Nat.add_comm, List.take_succ_cons, List.take_succ_cons] at h
    obtain ⟨hc, hs⟩ := not_continued_pair h
    rw [crlf_cons (by decide), crlf_cons hc, bareAddressLength, ih hs,
      show 2 + bareAddressLength s = 1 + (1 + bareAddressLength s) by omega, stretch_cons (by decide),
      stretch_cons hc]
    omega
  | case4 c s h₁ h₂ hc =>
    rw [stretch_zero]
    by_cases hend : c = '\n'
    · subst hend
      exact bareAddressLength_stop (by decide) _
    · rw [crlf_cons hend, bareAddressLength_char (ne_backslash_of_cases h₁ h₂), if_pos hc]
  | case5 c s h₁ h₂ hc ih =>
    have hend : c ≠ '\n' := by
      rintro rfl
      exact absurd hc (by decide)
    rw [Nat.add_comm, List.take_succ_cons] at h
    rw [crlf_cons hend, bareAddressLength_char (ne_backslash_of_cases h₁ h₂), if_neg hc,
      ih fun ht => h (continued_cons ht c), stretch_cons hend]

/-- A closing parenthesis comes next, with blanks before it or without. -/
def Closes (s : Text) : Prop := (s.drop (blanksLength s)).head? = some ')'

theorem closes_crlf : Closes (crlf s) ↔ Closes s := by
  rw [Closes, blanksLength_crlf, drop_stretch, head?_crlf (by decide) (by decide), Closes]

theorem closes_blank (hc : isBlank c) : Closes (c :: s) ↔ Closes s := by
  simp [Closes, blanksLength, hc]

theorem Closes.head (h : Closes (c :: s)) : isBlank c ∨ c = ')' := by
  cases hc : isBlank c with
  | true => exact .inl rfl
  | false => exact .inr (by simpa [Closes, blanksLength, hc] using h)

theorem Closes.bare (h : Closes s) : Closes (s.drop (bareAddressLength s)) := by
  cases s with
  | nil => exact h
  | cons c s => rwa [bareAddressLength_stop h.head, List.drop_zero]

/-- An address without quotes that is closed with carriage returns in it is closed without them. It
may be longer then: behind a backslash the line feed is part of it. -/
theorem closes_bare_of_crlf (h : Closes ((crlf s).drop (bareAddressLength (crlf s)))) :
    Closes (s.drop (bareAddressLength s)) := by
  fun_induction bareAddressLength s with
  | case1 => exact h
  | case2 => exact h
  | case3 c s ih =>
    have htwo : 2 + bareAddressLength s = bareAddressLength s + 1 + 1 := by omega
    rw [htwo, List.drop_succ_cons, List.drop_succ_cons]
    rw [crlf_cons (by decide)] at h
    by_cases hc : c = '\n'
    · subst hc
      rw [crlf_newline, bareAddressLength, bareAddressLength_stop (by decide)] at h
      have h : Closes ('\n' :: crlf s) := h
      exact (closes_crlf.mp ((closes_blank (by decide)).mp h)).bare
    · rw [crlf_cons hc, bareAddressLength, show 2 + bareAddressLength (crlf s) =
        bareAddressLength (crlf s) + 1 + 1 by omega, List.drop_succ_cons, List.drop_succ_cons] at h
      exact ih h
  | case4 c s h₁ h₂ hc =>
    rw [List.drop_zero]
    refine closes_crlf.mp ?_
    by_cases hend : c = '\n'
    · subst hend
      rwa [crlf_newline, bareAddressLength_stop (by decide), List.drop_zero] at h
    · rw [crlf_cons hend, bareAddressLength_char (ne_backslash_of_cases h₁ h₂), if_pos hc] at h
      rwa [crlf_cons hend]
  | case5 c s h₁ h₂ hc ih =>
    have hend : c ≠ '\n' := by
      rintro rfl
      exact absurd hc (by decide)
    rw [crlf_cons hend, bareAddressLength_char (ne_backslash_of_cases h₁ h₂), if_neg hc, Nat.add_comm,
      List.drop_succ_cons] at h
    rw [Nat.add_comm, List.drop_succ_cons]
    exact ih h

theorem uriTail?_eq_some_iff : uriTail? s = some n ↔
    ∃ m, addressLength? (s.drop (blanksLength s)) = some m ∧
      Closes ((s.drop (blanksLength s)).drop m) ∧
      blanksLength s + m + blanksLength ((s.drop (blanksLength s)).drop m) + 1 = n := by
  simp only [uriTail?_eq_some, Closes, List.drop_drop]

theorem addressLength?_crlf (h : addressLength? s = some n) (hs : ¬ Continued (s.take n)) :
    addressLength? (crlf s) = some (stretch s n) := by
  cases s with
  | nil =>
    obtain rfl := Option.some.inj h
    rfl
  | cons c s =>
    by_cases hq : isQuote c
    · have hc : c ≠ '\n' := by
        rintro rfl
        exact absurd hq (by decide)
      rw [addressLength?, if_pos hq] at h
      obtain ⟨m, hm, rfl⟩ := Option.map_eq_some_iff.mp h
      rw [Nat.add_comm, List.take_succ_cons] at hs
      rw [crlf_cons hc, addressLength?, if_pos hq,
        quotedAddressTail?_crlf hq hm fun ht => hs (continued_cons ht c), Option.map_some, stretch_cons hc]
    · rw [addressLength?, if_neg hq] at h
      obtain rfl := Option.some.inj h
      rw [← bareAddressLength_crlf hs]
      by_cases hc : c = '\n'
      · subst hc
        rfl
      · rw [crlf_cons hc, addressLength?, if_neg hq]

theorem address_of_crlf (h : addressLength? (crlf s) = some n) (hn : Closes ((crlf s).drop n)) :
    ∃ m, addressLength? s = some m ∧ Closes (s.drop m) := by
  cases s with
  | nil => exact ⟨n, h, hn⟩
  | cons c s =>
    by_cases hq : isQuote c
    · have hc : c ≠ '\n' := by
        rintro rfl
        exact absurd hq (by decide)
      rw [crlf_cons hc, addressLength?, if_pos hq] at h
      obtain ⟨k, hk, rfl⟩ := Option.map_eq_some_iff.mp h
      obtain ⟨m, hm, rfl⟩ := quotedAddressTail?_of_crlf hq hk
      refine ⟨1 + m, by rw [addressLength?, if_pos hq, hm, Option.map_some], ?_⟩
      rw [← stretch_cons hc, drop_stretch] at hn
      exact closes_crlf.mp hn
    · have hbare : n = bareAddressLength (crlf (c :: s)) := by
        by_cases hc : c = '\n'
        · subst hc
          exact (Option.some.inj h).symm
        · rw [crlf_cons hc, addressLength?, if_neg hq] at h
          rw [crlf_cons hc, Option.some.inj h]
      rw [hbare] at hn
      exact ⟨_, by rw [addressLength?, if_neg hq], closes_bare_of_crlf hn⟩

theorem uriTail?_crlf (h : uriTail? s = some n) (hs : ¬ Continued (s.take n)) :
    uriTail? (crlf s) = some (stretch s n) := by
  obtain ⟨m, hm, hclose, rfl⟩ := uriTail?_eq_some_iff.mp h
  obtain ⟨r, hr⟩ := List.head?_eq_some_iff.mp hclose
  have haddress : ¬ Continued ((s.drop (blanksLength s)).take m) := by
    refine fun ht => hs (ht.trans ?_)
    rw [Nat.add_assoc, List.take_add, List.take_add]
    exact (List.suffix_append _ _).isInfix.trans (List.prefix_append _ _).isInfix
  have hlast : stretch (((s.drop (blanksLength s)).drop m).drop
      (blanksLength ((s.drop (blanksLength s)).drop m))) 1 = 1 := by
    rw [hr, stretch_cons (n := 0) (by decide), stretch_zero]
  refine uriTail?_eq_some_iff.mpr ⟨stretch (s.drop (blanksLength s)) m, ?_, ?_, ?_⟩
  · rw [blanksLength_crlf, drop_stretch]
    exact addressLength?_crlf hm haddress
  · rw [blanksLength_crlf, drop_stretch, drop_stretch]
    exact closes_crlf.mpr hclose
  · rw [blanksLength_crlf, drop_stretch, drop_stretch, blanksLength_crlf, stretch_add, stretch_add,
      stretch_add, ← List.drop_drop, ← List.drop_drop, ← List.drop_drop, hlast]

theorem uriTail?_of_crlf (h : uriTail? s = none) : uriTail? (crlf s) = none := by
  rw [Option.eq_none_iff_forall_ne_some]
  intro n hn
  obtain ⟨m, hm, hclose, -⟩ := uriTail?_eq_some_iff.mp hn
  rw [blanksLength_crlf, drop_stretch] at hm hclose
  obtain ⟨k, hk, hk'⟩ := address_of_crlf hm hclose
  exact absurd (uriTail?_eq_some_iff.mpr ⟨k, hk, hk', rfl⟩) (by simp [h])

end Stylesheet
