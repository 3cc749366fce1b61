import Stylesheet.Proofs.PlainTokens

/-! Text put behind a text: where the lexeme at the front ends before the text does, it stays as
it is. -/
namespace Stylesheet
open Extent

/-- What may go on differently when something is put behind it. -/
def unsettled : List Text := [[], "-".toList, "\\".toList, "-\\".toList, ".".toList]

/-- How a text starts does not depend on what is put behind it. -/
def Settled (s : Text) : Prop := s ∉ unsettled

variable {s x : Text}

theorem Settled.ne_nil (h : Settled s) : s ≠ [] := by
  rintro rfl
  exact h (by decide)

theorem head?_append_of_ne_nil (h : s ≠ []) (x : Text) : (s ++ x).head? = s.head? := by
  cases s with
  | nil => exact absurd rfl h
  | cons c s => rfl

/-- A run that ends inside a text. -/
theorem takeWhile_append_of_drop {p : Char → Bool} (h : s.drop (s.takeWhile p).length ≠ []) :
    (s ++ x).takeWhile p = s.takeWhile p := by
  have hne : (s.takeWhile p).length ≠ s.length := fun he => h (by simp [he])
  rw [List.takeWhile_append, if_neg hne]

theorem digitsLength_append (h : s.drop (digitsLength s) ≠ []) :
    digitsLength (s ++ x) = digitsLength s := congrArg List.length (takeWhile_append_of_drop h)

theorem blanksLength_append (h : s.drop (blanksLength s) ≠ []) :
    blanksLength (s ++ x) = blanksLength s := congrArg List.length (takeWhile_append_of_drop h)

/-! Names. -/

theorem hexLength_append_of_drop (h : s.drop (hexLength s) ≠ []) :
    hexLength (s ++ x) = hexLength s := by
  by_cases hs : s.length < 6
  · have htake : s.take 6 = s := List.take_of_length_le (by omega)
    unfold hexLength at h ⊢
    rw [htake] at h ⊢
    have hne : (s.takeWhile isHexDigit).length ≠ s.length := fun he => h (by simp [he])
    rw [List.take_append, htake, List.takeWhile_append, if_neg hne]
  · unfold hexLength
    rw [List.take_append_of_le_length (by omega)]

theorem oneBlankLength_of_not_blank {c : Char} (h : isBlank c = false) (s : Text) :
    oneBlankLength (c :: s) = 0 := by
  unfold oneBlankLength
  split
  next heq =>
    obtain ⟨rfl, -⟩ := List.cons.inj heq
    exact absurd h (by decide)
  next heq =>
    obtain ⟨rfl, -⟩ := List.cons.inj heq
    rw [if_neg (by simp [h])]
  next heq => simp at heq

theorem oneBlankLength_append (h : s.drop (oneBlankLength s) ≠ []) :
    oneBlankLength (s ++ x) = oneBlankLength s := by
  have hblank : ∀ {c : Char} {t : Text}, s = c :: t → isBlank c = false →
      oneBlankLength (s ++ x) = oneBlankLength s := by
    rintro c t rfl hc
    rw [List.cons_append, oneBlankLength_of_not_blank hc, oneBlankLength_of_not_blank hc]
  match s with
  | [] => exact absurd rfl h
  | [c] =>
    refine hblank rfl ?_
    by_contra hc
    have hc : isBlank c = true := by simpa using hc
    exact h (by simp [oneBlankLength, hc])
  | c :: d :: s =>
    by_cases hpair : c = '\r' ∧ d = '\n'
    · obtain ⟨rfl, rfl⟩ := hpair
      rfl
    · simp only [List.cons_append, oneBlankLength]
      simp_all

theorem escapeLength_eq_zero_iff {c : Char} : escapeLength ('\\' :: c :: s) = 0 ↔ isNewline c :=
  ⟨isNewline_of_not_escape, fun hc => escapeLength_newline hc s⟩

theorem escapeLength_append_zero (h : escapeLength s = 0) (hs : s ∉ [[], "\\".toList]) :
    escapeLength (s ++ x) = 0 := by
  match s with
  | [] => exact absurd (by simp) hs
  | [c] =>
    have hc : c ≠ '\\' := by
      rintro rfl
      exact hs (by decide)
    exact escapeLength_of_ne hc x
  | c :: d :: s =>
    by_cases hc : c = '\\'
    · subst hc
      exact escapeLength_eq_zero_iff.mpr (escapeLength_eq_zero_iff.mp h)
    · exact escapeLength_of_ne hc _

theorem escapeLength_append_of_drop (h : escapeLength s ≠ 0)
    (hs : s.drop (escapeLength s) ≠ []) : escapeLength (s ++ x) = escapeLength s := by
  obtain he | ⟨y, rfl, hpos⟩ | ⟨c, y, rfl, hc, hn⟩ := escapeLength_cases s
  · exact absurd he h
  · rw [escapeLength_hex hpos, Nat.add_comm, List.drop_succ_cons, ← List.drop_drop] at hs
    have hdrop : y.drop (hexLength y) ≠ [] := fun he => hs (by rw [he, List.drop_nil])
    have hhex : hexLength (y ++ x) = hexLength y := hexLength_append_of_drop hdrop
    have hle : hexLength y ≤ y.length := (hexLength_le y).trans (min_le_right _ _)
    rw [List.cons_append, escapeLength_hex (hhex ▸ hpos), escapeLength_hex hpos, hhex,
      List.drop_append_of_le_length hle, oneBlankLength_append hs]
  · rw [List.cons_append, List.cons_append, escapeLength_plain hc hn, escapeLength_plain hc hn]

theorem nameLength_append_of_drop (h : s.drop (nameLength s) ∉ [[], "\\".toList]) :
    nameLength (s ++ x) = nameLength s := by
  fun_induction nameLength s with
  | case1 => exact absurd (by simp) h
  | case2 c s hc ih =>
    rw [List.cons_append, nameLength_char hc, ih (by rwa [Nat.add_comm, List.drop_succ_cons] at h)]
  | case3 c s hc he =>
    have hc : isNameChar c = false := by simpa using hc
    exact nameLength_stop hc (escapeLength_append_zero he h)
  | case4 c s hc he ih =>
    rw [← List.drop_drop] at h
    have hdrop : (c :: s).drop (escapeLength (c :: s)) ≠ [] := fun hn => h (by simp [hn])
    have hescape := escapeLength_append_of_drop (x := x) he hdrop
    have hle : escapeLength (c :: s) ≤ (c :: s).length := (take_escapeLength he).2
    rw [nameLength_escape (hescape ▸ he), hescape, List.drop_append_of_le_length hle, ih h]

theorem Settled.notMem (h : Settled s) : s ∉ [[], "\\".toList] := by
  intro hm
  simp only [List.mem_cons, List.not_mem_nil, or_false] at hm
  rcases hm with rfl | rfl <;> exact h (by decide)

theorem nameLength_append_of_settled (h : Settled (s.drop (nameLength s))) :
    nameLength (s ++ x) = nameLength s := nameLength_append_of_drop h.notMem

theorem startsName_of_ne {c : Char} (hc : c ≠ '\\') (s : Text) :
    startsName (c :: s) = isNameStart c := by
  simp [startsName, escapeLength_of_ne hc s]

theorem startsName_backslash (c : Char) (s : Text) :
    startsName ('\\' :: c :: s) = !isNewline c := by
  have hstart : isNameStart '\\' = false := by decide
  cases hc : isNewline c with
  | true => simp [startsName, hstart, escapeLength_eq_zero_iff.mpr hc]
  | false =>
    have hne : escapeLength ('\\' :: c :: s) ≠ 0 := mt escapeLength_eq_zero_iff.mp (by simp [hc])
    simp [startsName, hne]

theorem startsName_append_of_notMem (h : s ∉ [[], "\\".toList]) :
    startsName (s ++ x) = startsName s := by
  match s with
  | [] => exact absurd (by simp) h
  | c :: s =>
    by_cases hc : c = '\\'
    · subst hc
      cases s with
      | nil => exact absurd (by decide) h
      | cons d s => rw [List.cons_append, List.cons_append, startsName_backslash, startsName_backslash]
    · rw [List.cons_append, startsName_of_ne hc, startsName_of_ne hc]

theorem identLength_eq_zero_of_unsettled (h : s ∈ unsettled) : identLength s = 0 := by
  have hstart : ∀ s ∈ unsettled, startsName (if s.head? = some '-' then s.tail else s) = false := by
    decide
  rw [identLength, if_neg (by simp [hstart s h])]

theorem settled_of_identLength (h : identLength s ≠ 0) : Settled s :=
  mt identLength_eq_zero_of_unsettled h

/-- Whether an identifier starts here, settled texts tell. -/
theorem startsIdent_append (h : Settled s) :
    startsName (if (s ++ x).head? = some '-' then (s ++ x).tail else s ++ x) =
      startsName (if s.head? = some '-' then s.tail else s) := by
  cases s with
  | nil => exact absurd rfl h.ne_nil
  | cons c s =>
    by_cases hc : c = '-'
    · subst hc
      have hs : s ∉ [[], "\\".toList] := by
        intro hm
        simp only [List.mem_cons, List.not_mem_nil, or_false] at hm
        rcases hm with rfl | rfl <;> exact h (by decide)
      exact startsName_append_of_notMem hs
    · have := startsName_append_of_notMem (x := x) h.notMem
      simpa [hc] using this

theorem identLength_append_of_drop (h : Settled (s.drop (identLength s))) :
    identLength (s ++ x) = identLength s := by
  have hs : Settled s := by
    by_cases hz : identLength s = 0
    · simpa [hz] using h
    · exact settled_of_identLength hz
  rw [identLength] at h
  rw [identLength, identLength, startsIdent_append hs]
  by_cases hstart : startsName (if s.head? = some '-' then s.tail else s)
  · rw [if_pos hstart] at h ⊢
    rw [if_pos hstart]
    exact nameLength_append_of_settled h
  · rw [if_neg hstart, if_neg hstart]

/-! Numbers. -/

theorem fractionLength_of_ne {c : Char} (hc : c ≠ '.') (s : Text) : fractionLength (c :: s) = 0 :=
  fractionLength.eq_2 _ fun _ h => hc (List.cons.inj h).1

theorem fractionLength_append (h : s.drop (fractionLength s) ≠ []) (hs : s ≠ ".".toList) :
    fractionLength (s ++ x) = fractionLength s := by
  match s with
  | [] => exact absurd rfl h
  | c :: s =>
    by_cases hc : c = '.'
    · subst hc
      have hs : s ≠ [] := by
        rintro rfl
        exact hs rfl
      have hdigits : digitsLength (s ++ x) = digitsLength s := by
        refine digitsLength_append fun hn => ?_
        simp only [fractionLength] at h
        split at h
        next hz => exact hs (by simpa [hz] using hn)
        next hz => exact h (by rwa [Nat.add_comm, List.drop_succ_cons])
      rw [List.cons_append, fractionLength, fractionLength, hdigits]
    · unfold fractionLength
      split
      next heq => exact absurd (List.cons.inj heq).1 hc
      next =>
        split
        next heq => exact absurd (List.cons.inj heq).1 hc
        next => rfl

theorem numberLength_append_of_drop (h : Settled (s.drop (numberLength s))) :
    numberLength (s ++ x) = numberLength s := by
  rw [numberLength, ← List.drop_drop] at h
  have hf : (s.drop (digitsLength s)).drop (fractionLength (s.drop (digitsLength s))) ≠ [] := h.ne_nil
  have hd : s.drop (digitsLength s) ≠ [] := fun hn => hf (by rw [hn, List.drop_nil])
  have hpoint : s.drop (digitsLength s) ≠ ".".toList := by
    intro hp
    rw [hp] at h
    exact h (by decide)
  rw [numberLength, digitsLength_append hd, List.drop_append_of_le_length (digitsLength_le s),
    fractionLength_append hf hpoint, numberLength]

/-! Strings. -/

theorem stringEscapeLength_append_of_drop
    (h : ('\\' :: s).drop (stringEscapeLength ('\\' :: s)) ≠ []) :
    stringEscapeLength ('\\' :: (s ++ x)) = stringEscapeLength ('\\' :: s) := by
  cases s with
  | nil => exact absurd rfl h
  | cons c s =>
    cases hn : isNewline c with
    | false =>
      have hne : ∀ t, escapeLength ('\\' :: c :: t) ≠ 0 := fun t =>
        mt escapeLength_eq_zero_iff.mp (by simp [hn])
      rw [stringEscapeLength_eq (hne s)] at h ⊢
      rw [List.cons_append, stringEscapeLength_eq (hne _)]
      exact escapeLength_append_of_drop (hne s) h
    | true =>
      cases s with
      | nil => exact absurd (by simp [stringEscapeLength, hn]) h
      | cons d s =>
        by_cases hpair : c = '\r' ∧ d = '\n'
        · obtain ⟨rfl, rfl⟩ := hpair
          rfl
        · simp_all [stringEscapeLength]

theorem stringTail_append_of_ended {q : Char} (h : (stringTail q s).2 ≠ .unclosed) :
    stringTail q (s ++ x) = stringTail q s := by
  fun_induction stringTail q s with
  | case1 => exact absurd rfl h
  | case2 s => rw [List.cons_append, stringTail, if_pos rfl]
  | case3 c s hq hn => rw [List.cons_append, stringTail, if_neg hq, if_pos hn]
  | case4 s hq hn tail ih =>
    have hdrop : ('\\' :: s).drop (stringEscapeLength ('\\' :: s)) ≠ [] := by
      intro hnil
      refine h ?_
      show (stringTail q (('\\' :: s).drop (stringEscapeLength ('\\' :: s)))).2 = .unclosed
      rw [hnil, stringTail]
    have hle : stringEscapeLength ('\\' :: s) ≤ ('\\' :: s).length := by
      by_contra hlt
      exact hdrop (List.drop_of_length_le (by omega))
    have hescape := stringEscapeLength_append_of_drop (x := x) hdrop
    rw [List.cons_append, stringTail, if_neg hq, if_neg hn, if_pos rfl, hescape, ← List.cons_append,
      List.drop_append_of_le_length hle, ih h]
  | case5 c s hq hn he tail ih =>
    rw [List.cons_append, stringTail, if_neg hq, if_neg hn, if_neg he, ih h]

theorem commentTail_le (s : Text) : (commentTail s).1 ≤ s.length := by
  fun_induction commentTail s with
  | case1 => exact le_rfl
  | case2 s => simp
  | case3 c s _ tail ih =>
    have : tail.1 ≤ s.length := ih
    rw [List.length_cons]
    omega

theorem commentTail_append (h : (commentTail s).2 = true) :
    commentTail (s ++ x) = commentTail s := by
  fun_induction commentTail s with
  | case1 => simp at h
  | case2 => rfl
  | case3 c s hc tail ih =>
    have hs : s ≠ [] := by
      rintro rfl
      simp [tail, commentTail] at h
    have hc' : ∀ t, c = '*' → s ++ x = '/' :: t → False := by
      rintro t rfl ht
      cases s with
      | nil => exact hs rfl
      | cons d s => exact hc s rfl (by rw [(List.cons.inj ht).1])
    rw [List.cons_append, commentTail.eq_3 _ _ hc', ih h]

/-! Addresses. -/

theorem ne_backslash_of_cases {c : Char} (h₁ : c = '\\' → s = [] → False)
    (h₂ : ∀ d t, c = '\\' → s = d :: t → False) : c ≠ '\\' := by
  rintro rfl
  cases s with
  | nil => exact h₁ rfl rfl
  | cons d t => exact h₂ d t rfl rfl

theorem quotedAddressTail?_char {q c : Char} (hc : c ≠ '\\') (s : Text) :
    quotedAddressTail? q (c :: s) = if c = q then some 1 else if isNewline c then none
      else (quotedAddressTail? q s).map (1 + ·) :=
  quotedAddressTail?.eq_4 q c s (fun h => absurd h hc) fun _ _ h => absurd h hc

theorem quotedAddressTail?_append {q : Char} {n : Nat} (h : quotedAddressTail? q s = some n) :
    quotedAddressTail? q (s ++ x) = some n := by
  fun_induction quotedAddressTail? q s generalizing n with
  | case1 => simp at h
  | case2 => simp at h
  | case3 c s ih =>
    obtain ⟨m, hm, rfl⟩ := Option.map_eq_some_iff.mp h
    simp [quotedAddressTail?, ih hm]
  | case4 s h₁ h₂ =>
    rw [List.cons_append, quotedAddressTail?_char (ne_backslash_of_cases h₁ h₂), if_pos rfl, h]
  | case5 => simp at h
  | case6 c s h₁ h₂ hq hn ih =>
    obtain ⟨m, hm, rfl⟩ := Option.map_eq_some_iff.mp h
    rw [List.cons_append, quotedAddressTail?_char (ne_backslash_of_cases h₁ h₂), if_neg hq,
      if_neg hn, ih hm, Option.map_some]

theorem bareAddressLength_char {c : Char} (hc : c ≠ '\\') (s : Text) :
    bareAddressLength (c :: s) = if c = '(' || c = ')' || isQuote c || isBlank c then 0
      else 1 + bareAddressLength s :=
  bareAddressLength.eq_4 c s (fun h => absurd h hc) fun _ _ h => absurd h hc

theorem bareAddressLength_append (h : s.drop (bareAddressLength s) ≠ []) :
    bareAddressLength (s ++ x) = bareAddressLength s := by
  fun_induction bareAddressLength s with
  | case1 => exact absurd rfl h
  | case2 => exact absurd rfl h
  | case3 c s ih =>
    rw [Nat.add_comm, List.drop_succ_cons, List.drop_succ_cons] at h
    rw [List.cons_append, List.cons_append, bareAddressLength, ih h]
  | case4 c s h₁ h₂ hc =>
    rw [List.cons_append, bareAddressLength_char (ne_backslash_of_cases h₁ h₂), if_pos hc]
  | case5 c s h₁ h₂ hc ih =>
    rw [Nat.add_comm, List.drop_succ_cons] at h
    rw [List.cons_append, bareAddressLength_char (ne_backslash_of_cases h₁ h₂), if_neg hc, ih h]

theorem addressLength?_append {n : Nat} (h : addressLength? s = some n) (hs : s.drop n ≠ []) :
    addressLength? (s ++ x) = some n := by
  cases s with
  | nil => simp at hs
  | cons c s =>
    rw [addressLength?] at h
    rw [List.cons_append, addressLength?]
    split at h
    next hq =>
      obtain ⟨m, hm, rfl⟩ := Option.map_eq_some_iff.mp h
      rw [if_pos hq, quotedAddressTail?_append hm, Option.map_some]
    next hq =>
      obtain rfl := Option.some.inj h
      rw [if_neg hq, ← List.cons_append, bareAddressLength_append hs]

theorem uriTail?_eq_some {m : Nat} : uriTail? s = some m ↔
    ∃ n, addressLength? (s.drop (blanksLength s)) = some n ∧
      let inner := blanksLength s + n + blanksLength (s.drop (blanksLength s + n))
      (s.drop inner).head? = some ')' ∧ inner + 1 = m := by
  simp only [uriTail?, Option.bind_eq_bind, Option.bind_eq_some_iff, Option.ite_none_right_eq_some,
    Option.some.injEq]

theorem drop_ne_nil_of_drop {n m : Nat} (h : s.drop (n + m) ≠ []) : s.drop n ≠ [] := by
  intro hn
  rw [← List.drop_drop, hn, List.drop_nil] at h
  exact h rfl

theorem le_length_of_drop {n : Nat} (h : s.drop n ≠ []) : n ≤ s.length := by
  by_contra hn
  exact h (List.drop_of_length_le (by omega))

theorem uriTail?_append {m : Nat} (h : uriTail? s = some m) : uriTail? (s ++ x) = some m := by
  obtain ⟨n, haddress, hclose, rfl⟩ := uriTail?_eq_some.mp h
  -- The address is closed inside the text, so every part of it ends there.
  have hinner : s.drop (blanksLength s + n + blanksLength (s.drop (blanksLength s + n))) ≠ [] := by
    intro hn
    simp [hn] at hclose
  have hbehind := drop_ne_nil_of_drop hinner
  have hbefore := drop_ne_nil_of_drop hbehind
  have hblanks : blanksLength (s ++ x) = blanksLength s := blanksLength_append hbefore
  refine uriTail?_eq_some.mpr ⟨n, ?_, ?_⟩
  · rw [hblanks, List.drop_append_of_le_length (le_length_of_drop hbefore)]
    exact addressLength?_append haddress (by rwa [List.drop_drop])
  · rw [hblanks, List.drop_append_of_le_length (le_length_of_drop hbehind),
      blanksLength_append (by rwa [List.drop_drop])]
    dsimp only
    rw [List.drop_append_of_le_length (le_length_of_drop hinner), head?_append_of_ne_nil hinner]
    exact ⟨hclose, rfl⟩

/-! `!important`. -/

theorem spacingLength_comment (h : (commentTail s).2) : spacingLength ('/' :: '*' :: s) =
    2 + (commentTail s).1 + spacingLength (('/' :: '*' :: s).drop (2 + (commentTail s).1)) := by
  rw [spacingLength, if_neg (by decide), if_pos ⟨rfl, rfl⟩]
  exact if_pos h

theorem spacingLength_open (h : ¬ (commentTail s).2) : spacingLength ('/' :: '*' :: s) = 0 := by
  rw [spacingLength, if_neg (by decide), if_pos ⟨rfl, rfl⟩]
  exact if_neg h

theorem spacingLength_append (hs : s.drop (spacingLength s) ≠ [])
    (h : ∀ c ∈ (s.drop (spacingLength s)).head?, c ≠ '/') :
    spacingLength (s ++ x) = spacingLength s := by
  fun_induction spacingLength s with
  | case1 => exact absurd rfl hs
  | case2 c s hb ih =>
    rw [Nat.add_comm, List.drop_succ_cons] at hs h
    rw [List.cons_append, spacingLength, if_pos hb, ih hs h]
  | case3 c s hb hc tail ht ih =>
    obtain ⟨rfl, hstar⟩ := hc
    obtain ⟨s, rfl⟩ := List.head?_eq_some_iff.mp hstar
    rw [← List.drop_drop] at hs h
    have hbehind := drop_ne_nil_of_drop (by rwa [List.drop_drop] at hs)
    have htail : commentTail (s ++ x) = tail := commentTail_append ht
    have hstar' : ('*' :: (s ++ x)).head? = some '*' := rfl
    rw [List.cons_append, List.cons_append, spacingLength, if_neg hb, if_pos ⟨rfl, hstar'⟩]
    simp only [List.tail_cons, htail]
    rw [if_pos ht, ← List.cons_append, ← List.cons_append,
      List.drop_append_of_le_length (le_length_of_drop hbehind)]
    exact congrArg _ (ih hs h)
  | case4 c s hb hc tail ht => exact absurd hc.1 (h c rfl)
  | case5 c s hb hc =>
    have hc : c ≠ '/' := h c rfl
    rw [List.cons_append, spacingLength, if_neg hb, if_neg fun hn => hc hn.1]

theorem importantTail?_eq_some {n : Nat} : importantTail? s = some n ↔
    (foldCase ((s.drop (spacingLength s)).take 9) = "important".toList ∧
      ¬ ((s.drop (spacingLength s)).drop 9).head?.any isNameChar) ∧ spacingLength s + 9 = n := by
  simp only [importantTail?, Option.ite_none_right_eq_some, Option.some.injEq]

theorem importantTail?_append {n : Nat} (h : importantTail? s = some n) (hs : s.drop n ≠ []) :
    importantTail? (s ++ x) = some n := by
  obtain ⟨⟨hword, hend⟩, rfl⟩ := importantTail?_eq_some.mp h
  have hbefore := drop_ne_nil_of_drop hs
  have hstart : ∀ c ∈ (s.drop (spacingLength s)).head?, c ≠ '/' := by
    rintro c hc rfl
    obtain ⟨r, hr⟩ := List.head?_eq_some_iff.mp hc
    rw [hr] at hword
    have hhead : some '/' = some 'i' := congrArg List.head? hword
    exact absurd hhead (by decide)
  rw [← List.drop_drop] at hs
  have hlen : 9 ≤ (s.drop (spacingLength s)).length := le_length_of_drop hs
  refine importantTail?_eq_some.mpr ⟨?_, ?_⟩
  · rw [spacingLength_append hbefore hstart, List.drop_append_of_le_length (le_length_of_drop hbefore),
      List.take_append_of_le_length hlen, List.drop_append_of_le_length hlen, head?_append_of_ne_nil hs]
    exact ⟨hword, hend⟩
  · rw [spacingLength_append hbefore hstart]

end Stylesheet
