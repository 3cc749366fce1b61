import Stylesheet.Proofs.Appending

/-! Text taken away from the end of a text: what a measure does not reach it does not look at, so
the part that is left measures the same. -/
namespace Stylesheet
open Extent

variable {s x : Text}

theorem takeWhile_of_append {p : Char → Bool} (h : ((s ++ x).takeWhile p).length ≤ s.length) :
    s.takeWhile p = (s ++ x).takeWhile p := by
  have htake := List.take_takeWhile (l := s ++ x) (p := p) (i := s.length)
  rw [List.take_of_length_le h, List.take_left] at htake
  exact htake.symm

theorem digitsLength_of_append (h : digitsLength (s ++ x) ≤ s.length) :
    digitsLength s = digitsLength (s ++ x) := congrArg List.length (takeWhile_of_append h)

theorem blanksLength_of_append (h : blanksLength (s ++ x) ≤ s.length) :
    blanksLength s = blanksLength (s ++ x) := congrArg List.length (takeWhile_of_append h)

/-! Names. -/

theorem hexLength_of_append (h : hexLength (s ++ x) ≤ s.length) :
    hexLength s = hexLength (s ++ x) := by
  unfold hexLength at h ⊢
  rw [List.take_append] at h ⊢
  by_cases hs : 6 ≤ s.length
  · rw [Nat.sub_eq_zero_of_le hs, List.take_zero, List.append_nil]
  · rw [List.take_of_length_le (by omega)] at h ⊢
    exact congrArg List.length (takeWhile_of_append h)

theorem oneBlankLength_of_append (h : oneBlankLength (s ++ x) ≤ s.length) :
    oneBlankLength s = oneBlankLength (s ++ x) := by
  match s with
  | [] => exact (Nat.le_zero.mp h).symm
  | [c] =>
    cases x with
    | nil => rfl
    | cons d x =>
      by_cases hpair : c = '\r' ∧ d = '\n'
      · obtain ⟨rfl, rfl⟩ := hpair
        simp [oneBlankLength] at h
      · simp only [List.cons_append, List.nil_append, oneBlankLength]
        simp_all
  | c :: d :: s =>
    by_cases hpair : c = '\r' ∧ d = '\n'
    · obtain ⟨rfl, rfl⟩ := hpair
      rfl
    · simp only [List.cons_append, oneBlankLength]
      simp_all

/-- A text that is cut off starts with no escape where the whole starts with none. -/
theorem escapeLength_zero_of_append (h : escapeLength (s ++ x) = 0) : escapeLength s = 0 := by
  match s with
  | [] => rfl
  | [c] => simp [escapeLength]
  | c :: d :: s =>
    by_cases hc : c = '\\'
    · subst hc
      exact escapeLength_eq_zero_iff.mpr (escapeLength_eq_zero_iff.mp h)
    · exact escapeLength_of_ne hc _

theorem escapeLength_of_append (h : escapeLength (s ++ x) ≤ s.length) :
    escapeLength s = escapeLength (s ++ x) := by
  obtain he | ⟨y, hy, hpos⟩ | ⟨c, y, hy, hc, hn⟩ := escapeLength_cases (s ++ x)
  · rw [he, escapeLength_zero_of_append he]
  · rw [hy, escapeLength_hex hpos] at h ⊢
    cases s with
    | nil => simp at h
    | cons b s =>
      obtain ⟨rfl, rfl⟩ : b = '\\' ∧ s ++ x = y := by simpa using hy
      rw [List.length_cons] at h
      have hhex : hexLength s = hexLength (s ++ x) := hexLength_of_append (by omega)
      have hdrop : (s ++ x).drop (hexLength s) = s.drop (hexLength s) ++ x :=
        List.drop_append_of_le_length (by omega)
      rw [← hhex, hdrop] at h ⊢
      have hblank := oneBlankLength_of_append (s := s.drop (hexLength s)) (x := x)
        (by rw [List.length_drop]; omega)
      rw [escapeLength_hex (hhex ▸ hpos), hblank]
  · rw [hy, escapeLength_plain hc hn] at h ⊢
    match s with
    | [] | [_] => simp at h
    | b :: d :: s =>
      obtain ⟨rfl, rfl, -⟩ : b = '\\' ∧ d = c ∧ s ++ x = y := by simpa using hy
      exact escapeLength_plain hc hn

theorem escapeLength_le_nameLength (s : Text) : escapeLength s ≤ nameLength s := by
  by_cases h : escapeLength s = 0
  · omega
  · rw [nameLength_escape h]
    omega

theorem nameLength_of_append (h : nameLength (s ++ x) ≤ s.length) :
    nameLength s = nameLength (s ++ x) := by
  fun_induction nameLength s with
  | case1 => exact (Nat.le_zero.mp h).symm
  | case2 c s hc ih =>
    rw [List.cons_append, nameLength_char hc] at h ⊢
    rw [ih (by simp only [List.length_cons] at h; omega)]
  | case3 c s hc he =>
    have hescape := escapeLength_of_append ((escapeLength_le_nameLength _).trans h)
    rw [List.cons_append] at hescape ⊢
    exact (nameLength_stop (by simpa using hc) (by rw [← hescape, he])).symm
  | case4 c s hc he ih =>
    have hescape := escapeLength_of_append ((escapeLength_le_nameLength _).trans h)
    have hle := (take_escapeLength he).2
    rw [nameLength_escape (s := c :: s ++ x) (hescape ▸ he), ← hescape,
      List.drop_append_of_le_length hle] at h ⊢
    rw [ih (by rw [List.length_drop]; omega)]

theorem startsName_false_of_append (h : startsName (s ++ x) = false) : startsName s = false := by
  cases s with
  | nil => rfl
  | cons c s =>
    simp only [List.cons_append, startsName, Bool.or_eq_false_iff, bne_eq_false_iff_eq] at h ⊢
    exact ⟨h.1, escapeLength_zero_of_append (s := c :: s) h.2⟩

theorem startsName_of_append (h : nameLength (s ++ x) ≤ s.length) :
    startsName s = startsName (s ++ x) := by
  cases s with
  | nil =>
    cases hx : startsName ([] ++ x) with
    | false => rfl
    | true => exact absurd (Nat.le_zero.mp h) (nameLength_ne_zero hx)
  | cons c s =>
    have hescape := escapeLength_of_append ((escapeLength_le_nameLength _).trans h)
    rw [List.cons_append] at hescape ⊢
    rw [startsName, startsName, hescape]

/-- What stands in front of a name, where there is one. -/
theorem startedName_of_append {n : Nat}
    (h : (if startsName (s ++ x) then n + nameLength (s ++ x) else 0) ≤ n + s.length) :
    (if startsName s then n + nameLength s else 0) =
      if startsName (s ++ x) then n + nameLength (s ++ x) else 0 := by
  cases hstart : startsName (s ++ x) with
  | false => rw [startsName_false_of_append hstart]; rfl
  | true =>
    rw [if_pos hstart] at h
    have hlen : nameLength (s ++ x) ≤ s.length := by omega
    rw [startsName_of_append hlen, hstart, nameLength_of_append hlen]

theorem identLength_of_append (h : identLength (s ++ x) ≤ s.length) :
    identLength s = identLength (s ++ x) := by
  cases s with
  | nil => exact (Nat.le_zero.mp h).symm
  | cons c s =>
    by_cases hc : c = '-'
    · subst hc
      rw [List.cons_append, identLength_hyphen] at h
      rw [List.cons_append, identLength_hyphen, identLength_hyphen]
      exact startedName_of_append (h.trans (Nat.add_comm s.length 1).le)
    · have hhead : ∀ t : Text, (c :: t).head? ≠ some '-' := fun t => by simpa using hc
      have hstarted := startedName_of_append (s := c :: s) (x := x) (n := 0)
      simp only [Nat.zero_add] at hstarted
      rw [List.cons_append, identLength_of_ne (hhead _)] at h
      rw [List.cons_append, identLength_of_ne (hhead _), identLength_of_ne (hhead _)]
      exact hstarted h

/-! Numbers. -/

theorem fractionLength_of_append (h : fractionLength (s ++ x) ≤ s.length) :
    fractionLength s = fractionLength (s ++ x) := by
  cases s with
  | nil => exact (Nat.le_zero.mp h).symm
  | cons c s =>
    by_cases hc : c = '.'
    · subst hc
      have hdigits : digitsLength s = digitsLength (s ++ x) := by
        refine digitsLength_of_append ?_
        by_cases hz : digitsLength (s ++ x) = 0
        · omega
        · rw [List.cons_append, fractionLength, if_neg hz, List.length_cons] at h
          omega
      rw [List.cons_append, fractionLength, fractionLength, hdigits]
    · rw [List.cons_append, fractionLength_of_ne hc, fractionLength_of_ne hc]

theorem numberLength_of_append (h : numberLength (s ++ x) ≤ s.length) :
    numberLength s = numberLength (s ++ x) := by
  rw [numberLength] at h
  have hdigits : digitsLength s = digitsLength (s ++ x) := digitsLength_of_append (by omega)
  have hdrop : (s ++ x).drop (digitsLength s) = s.drop (digitsLength s) ++ x :=
    List.drop_append_of_le_length (digitsLength_le s)
  rw [← hdigits, hdrop] at h
  have hfraction := fractionLength_of_append (s := s.drop (digitsLength s)) (x := x)
    (by rw [List.length_drop]; omega)
  rw [numberLength, numberLength, ← hdigits, hdrop, hfraction]

/-! Strings and comments. -/

theorem stringEscapeLength_of_append
    (h : stringEscapeLength ('\\' :: (s ++ x)) ≤ ('\\' :: s).length) :
    stringEscapeLength ('\\' :: s) = stringEscapeLength ('\\' :: (s ++ x)) := by
  cases s with
  | nil => exact Nat.le_antisymm (stringEscapeLength_pos _) h
  | cons c s =>
    cases hn : isNewline c with
    | false =>
      have hne : ∀ t, escapeLength ('\\' :: c :: t) ≠ 0 := fun t =>
        mt escapeLength_eq_zero_iff.mp (by simp [hn])
      rw [List.cons_append, stringEscapeLength_eq (hne _)] at h ⊢
      rw [stringEscapeLength_eq (hne _)]
      exact escapeLength_of_append h
    | true =>
      cases s with
      | nil =>
        cases x with
        | nil => rfl
        | cons d x =>
          by_cases hpair : c = '\r' ∧ d = '\n'
          · obtain ⟨rfl, rfl⟩ := hpair
            simp [stringEscapeLength] at h
          · simp_all [stringEscapeLength]
      | cons d s =>
        by_cases hpair : c = '\r' ∧ d = '\n'
        · obtain ⟨rfl, rfl⟩ := hpair
          rfl
        · simp_all [stringEscapeLength]

/-- A string that is not broken: the newline that breaks one stands behind it. -/
theorem stringTail_of_append {q : Char} (hn : (stringTail q (s ++ x)).2 ≠ .broken)
    (h : (stringTail q (s ++ x)).1 ≤ s.length) : stringTail q s = stringTail q (s ++ x) := by
  fun_induction stringTail q s with
  | case1 =>
    have hlen : (stringTail q x).1 = 0 := Nat.le_zero.mp h
    obtain ⟨-, hclosed, -, hunclosed⟩ := stringTail_spec q x
    cases he : (stringTail q x).2 with
    | closed =>
      obtain ⟨w, -, hw⟩ := hclosed he
      simp [hlen] at hw
    | broken => exact absurd he hn
    | unclosed => exact Prod.ext hlen.symm he.symm
  | case2 s => rw [List.cons_append, stringTail, if_pos rfl]
  | case3 c s hq hnewline =>
    rw [List.cons_append, stringTail, if_neg hq, if_pos hnewline] at hn
    exact absurd rfl hn
  | case4 s hq hnewline tail ih =>
    rw [List.cons_append, stringTail, if_neg hq, if_neg hnewline, if_pos rfl] at hn h ⊢
    dsimp only at hn h ⊢
    have hescape : stringEscapeLength ('\\' :: s) = stringEscapeLength ('\\' :: (s ++ x)) :=
      stringEscapeLength_of_append (by omega)
    have hle : stringEscapeLength ('\\' :: s) ≤ ('\\' :: s).length := by omega
    have hdrop : ('\\' :: (s ++ x)).drop (stringEscapeLength ('\\' :: s)) =
        ('\\' :: s).drop (stringEscapeLength ('\\' :: s)) ++ x :=
      List.drop_append_of_le_length hle
    rw [← hescape, hdrop] at hn h ⊢
    have htail := ih hn (by rw [List.length_drop]; omega)
    rw [← htail]
  | case5 c s hq hnewline he tail ih =>
    rw [List.cons_append, stringTail, if_neg hq, if_neg hnewline, if_neg he] at hn h ⊢
    have htail := ih hn (by simp only [List.length_cons] at h; omega)
    rw [← htail]

theorem commentTail_of_append (h : (commentTail (s ++ x)).1 ≤ s.length) :
    commentTail s = commentTail (s ++ x) := by
  fun_induction commentTail s with
  | case1 =>
    have hlen : (commentTail x).1 = 0 := Nat.le_zero.mp h
    cases he : (commentTail x).2 with
    | true =>
      obtain ⟨body, hbody, -⟩ := commentTail_closed he
      simp [hlen] at hbody
    | false => exact Prod.ext hlen.symm he.symm
  | case2 s => rfl
  | case3 c s hc tail ih =>
    have hc' : ∀ t, c = '*' → s ++ x = '/' :: t → False := by
      rintro t rfl ht
      cases s with
      | nil =>
        obtain rfl : x = '/' :: t := ht
        simp [commentTail] at h
      | cons d s => exact hc s rfl (by rw [(List.cons.inj ht).1])
    rw [List.cons_append, commentTail.eq_3 _ _ hc'] at h ⊢
    have htail := ih (by simp only [List.length_cons] at h; omega)
    rw [← htail]

/-! Addresses. They end with their parenthesis, so nothing behind them matters. -/

theorem quotedAddressTail?_pos {q : Char} {n : Nat} (h : quotedAddressTail? q s = some n) : 0 < n := by
  fun_induction quotedAddressTail? q s generalizing n with
  | case1 | case2 | case5 => simp at h
  | case4 => exact Option.some.inj h ▸ Nat.one_pos
  | case3 | case6 =>
    obtain ⟨m, -, rfl⟩ := Option.map_eq_some_iff.mp h
    omega

theorem quotedAddressTail?_of_append {q : Char} {n : Nat}
    (h : quotedAddressTail? q (s ++ x) = some n) (hn : n ≤ s.length) :
    quotedAddressTail? q s = some n := by
  fun_induction quotedAddressTail? q s generalizing n with
  | case1 => exact absurd (quotedAddressTail?_pos h) (by simpa using hn)
  | case2 =>
    cases x with
    | nil => simp [quotedAddressTail?] at h
    | cons c x =>
      obtain ⟨m, -, rfl⟩ := Option.map_eq_some_iff.mp h
      exact absurd hn (by simp only [List.length_singleton]; omega)
  | case3 c s ih =>
    obtain ⟨m, hm, rfl⟩ := Option.map_eq_some_iff.mp h
    rw [ih hm (by simp at hn; omega), Option.map_some]
  | case4 s h₁ h₂ =>
    rwa [List.cons_append, quotedAddressTail?_char (ne_backslash_of_cases h₁ h₂), if_pos rfl] at h
  | case5 c s h₁ h₂ hq hnewline =>
    rwa [List.cons_append, quotedAddressTail?_char (ne_backslash_of_cases h₁ h₂), if_neg hq,
      if_pos hnewline] at h
  | case6 c s h₁ h₂ hq hnewline ih =>
    rw [List.cons_append, quotedAddressTail?_char (ne_backslash_of_cases h₁ h₂), if_neg hq,
      if_neg hnewline] at h
    obtain ⟨m, hm, rfl⟩ := Option.map_eq_some_iff.mp h
    rw [ih hm (by simp at hn; omega), Option.map_some]

theorem bareAddressLength_of_append (h : bareAddressLength (s ++ x) ≤ s.length) :
    bareAddressLength s = bareAddressLength (s ++ x) := by
  fun_induction bareAddressLength s with
  | case1 => exact (Nat.le_zero.mp h).symm
  | case2 =>
    cases x with
    | nil => rfl
    | cons c x =>
      simp only [List.cons_append, List.nil_append, bareAddressLength, List.length_singleton] at h
      omega
  | case3 c s ih =>
    rw [List.cons_append, List.cons_append, bareAddressLength] at h ⊢
    rw [ih (by simp at h; omega)]
  | case4 c s h₁ h₂ hc =>
    rw [List.cons_append, bareAddressLength_char (ne_backslash_of_cases h₁ h₂), if_pos hc]
  | case5 c s h₁ h₂ hc ih =>
    rw [List.cons_append, bareAddressLength_char (ne_backslash_of_cases h₁ h₂), if_neg hc] at h ⊢
    rw [ih (by simp at h; omega)]

theorem addressLength?_of_append {n : Nat} (h : addressLength? (s ++ x) = some n)
    (hn : n < s.length) : addressLength? s = some n := by
  cases s with
  | nil => simp at hn
  | cons c s =>
    rw [List.cons_append, addressLength?] at h
    rw [addressLength?]
    split at h
    next hq =>
      obtain ⟨m, hm, rfl⟩ := Option.map_eq_some_iff.mp h
      rw [if_pos hq, quotedAddressTail?_of_append hm (by simp at hn; omega), Option.map_some]
    next hq =>
      obtain rfl := Option.some.inj h
      rw [if_neg hq, bareAddressLength_of_append (Nat.le_of_lt hn), List.cons_append]

theorem uriTail?_of_append {m : Nat} (h : uriTail? (s ++ x) = some m) (hm : m ≤ s.length) :
    uriTail? s = some m := by
  obtain ⟨n, haddress, hclose, rfl⟩ := uriTail?_eq_some.mp h
  have hbefore : blanksLength s = blanksLength (s ++ x) := blanksLength_of_append (by omega)
  have hdrop : (s ++ x).drop (blanksLength (s ++ x) + n) = s.drop (blanksLength (s ++ x) + n) ++ x :=
    List.drop_append_of_le_length (by omega)
  rw [hdrop] at hm hclose
  have hbehind := blanksLength_of_append (s := s.drop (blanksLength (s ++ x) + n)) (x := x)
    (by rw [List.length_drop]; omega)
  rw [List.drop_append_of_le_length (by omega)] at haddress
  rw [List.drop_append_of_le_length (by omega), head?_append_of_ne_nil] at hclose
  · refine uriTail?_eq_some.mpr ⟨n, ?_, ?_⟩
    · rw [hbefore]
      exact addressLength?_of_append haddress (by rw [List.length_drop]; omega)
    · rw [hbefore, hbehind]
      exact ⟨hclose, by rw [hdrop]⟩
  · exact List.ne_nil_of_length_pos (by rw [List.length_drop]; omega)

/-! `!important`. -/

theorem spacingLength_of_append (h : spacingLength (s ++ x) ≤ s.length) :
    spacingLength s = spacingLength (s ++ x) := by
  fun_induction spacingLength s with
  | case1 => exact (Nat.le_zero.mp h).symm
  | case2 c s hb ih =>
    rw [List.cons_append, spacingLength, if_pos hb] at h ⊢
    rw [ih (by simp only [List.length_cons] at h; omega)]
  | case3 c s hb hc tail ht ih =>
    obtain ⟨rfl, hstar⟩ := hc
    obtain ⟨r, rfl⟩ := List.head?_eq_some_iff.mp hstar
    have htail : commentTail (r ++ x) = tail := commentTail_append ht
    have hle : 2 + tail.1 ≤ ('/' :: '*' :: r).length := by
      have : tail.1 ≤ r.length := commentTail_le r
      simp only [List.length_cons]
      omega
    have hwhole := spacingLength_comment (s := r ++ x) (htail ▸ ht)
    rw [htail, ← List.cons_append, ← List.cons_append, List.drop_append_of_le_length hle] at hwhole
    rw [hwhole] at h ⊢
    rw [ih (by rw [List.length_drop]; omega)]
  | case4 c s hb hc tail ht =>
    obtain ⟨rfl, hstar⟩ := hc
    obtain ⟨r, rfl⟩ := List.head?_eq_some_iff.mp hstar
    have hopen : ¬ (commentTail (r ++ x)).2 := by
      -- A comment that reaches no farther than the part that is left is closed in it.
      intro hend
      rw [List.cons_append, List.cons_append, spacingLength_comment hend] at h
      simp only [List.length_cons] at h
      have htail : commentTail r = commentTail (r ++ x) := commentTail_of_append (by omega)
      exact ht (htail.symm ▸ hend : (commentTail r).2)
    exact (spacingLength_open hopen).symm
  | case5 c s hb hc =>
    by_cases hwhole : c = '/' ∧ (s ++ x).head? = some '*'
    · obtain ⟨rfl, hstar⟩ := hwhole
      cases s with
      | cons d s => exact absurd ⟨rfl, hstar⟩ hc
      | nil =>
        obtain ⟨r, rfl⟩ := List.head?_eq_some_iff.mp hstar
        have hopen : ¬ (commentTail r).2 := by
          intro hend
          rw [List.singleton_append, spacingLength_comment hend, List.length_singleton] at h
          omega
        exact (spacingLength_open hopen).symm
    · rw [List.cons_append, spacingLength, if_neg hb, if_neg hwhole]

theorem importantTail?_of_append {n : Nat} (h : importantTail? (s ++ x) = some n)
    (hn : n ≤ s.length) : importantTail? s = some n := by
  obtain ⟨⟨hword, hend⟩, rfl⟩ := importantTail?_eq_some.mp h
  have hspacing : spacingLength s = spacingLength (s ++ x) := spacingLength_of_append (by omega)
  rw [← hspacing] at hword hend hn ⊢
  rw [List.drop_append_of_le_length (by omega)] at hword hend
  have hlen : 9 ≤ (s.drop (spacingLength s)).length := by rw [List.length_drop]; omega
  rw [List.take_append_of_le_length hlen] at hword
  rw [List.drop_append_of_le_length hlen] at hend
  refine importantTail?_eq_some.mpr ⟨⟨hword, ?_⟩, rfl⟩
  cases hrest : (s.drop (spacingLength s)).drop 9 with
  | nil => simp
  | cons c r =>
    rw [hrest] at hend
    exact hend

end Stylesheet
