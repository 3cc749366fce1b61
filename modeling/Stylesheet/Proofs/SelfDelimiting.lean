import Stylesheet.Proofs.AppendedTexts
import Stylesheet.Proofs.Cropping
import Stylesheet.Proofs.ProperEvents

/-! The text of a token by itself is that token again: what a lexeme is does not hang on what stands
behind it, broken strings apart. -/
namespace Stylesheet

namespace Extent
variable {s x : Text} {c : Char}

/-! Each lexeme as before when what stood behind it is taken away. -/

theorem numberLength_le_ofNumber (h : numberLength s ≠ 0) :
    numberLength s + identLength (s.drop (numberLength s)) ≤ 1 + (ofNumber s).more := by
  unfold ofNumber
  dsimp only
  split_ifs <;> rw [more_ofLength (by omega)] <;> omega

theorem ofNumber_of_append (hn : numberLength (s ++ x) ≠ 0)
    (hs : 1 + (ofNumber (s ++ x)).more ≤ s.length) : ofNumber s = ofNumber (s ++ x) := by
  have hlen := (numberLength_le_ofNumber hn).trans hs
  have hnumber : numberLength s = numberLength (s ++ x) := numberLength_of_append (by omega)
  have hdrop : (s ++ x).drop (numberLength s) = s.drop (numberLength s) ++ x :=
    List.drop_append_of_le_length (by omega)
  rw [← hnumber, hdrop] at hlen
  have hident : identLength (s.drop (numberLength s)) = identLength (s.drop (numberLength s) ++ x) :=
    identLength_of_append (by rw [List.length_drop]; omega)
  unfold ofNumber at hs ⊢
  dsimp only at hs ⊢
  rw [← hnumber, hdrop, ← hident] at hs ⊢
  by_cases hu : identLength (s.drop (numberLength s)) = 0
  · rw [if_neg (not_not.mpr hu)] at hs ⊢
    rw [if_neg (not_not.mpr hu)]
    by_cases hend : s.drop (numberLength s) = []
    · have hpercent : (s.drop (numberLength s) ++ x).head? ≠ some '%' := by
        intro hpercent
        rw [if_pos hpercent, more_ofLength (by omega)] at hs
        exact List.ne_nil_of_length_pos (by rw [List.length_drop]; omega) hend
      rw [if_neg hpercent, hend, if_neg (by simp)]
    · rw [head?_append_of_ne_nil hend]
  · rw [if_pos hu, if_pos hu, List.take_append_of_le_length (by rw [List.length_drop]; omega)]

theorem nameLength_lt_ofWord (hopen : (s.drop (nameLength s)).head? = some '(') :
    nameLength s < 1 + (ofWord s).more := by
  by_cases hurl : foldCase (s.take (nameLength s)) = "url".toList
  · rw [ofWord_url rfl hopen hurl]
    split <;> rw [more_ofLength (by omega)] <;> omega
  · rw [ofWord_function rfl hopen hurl, more_ofLength (by omega)]
    omega

theorem nameLength_le_ofWord (h : nameLength s ≠ 0) : nameLength s ≤ 1 + (ofWord s).more := by
  by_cases hopen : (s.drop (nameLength s)).head? = some '('
  · exact (nameLength_lt_ofWord hopen).le
  · rw [ofWord_ident rfl hopen, more_ofLength (by omega)]

theorem ofWord_of_append (hn : nameLength (s ++ x) ≠ 0)
    (hs : 1 + (ofWord (s ++ x)).more ≤ s.length) : ofWord s = ofWord (s ++ x) := by
  have hname : nameLength s = nameLength (s ++ x) :=
    nameLength_of_append ((nameLength_le_ofWord hn).trans hs)
  have hdrop : (s ++ x).drop (nameLength s) = s.drop (nameLength s) ++ x :=
    List.drop_append_of_le_length (hname ▸ (nameLength_le_ofWord hn).trans hs)
  have htake : (s ++ x).take (nameLength s) = s.take (nameLength s) :=
    List.take_append_of_le_length (hname ▸ (nameLength_le_ofWord hn).trans hs)
  have hhead : ((s ++ x).drop (nameLength s)).head? = some '(' ↔
      (s.drop (nameLength s)).head? = some '(' := by
    by_cases hend : s.drop (nameLength s) = []
    · refine ⟨fun hopen => ?_, fun hopen => by simp [hend] at hopen⟩
      have hlt := nameLength_lt_ofWord (s := s ++ x) (hname ▸ hopen)
      exact absurd hend (List.ne_nil_of_length_pos (by rw [List.length_drop]; omega))
    · rw [hdrop, head?_append_of_ne_nil hend]
  by_cases hopen : (s.drop (nameLength s)).head? = some '('
  · by_cases hurl : foldCase (s.take (nameLength s)) = "url".toList
    · have hwhole := ofWord_url hname.symm (hhead.mpr hopen) (htake ▸ hurl)
      have hpart := ofWord_url rfl hopen hurl
      obtain ⟨r, hr⟩ := List.head?_eq_some_iff.mp hopen
      rw [hdrop, hr, List.cons_append, List.tail_cons] at hwhole
      rw [hr, List.tail_cons] at hpart
      cases hm : uriTail? (r ++ x) with
      | none =>
        have hnone : uriTail? r = none := by
          by_contra hne
          obtain ⟨m, hm'⟩ := Option.ne_none_iff_exists'.mp hne
          rw [uriTail?_append hm'] at hm
          exact nomatch hm
        rw [hpart, hwhole, hm, hnone]
      | some m =>
        rw [hm] at hwhole
        rw [hwhole, more_ofLength (by omega)] at hs
        have hlen := congrArg List.length hr
        rw [List.length_drop, List.length_cons] at hlen
        rw [hpart, hwhole, uriTail?_of_append hm (by omega)]
    · rw [ofWord_function hname.symm (hhead.mpr hopen) (htake ▸ hurl), ofWord_function rfl hopen hurl]
  · rw [ofWord_ident hname.symm (mt hhead.mp hopen), ofWord_ident rfl hopen]

theorem ofString_of_append {q : Char} (hk : (ofString q (s ++ x)).kind ≠ some .invalid)
    (hs : (ofString q (s ++ x)).more ≤ s.length) : ofString q s = ofString q (s ++ x) := by
  have hended : (stringTail q (s ++ x)).2 ≠ .broken := fun he => hk (congrArg some (if_pos he))
  rw [ofString, stringTail_of_append hended hs, ofString]

theorem ofAt_of_append (hs : (ofAt (s ++ x)).more ≤ s.length) : ofAt s = ofAt (s ++ x) := by
  have hlen : identLength (s ++ x) ≤ s.length := by
    by_cases hn : identLength (s ++ x) = 0
    · omega
    · rwa [ofAt, if_neg hn, ofLength, Nat.add_sub_cancel_left] at hs
  rw [ofAt, ofAt, identLength_of_append hlen, List.take_append_of_le_length hlen]

theorem measure_less_of_append (hs : (measure '<' (s ++ x)).more ≤ s.length) :
    measure '<' s = measure '<' (s ++ x) := by
  have hless : ∀ s, measure '<' s =
    if s.take 3 = "!--".toList then ofLength .cdo 4 else ofLength .delim 1 := fun _ => rfl
  rw [hless] at hs
  rw [hless, hless]
  by_cases hcdo : (s ++ x).take 3 = "!--".toList
  · rw [if_pos hcdo] at hs ⊢
    rw [if_pos (List.take_append_of_le_length hs ▸ hcdo)]
  · rw [if_neg hcdo, if_neg fun ht => hcdo (take_append_of_eq ht rfl)]

/-- A sign that means something in front of `=` only. -/
theorem comparison_of_append {k : Kind}
    (hs : (if (s ++ x).head? = some '=' then ofLength k 2 else ofLength .delim 1).more ≤ s.length) :
    (if s.head? = some '=' then ofLength k 2 else ofLength .delim 1) =
      if (s ++ x).head? = some '=' then ofLength k 2 else ofLength .delim 1 := by
  cases s with
  | nil =>
    have hequals : ([] ++ x).head? ≠ some '=' := by
      intro hequals
      rw [if_pos hequals, List.length_nil] at hs
      exact absurd hs (by simp [ofLength])
    rw [if_neg hequals, if_neg (by simp)]
  | cons d s => rw [head?_append_of_ne_nil (List.cons_ne_nil d s)]

theorem measure_slash_of_append (hs : (measure '/' (s ++ x)).more ≤ s.length) :
    measure '/' s = measure '/' (s ++ x) := by
  rw [measure_slash] at hs
  rw [measure_slash, measure_slash]
  cases s with
  | nil =>
    have hstar : ([] ++ x).head? ≠ some '*' := by
      intro hstar
      rw [if_pos hstar, List.length_nil] at hs
      exact absurd hs (by simp)
    rw [if_neg hstar, if_neg (by simp)]
  | cons d s =>
    rw [head?_append_of_ne_nil (List.cons_ne_nil d s)] at hs ⊢
    by_cases hstar : (d :: s).head? = some '*'
    · rw [if_pos hstar, List.cons_append, List.tail_cons, List.length_cons] at hs
      have htail : commentTail s = commentTail (s ++ x) :=
        commentTail_of_append (by dsimp only at hs; omega)
      rw [if_pos hstar, if_pos hstar, List.cons_append, List.tail_cons, List.tail_cons, htail]
    · rw [if_neg hstar, if_neg hstar]

theorem measure_hash_of_append (hs : (measure '#' (s ++ x)).more ≤ s.length) :
    measure '#' s = measure '#' (s ++ x) := by
  rw [measure_hash] at hs
  have hlen : nameLength (s ++ x) ≤ s.length := by
    by_cases hn : nameLength (s ++ x) = 0
    · omega
    · rwa [if_neg hn, ofLength, Nat.add_sub_cancel_left] at hs
  rw [measure_hash, measure_hash, nameLength_of_append hlen]

theorem measure_hyphen_of_append (hs : (measure '-' (s ++ x)).more ≤ s.length) :
    measure '-' s = measure '-' (s ++ x) := by
  rw [measure_hyphen] at hs
  rw [measure_hyphen, measure_hyphen]
  by_cases hcdc : (s ++ x).take 2 = "->".toList
  · rw [if_pos hcdc] at hs ⊢
    rw [if_pos (List.take_append_of_le_length hs ▸ hcdc)]
  rw [if_neg hcdc] at hs ⊢
  rw [if_neg fun ht => hcdc (take_append_of_eq ht rfl)]
  cases hstart : startsName (s ++ x) with
  | true =>
    rw [hstart, if_pos rfl] at hs
    have hname : nameLength ('-' :: s ++ x) = 1 + nameLength (s ++ x) := nameLength_char (by decide) _
    have hlen : 1 + (ofWord ('-' :: s ++ x)).more ≤ ('-' :: s).length := by
      rw [List.length_cons, Nat.add_comm]
      exact Nat.succ_le_succ hs
    have hreach := (nameLength_le_ofWord (s := '-' :: s ++ x) (by omega)).trans hlen
    rw [hname, List.length_cons] at hreach
    rw [startsName_of_append (s := s) (x := x) (by omega), hstart, if_pos rfl, if_pos rfl]
    exact ofWord_of_append (by omega) hlen
  | false => rw [startsName_false_of_append hstart, if_neg (by decide), if_neg (by decide)]

theorem measure_point_of_append (hs : (measure '.' (s ++ x)).more ≤ s.length) :
    measure '.' s = measure '.' (s ++ x) := by
  rw [measure_point, ← numberLength_point] at hs
  rw [measure_point, measure_point, ← numberLength_point, ← numberLength_point]
  by_cases hn : numberLength ('.' :: (s ++ x)) = 0
  · have hnumber : numberLength ('.' :: s) = numberLength ('.' :: s ++ x) :=
      numberLength_of_append (by rw [List.cons_append, hn]; exact Nat.zero_le _)
    rw [hnumber, List.cons_append, if_pos hn, if_pos hn]
  · rw [if_neg hn] at hs
    have hlen : 1 + (ofNumber ('.' :: s ++ x)).more ≤ ('.' :: s).length := by
      rw [List.length_cons, Nat.add_comm]
      exact Nat.succ_le_succ hs
    have hreach := (Nat.le_add_right _ _).trans ((numberLength_le_ofNumber (s := '.' :: s ++ x) hn).trans hlen)
    rw [numberLength_of_append hreach, List.cons_append, if_neg hn, if_neg hn]
    exact ofNumber_of_append (s := '.' :: s) hn hlen

theorem measure_exclamation_of_append (hs : (measure '!' (s ++ x)).more ≤ s.length)
    (hd : s.length = (measure '!' (s ++ x)).more ∨ (measure '!' (s ++ x)).kind ≠ some .delim) :
    measure '!' s = measure '!' (s ++ x) := by
  rw [measure_exclamation] at hs hd
  rw [measure_exclamation, measure_exclamation]
  cases hn : importantTail? (s ++ x) with
  | none =>
    have hend : importantTail? [] = none := by cbv
    simp only [hn] at hd
    rw [List.length_eq_zero_iff.mp (hd.resolve_right (by simp [ofLength])), hend]
  | some n =>
    simp only [hn, ofLength, Nat.add_sub_cancel_left] at hs
    rw [importantTail?_of_append hn hs]

/-- A lexeme is measured as before when text behind it is taken away. A character without meaning may
get one that way, unless nothing of what stood behind it is left. -/
theorem measure_of_append (hk : (measure c (s ++ x)).kind ≠ some .invalid)
    (hd : s.length = (measure c (s ++ x)).more ∨ (measure c (s ++ x)).kind ≠ some .delim)
    (hs : (measure c (s ++ x)).more ≤ s.length) : measure c s = measure c (s ++ x) := by
  have hone : ∀ {n : Nat}, n ≤ s.length → 1 + n ≤ (c :: s).length := by
    intro n hn
    rw [List.length_cons]
    omega
  unfold measure at hk hd hs ⊢
  by_cases hblank : isBlank c
  · simp only [hblank, if_true, ofLength, Nat.add_sub_cancel_left] at hs ⊢
    rw [blanksLength_of_append hs]
  rw [if_neg hblank] at hk hd hs ⊢
  rw [if_neg hblank]
  by_cases hquote : isQuote c
  · rw [if_pos hquote] at hk hs ⊢
    rw [if_pos hquote, ofString_of_append hk hs]
  rw [if_neg hquote] at hk hd hs ⊢
  rw [if_neg hquote]
  by_cases hdigit : c.isDigit
  · rw [if_pos hdigit] at hs ⊢
    rw [if_pos hdigit]
    exact ofNumber_of_append (s := c :: s) (numberLength_digit hdigit _) (hone hs)
  rw [if_neg hdigit] at hk hd hs ⊢
  rw [if_neg hdigit]
  cases hstart : startsName (c :: (s ++ x)) with
  | true =>
    rw [hstart, if_pos rfl] at hs
    have hname := nameLength_ne_zero hstart
    have hlen := (nameLength_le_ofWord hname).trans (hone hs)
    rw [startsName_of_append (s := c :: s) hlen, List.cons_append, hstart, if_pos rfl, if_pos rfl]
    exact ofWord_of_append (s := c :: s) hname (hone hs)
  | false =>
    rw [hstart] at hs hk hd
    rw [startsName_false_of_append (s := c :: s) hstart]
    simp only [Bool.false_eq_true, if_false] at hs hk hd ⊢
    split
    case h_1 => exact measure_slash_of_append hs
    case h_2 => exact measure_hash_of_append hs
    case h_3 => exact measure_hyphen_of_append hs
    case h_4 => exact measure_point_of_append hs
    case h_5 => exact measure_less_of_append hs
    case h_6 => exact ofAt_of_append hs
    case h_7 => exact measure_exclamation_of_append hs hd
    case h_8 => exact comparison_of_append hs
    case h_9 => exact comparison_of_append hs
    case h_10 => rfl

/-- A lexeme is measured as before when all that stands behind it is taken away. -/
theorem measure_take (hk : (measure c s).kind ≠ some .invalid) :
    measure c (s.take (measure c s).more) = measure c s := by
  by_cases hle : (measure c s).more ≤ s.length
  · have hsplit := List.take_append_drop (measure c s).more s
    have happend := measure_of_append (c := c) (s := s.take (measure c s).more)
      (x := s.drop (measure c s).more)
    rw [hsplit] at happend
    exact happend hk (.inl (List.length_take_of_le hle)) (List.length_take_of_le hle).ge
  · rw [List.take_of_length_le (by omega)]

end Extent

theorem Measured.lexemes_eq {k : Kind} {t rest : Text} (h : Measured k t rest) (hk : k ≠ .invalid) :
    ∃ b, lexemes t = [⟨some k, t, b⟩] := by
  obtain ⟨c, s, hkind, rfl, -⟩ := h
  have htake := Extent.measure_take (c := c) (s := s) fun hi => hk (Option.some.inj (hkind.symm.trans hi))
  have hfront : front c (s.take (Extent.measure c s).more) =
      ⟨some k, c :: s.take (Extent.measure c s).more, (Extent.measure c s).closed⟩ := by
    rw [front, htake, hkind, List.take_take, min_self]
  have hrest : (s.take (Extent.measure c s).more).drop (Extent.measure c s).more = [] := by
    rw [List.drop_take, Nat.sub_self, List.take_zero]
  exact ⟨_, by rw [lexemes_cons, hfront, htake, hrest, lexemes]⟩

/-- Every token is the only one in its own text, but for the end of that text. -/
theorem tokens_alone {css : Text} {t : Token} (ht : t ∈ tokens css) (hi : t.kind ≠ .invalid)
    (he : t.kind ≠ .eof) : tokens t.text = [⟨t.kind, t.text, .start⟩, endToken t.text] := by
  obtain ⟨rest, hm⟩ := (lexed_tokens css t ht).resolve_left he
  obtain ⟨b, hb⟩ := hm.lexemes_eq hi
  rw [tokens, placed, hb]
  rfl

/-- The opening of an address that is none. -/
theorem refusedAddress_alone :
    ⟨.function, "url(".toList, .start⟩ ∈ tokens "url(a b)".toList ∧
      Kind.function ≠ .invalid ∧ Kind.function ≠ .eof ∧
      tokens "url(".toList = [⟨.function, "url(".toList, .start⟩, endToken "url(".toList] := by
  have ht : ⟨.function, "url(".toList, .start⟩ ∈ tokens "url(a b)".toList := by
    have htokens : tokens "url(a b)".toList = [⟨.function, "url(".toList, .start⟩,
        ⟨.ident, ['a'], ⟨1, 5⟩⟩, ⟨.space, [' '], ⟨1, 6⟩⟩, ⟨.ident, ['b'], ⟨1, 7⟩⟩,
        ⟨.rparen, [')'], ⟨1, 8⟩⟩, ⟨.eof, [], ⟨1, 9⟩⟩] := by cbv
    rw [htokens]
    exact List.mem_cons_self ..
  exact ⟨ht, by decide, by decide, tokens_alone ht (by decide) (by decide)⟩

end Stylesheet
