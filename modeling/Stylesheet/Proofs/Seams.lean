import Stylesheet.Proofs.Appending

/-! The seam where a text is put behind another one: up to it the lexemes stay as they are, but for
blanks that run on. -/
namespace Stylesheet
open Extent

namespace Extent
variable {t s x : Text} {c : Char}

/-- The extent of a lexeme at the front of `t` that means something, opens no address, and has
something settled behind it. -/
structure Firm (e : Extent) (t : Text) : Prop where
  meaning : e.kind ≠ some .delim
  address : e.kind = some .function → foldCase (t.take (1 + e.more)) ≠ "url(".toList
  settled : Settled (t.drop (1 + e.more))

theorem more_ofLength {k : Kind} {n : Nat} (h : 0 < n) : 1 + (ofLength k n).more = n := by
  simp only [ofLength]
  omega

theorem Firm.settled_ofLength {k : Kind} {n : Nat} (h : (ofLength k n).Firm t) (hn : 0 < n) :
    Settled (t.drop n) := by
  have := h.settled
  rwa [more_ofLength hn] at this

theorem settled_of_head? {d : Char} (h : s.head? = some d) (hd : d ∉ ['-', '\\', '.']) :
    Settled s := by
  obtain ⟨r, rfl⟩ := List.head?_eq_some_iff.mp h
  intro hm
  simp only [unsettled, List.mem_cons, List.not_mem_nil, or_false] at hm hd
  rcases hm with hm | hm | hm | hm | hm
  · simp at hm
  all_goals
    have hfirst : d = _ := (List.cons.inj hm).1
    simp_all

theorem ofNumber_append (h : (ofNumber t).Firm t) (hn : numberLength t ≠ 0) :
    ofNumber (t ++ x) = ofNumber t := by
  have hpos : 0 < numberLength t := Nat.pos_of_ne_zero hn
  have hunit : Settled ((t.drop (numberLength t)).drop (identLength (t.drop (numberLength t)))) := by
    unfold ofNumber at h
    dsimp only at h
    split at h
    next hu =>
      rw [List.drop_drop]
      exact h.settled_ofLength (by omega)
    next hu =>
      rw [not_not] at hu
      rw [hu, List.drop_zero]
      split at h
      next hp => exact settled_of_head? hp (by decide)
      next => exact h.settled_ofLength hpos
  have hrest : Settled (t.drop (numberLength t)) := by
    by_cases hu : identLength (t.drop (numberLength t)) = 0
    · simpa [hu] using hunit
    · exact settled_of_identLength hu
  have hlen := le_length_of_drop hunit.ne_nil
  unfold ofNumber
  dsimp only
  rw [numberLength_append_of_drop hrest, List.drop_append_of_le_length (le_length_of_drop hrest.ne_nil),
    identLength_append_of_drop hunit, List.take_append_of_le_length hlen,
    head?_append_of_ne_nil hrest.ne_nil]

/-- What opens an address is one, or is measured as the opening of a function. -/
theorem ofWord_url {n : Nat} (hn : nameLength t = n) (hopen : (t.drop n).head? = some '(')
    (hurl : foldCase (t.take n) = "url".toList) : ofWord t =
      match uriTail? (t.drop n).tail with
      | some m => ofLength .uri (n + 1 + m)
      | none => ofLength .function (n + 1) := by
  subst hn
  exact (if_pos hopen).trans (if_pos hurl)

theorem ofWord_append (h : (ofWord t).Firm t) (hn : nameLength t ≠ 0) :
    ofWord (t ++ x) = ofWord t := by
  have hpos : 0 < nameLength t := Nat.pos_of_ne_zero hn
  have hrest : Settled (t.drop (nameLength t)) := by
    by_cases hopen : (t.drop (nameLength t)).head? = some '('
    · exact settled_of_head? hopen (by decide)
    · rw [ofWord_ident rfl hopen] at h
      exact h.settled_ofLength hpos
  have hle := le_length_of_drop hrest.ne_nil
  have hname : nameLength (t ++ x) = nameLength t := nameLength_append_of_settled hrest
  have hhead : ((t ++ x).drop (nameLength t)).head? = (t.drop (nameLength t)).head? := by
    rw [List.drop_append_of_le_length hle, head?_append_of_ne_nil hrest.ne_nil]
  have htake : (t ++ x).take (nameLength t) = t.take (nameLength t) :=
    List.take_append_of_le_length hle
  by_cases hopen : (t.drop (nameLength t)).head? = some '('
  · by_cases hurl : foldCase (t.take (nameLength t)) = "url".toList
    · have heq := ofWord_url rfl hopen hurl
      obtain ⟨r, hr⟩ := List.head?_eq_some_iff.mp hopen
      cases hm : uriTail? (t.drop (nameLength t)).tail with
      | none =>
        rw [heq, hm] at h
        refine absurd ?_ (h.address rfl)
        rw [more_ofLength (by omega), List.take_add, hr]
        simp only [foldCase, List.map_append] at hurl ⊢
        rw [hurl]
        rfl
      | some m =>
        have htail : ((t ++ x).drop (nameLength t)).tail = (t.drop (nameLength t)).tail ++ x := by
          rw [List.drop_append_of_le_length hle, hr]
          rfl
        rw [heq, ofWord_url hname (hhead ▸ hopen) (htake ▸ hurl), htail, hm, uriTail?_append hm]
    · rw [ofWord_function rfl hopen hurl, ofWord_function hname (hhead ▸ hopen) (htake ▸ hurl)]
  · rw [ofWord_ident rfl hopen, ofWord_ident hname (hhead ▸ hopen)]

theorem ofString_append {q : Char} (h : (ofString q s).Firm (q :: s)) :
    ofString q (s ++ x) = ofString q s := by
  have hended : (stringTail q s).2 ≠ .unclosed := by
    intro he
    have hlen := ((stringTail_spec q s).unclosed he).2
    have hsettled := h.settled
    rw [Nat.add_comm, List.drop_succ_cons] at hsettled
    exact hsettled.ne_nil (List.drop_of_length_le hlen.ge)
  rw [ofString, stringTail_append_of_ended hended, ofString]

theorem ofAt_append (h : (ofAt s).Firm ('@' :: s)) : ofAt (s ++ x) = ofAt s := by
  have hn : identLength s ≠ 0 := by
    intro hz
    exact h.meaning (by rw [ofAt, if_pos hz]; rfl)
  have hat : ofAt s = ofLength (atKind (s.take (identLength s))) (1 + identLength s) := if_neg hn
  have hrest : Settled (s.drop (identLength s)) := by
    rw [hat] at h
    have := h.settled_ofLength (by omega)
    rwa [Nat.add_comm, List.drop_succ_cons] at this
  unfold ofAt
  dsimp only
  rw [identLength_append_of_drop hrest, List.take_append_of_le_length (le_length_of_drop hrest.ne_nil)]

/-! The characters that can open more than one kind of lexeme. -/

theorem measure_slash (s : Text) : measure '/' s =
    if s.head? = some '*' then ⟨none, 1 + (commentTail s.tail).1, (commentTail s.tail).2⟩
    else ofLength .slash 1 := rfl

theorem measure_comment_append (h : (commentTail s).2 = true) :
    measure '/' ('*' :: s ++ x) = measure '/' ('*' :: s) :=
  congrArg (fun t : Nat × Bool => Extent.mk none (1 + t.1) t.2) (commentTail_append h)

theorem measure_slash_append (h : (measure '/' s).Firm ('/' :: s)) :
    measure '/' (s ++ x) = measure '/' s := by
  by_cases hstar : s.head? = some '*'
  · obtain ⟨r, rfl⟩ := List.head?_eq_some_iff.mp hstar
    refine measure_comment_append ?_
    by_contra hopen
    have hlen := (commentTail_open (Bool.eq_false_iff.mpr hopen)).1
    rw [measure_slash, if_pos hstar] at h
    exact h.settled.ne_nil (List.drop_of_length_le (by simp [hlen]; omega))
  · rw [measure_slash, if_neg hstar] at h
    have hs : Settled s := h.settled_ofLength Nat.one_pos
    rw [measure_slash, measure_slash, if_neg hstar, if_neg (head?_append_of_ne_nil hs.ne_nil x ▸ hstar)]

theorem measure_hash_append (h : (measure '#' s).Firm ('#' :: s)) :
    measure '#' (s ++ x) = measure '#' s := by
  rw [measure_hash] at h
  rw [measure_hash, measure_hash]
  by_cases hn : nameLength s = 0
  · rw [if_pos hn] at h
    exact absurd rfl h.meaning
  · rw [if_neg hn] at h ⊢
    have hrest := h.settled_ofLength (by omega)
    rw [Nat.add_comm, List.drop_succ_cons] at hrest
    rw [nameLength_append_of_settled hrest, if_neg hn]

theorem take_append_of_eq {t : Text} {n : Nat} (h : s.take n = t) (hn : t.length = n) :
    (s ++ x).take n = t := by
  have hle : n ≤ s.length := by
    have := congrArg List.length h
    rw [List.length_take] at this
    omega
  rw [List.take_append_of_le_length hle, h]

theorem settled_of_startsName (h : startsName s) : Settled s := by
  have hstart : ∀ s ∈ unsettled, startsName s = false := by decide
  exact fun hm => by simp [hstart s hm] at h

theorem take_two_append (h : Settled s) :
    (s ++ x).take 2 = "->".toList ↔ s.take 2 = "->".toList := by
  refine ⟨fun ht => ?_, fun ht => take_append_of_eq ht rfl⟩
  match s with
  | [] => exact absurd rfl h.ne_nil
  | [d] =>
    obtain rfl : d = '-' := (List.cons.inj ht).1
    exact absurd (by decide) h
  | d :: e :: s => exact ht

theorem measure_hyphen_append (h : (measure '-' s).Firm ('-' :: s)) :
    measure '-' (s ++ x) = measure '-' s := by
  rw [measure_hyphen] at h
  rw [measure_hyphen, measure_hyphen]
  by_cases hcdc : s.take 2 = "->".toList
  · rw [if_pos hcdc, if_pos (take_append_of_eq hcdc rfl)]
  rw [if_neg hcdc] at h ⊢
  by_cases hstart : startsName s
  · have hs := settled_of_startsName hstart
    rw [if_pos hstart] at h ⊢
    rw [if_neg (mt (take_two_append hs).mp hcdc), startsName_append_of_notMem hs.notMem, if_pos hstart]
    exact ofWord_append h (by rw [nameLength_char (by decide)]; omega)
  · rw [if_neg hstart] at h ⊢
    have hs : Settled s := h.settled_ofLength Nat.one_pos
    rw [if_neg (mt (take_two_append hs).mp hcdc), startsName_append_of_notMem hs.notMem, if_neg hstart]

theorem digitsLength_le_append (s x : Text) : digitsLength s ≤ digitsLength (s ++ x) := by
  have := length_le_takeWhile (isDigit_of_mem_take (s := s)) (s.drop (digitsLength s) ++ x)
  rwa [← List.append_assoc, List.take_append_drop, List.length_take,
    min_eq_left (digitsLength_le s)] at this

theorem measure_point (s : Text) : measure '.' s =
    if fractionLength ('.' :: s) = 0 then ofLength .dot 1 else ofNumber ('.' :: s) := rfl

theorem measure_point_append (h : (measure '.' s).Firm ('.' :: s)) :
    measure '.' (s ++ x) = measure '.' s := by
  rw [measure_point] at h
  rw [measure_point, measure_point]
  by_cases hz : fractionLength ('.' :: s) = 0
  · rw [if_pos hz] at h ⊢
    have hs : Settled s := h.settled_ofLength Nat.one_pos
    have hfraction := fractionLength_append (s := '.' :: s) (x := x) (by simp [hz])
      (fun he => hs.ne_nil (List.cons.inj he).2)
    rw [← List.cons_append, hfraction, if_pos hz]
  · rw [if_neg hz] at h ⊢
    have hpoint : fractionLength ('.' :: (s ++ x)) ≠ 0 := by
      intro hz'
      refine hz ?_
      rw [fractionLength] at hz' ⊢
      have := digitsLength_le_append s x
      split at hz' <;> simp_all
    rw [if_neg hpoint]
    exact ofNumber_append h (by rwa [numberLength_point])

theorem measure_less_append (h : (measure '<' s).Firm ('<' :: s)) :
    measure '<' (s ++ x) = measure '<' s := by
  have hless : ∀ s, measure '<' s =
    if s.take 3 = "!--".toList then ofLength .cdo 4 else ofLength .delim 1 := fun _ => rfl
  rw [hless] at h
  rw [hless, hless]
  by_cases hcdo : s.take 3 = "!--".toList
  · rw [if_pos hcdo, if_pos (take_append_of_eq hcdo rfl)]
  · rw [if_neg hcdo] at h
    exact absurd rfl h.meaning

theorem measure_exclamation (s : Text) : measure '!' s =
    match importantTail? s with
    | some n => ofLength .importantSym (1 + n)
    | none => ofLength .delim 1 := rfl

theorem measure_exclamation_append (h : (measure '!' s).Firm ('!' :: s)) :
    measure '!' (s ++ x) = measure '!' s := by
  rw [measure_exclamation] at h
  rw [measure_exclamation, measure_exclamation]
  cases hn : importantTail? s with
  | none =>
    rw [hn] at h
    exact absurd rfl h.meaning
  | some n =>
    rw [hn] at h
    have hrest := h.settled_ofLength (by omega)
    rw [Nat.add_comm, List.drop_succ_cons] at hrest
    rw [importantTail?_append hn hrest.ne_nil]

/-- A sign that means something in front of `=` only. -/
theorem comparison_append {k : Kind} {t : Text}
    (h : (if s.head? = some '=' then ofLength k 2 else ofLength .delim 1).Firm t) :
    (if (s ++ x).head? = some '=' then ofLength k 2 else ofLength .delim 1) =
      if s.head? = some '=' then ofLength k 2 else ofLength .delim 1 := by
  by_cases heq : s.head? = some '='
  · have hne : s ≠ [] := by
      rintro rfl
      simp at heq
    rw [head?_append_of_ne_nil hne]
  · rw [if_neg heq] at h
    exact absurd rfl h.meaning

theorem measure_append (h : (measure c s).Firm (c :: s)) : measure c (s ++ x) = measure c s := by
  have hsettled := h.settled
  rw [Nat.add_comm, List.drop_succ_cons] at hsettled
  unfold measure at h hsettled ⊢
  by_cases hblank : isBlank c
  · simp only [hblank, if_true, ofLength, Nat.add_sub_cancel_left] at hsettled ⊢
    rw [blanksLength_append hsettled.ne_nil]
  rw [if_neg hblank] at h ⊢
  rw [if_neg hblank]
  by_cases hquote : isQuote c
  · rw [if_pos hquote] at h ⊢
    rw [if_pos hquote, ofString_append h]
  rw [if_neg hquote] at h ⊢
  rw [if_neg hquote]
  by_cases hdigit : c.isDigit
  · rw [if_pos hdigit] at h ⊢
    rw [if_pos hdigit]
    exact ofNumber_append h (numberLength_digit hdigit s)
  rw [if_neg hdigit] at h ⊢
  rw [if_neg hdigit]
  have hlone : c :: s ∈ [[], "\\".toList] → False := by
    intro hm
    obtain hm : c = '\\' ∧ s = [] := by simpa using hm
    obtain ⟨rfl, rfl⟩ := hm
    exact h.meaning rfl
  have hstarts : startsName (c :: (s ++ x)) = startsName (c :: s) := startsName_append_of_notMem hlone
  by_cases hstart : startsName (c :: s)
  · rw [if_pos hstart] at h ⊢
    rw [if_pos (hstarts ▸ hstart)]
    exact ofWord_append h (nameLength_ne_zero hstart)
  rw [if_neg hstart] at h ⊢
  rw [if_neg (hstarts ▸ hstart)]
  split
  case h_1 => exact measure_slash_append h
  case h_2 => exact measure_hash_append h
  case h_3 => exact measure_hyphen_append h
  case h_4 => exact measure_point_append h
  case h_5 => exact measure_less_append h
  case h_6 => exact ofAt_append h
  case h_7 => exact measure_exclamation_append h
  case h_8 => exact comparison_append h
  case h_9 => exact comparison_append h
  case h_10 => rfl

end Extent
end Stylesheet
