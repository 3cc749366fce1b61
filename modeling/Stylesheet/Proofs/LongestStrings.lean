import Stylesheet.Proofs.LongestNames

/-! The measures of numbers and strings find the longest words of their languages. -/
namespace Stylesheet
open Computability Lexical

/-! Runs of characters of one class, and numbers. -/

theorem mem_char_kstar {p : Char → Bool} {w : Text} : w ∈ (char p)∗ ↔ ∀ c ∈ w, p c := by
  constructor
  · refine fun hw => kstar_induction (P := fun w => ∀ c ∈ w, p c) (by simp) (fun u v hu _ ih => ?_) hw
    obtain ⟨c, hc, rfl⟩ := hu
    simpa using ⟨hc, ih⟩
  · intro h
    induction w with
    | nil => exact Language.nil_mem_kstar _
    | cons c w ih =>
      rw [List.forall_mem_cons] at h
      have := Language.append_mem_mul (a := [c]) (l := char p) ⟨c, h.1, rfl⟩ (ih h.2)
      exact mem_of_le mul_kstar_le_kstar this

theorem mem_char_mul_kstar {p : Char → Bool} {w : Text} :
    w ∈ char p * (char p)∗ ↔ w ≠ [] ∧ ∀ c ∈ w, p c := by
  constructor
  · intro h
    obtain ⟨u, hu, v, hv, rfl⟩ := Language.mem_mul.mp h
    obtain ⟨c, hc, rfl⟩ := hu
    simpa using ⟨hc, mem_char_kstar.mp hv⟩
  · rintro ⟨hne, h⟩
    obtain ⟨c, v, rfl⟩ := List.exists_cons_of_ne_nil hne
    rw [List.forall_mem_cons] at h
    exact Language.append_mem_mul (a := [c]) ⟨c, h.1, rfl⟩ (mem_char_kstar.mpr h.2)

theorem take_length_takeWhile (p : Char → Bool) (s : Text) :
    s.take (s.takeWhile p).length = s.takeWhile p :=
  (List.prefix_iff_eq_take.mp (List.takeWhile_prefix p)).symm

theorem length_le_takeWhile {p : Char → Bool} {u : Text} (hu : ∀ c ∈ u, p c) (v : Text) :
    u.length ≤ ((u ++ v).takeWhile p).length := by
  rw [List.takeWhile_append_of_pos hu]
  simp

theorem longestMatch_run {p : Char → Bool} {s : Text} (h : s.takeWhile p ≠ []) :
    LongestMatch (char p * (char p)∗) (s.take (s.takeWhile p).length)
      (s.drop (s.takeWhile p).length) := by
  refine longestMatch_take ?_ (List.takeWhile_prefix p).length_le fun u v hu hs => ?_
  · rw [take_length_takeWhile, mem_char_mul_kstar]
    exact ⟨h, fun _ hc => List.mem_takeWhile_imp hc⟩
  · rw [hs]
    exact length_le_takeWhile (mem_char_mul_kstar.mp hu).2 v

theorem takeWhile_eq {p : Char → Bool} {u v : Text} (hu : ∀ c ∈ u, p c)
    (hv : ∀ c ∈ v.head?, p c = false) : (u ++ v).takeWhile p = u := by
  rw [List.takeWhile_append_of_pos hu]
  cases v with
  | nil => simp
  | cons c v => simp [hv c rfl]

theorem isDigit_of_mem_take {s : Text} : ∀ c ∈ s.take (digitsLength s), c.isDigit := by
  intro c hc
  exact List.mem_takeWhile_imp (take_length_takeWhile Char.isDigit s ▸ hc)

theorem digitsLength_le (s : Text) : digitsLength s ≤ s.length :=
  (List.takeWhile_prefix Char.isDigit).length_le

theorem fractionLength_cases (s : Text) : fractionLength s = 0 ∨ ∃ r, s = '.' :: r ∧
    digitsLength r ≠ 0 ∧ fractionLength s = 1 + digitsLength r := by
  unfold fractionLength
  split
  · next r =>
    split
    · exact .inl rfl
    next h => exact .inr ⟨r, rfl, h, rfl⟩
  · exact .inl rfl

theorem take_digitsLength {s : Text} (h : digitsLength s ≠ 0) :
    s.take (digitsLength s) ∈ digit * digit∗ := by
  have hle := digitsLength_le s
  refine mem_char_mul_kstar.mpr ⟨List.ne_nil_of_length_pos ?_, isDigit_of_mem_take⟩
  rw [List.length_take]
  omega

theorem numberLength_digit {c : Char} (hc : c.isDigit) (s : Text) : numberLength (c :: s) ≠ 0 := by
  have hdigits : 0 < digitsLength (c :: s) := by simp [digitsLength, List.takeWhile_cons_of_pos hc]
  rw [numberLength]
  omega

theorem numberLength_point (s : Text) : numberLength ('.' :: s) = fractionLength ('.' :: s) := by
  have hdigits : digitsLength ('.' :: s) = 0 := by simp [digitsLength]
  rw [numberLength, hdigits, List.drop_zero, Nat.zero_add]

theorem take_numberLength {s : Text} (h : numberLength s ≠ 0) :
    s.take (numberLength s) ∈ number ∧ numberLength s ≤ s.length := by
  have hle := digitsLength_le s
  obtain hf | ⟨r, hr, hdigits, hf⟩ := fractionLength_cases (s.drop (digitsLength s))
  · rw [numberLength, hf, Nat.add_zero] at h ⊢
    exact ⟨.inl (take_digitsLength h), hle⟩
  · have hlen := congrArg List.length hr
    have hle' := digitsLength_le r
    rw [List.length_drop, List.length_cons] at hlen
    rw [numberLength, hf, List.take_add, hr, Nat.add_comm 1, List.take_succ_cons]
    refine ⟨.inr (Language.append_mem_mul (mem_char_kstar.mpr isDigit_of_mem_take) ?_), by omega⟩
    exact Language.append_mem_mul (a := ['.']) rfl (take_digitsLength hdigits)

theorem numberLength_append {u : Text} (hu : u ∈ number) (v : Text) :
    u.length ≤ numberLength (u ++ v) := by
  rcases hu with hu | hu
  · have := length_le_takeWhile (mem_char_mul_kstar.mp hu).2 v
    exact this.trans (Nat.le_add_right _ _)
  · obtain ⟨a, ha, w, hw, rfl⟩ := Language.mem_mul.mp hu
    obtain ⟨x, rfl, b, hb, rfl⟩ := Language.mem_mul.mp hw
    obtain ⟨hne, hb⟩ := mem_char_mul_kstar.mp hb
    have hdigits : digitsLength (a ++ '.' :: (b ++ v)) = a.length :=
      congrArg List.length (takeWhile_eq (mem_char_kstar.mp ha) (by simp))
    have hlong : b.length ≤ digitsLength (b ++ v) := length_le_takeWhile hb v
    have hpos := List.length_pos_iff.mpr hne
    have hfraction : fractionLength ('.' :: (b ++ v)) = 1 + digitsLength (b ++ v) :=
      if_neg (by omega)
    have heq : a ++ (".".toList ++ b) ++ v = a ++ '.' :: (b ++ v) := by simp
    rw [heq, numberLength, hdigits, List.drop_left, hfraction]
    simp
    omega

theorem longestMatch_number {s : Text} (h : numberLength s ≠ 0) :
    LongestMatch number (s.take (numberLength s)) (s.drop (numberLength s)) := by
  have htake := take_numberLength h
  exact longestMatch_take htake.1 htake.2 fun u v hu hs => hs ▸ numberLength_append hu v

/-! Strings. -/

section
variable {q : Char}

theorem mem_char {p : Char → Bool} {c : Char} : [c] ∈ char p ↔ p c := by
  constructor
  · rintro ⟨d, hd, h⟩
    exact (List.cons.inj h).1 ▸ hd
  · exact fun h => ⟨c, h, rfl⟩

theorem continuation_le : continuation ≤ stringItem q := le_sup_right.trans le_sup_left

theorem escape_le : escape ≤ stringItem q := le_sup_right

theorem isNewline_of_not_escape {c : Char} {s : Text} (h : escapeLength ('\\' :: c :: s) = 0) :
    isNewline c := by
  obtain _ | ⟨x, hx, hpos⟩ | ⟨d, x, hx, hd, hn⟩ := escapeLength_cases ('\\' :: c :: s)
  · by_contra hn
    have hn := Bool.eq_false_iff.mpr hn
    cases hc : isHexDigit c with
    | true =>
      have hpos := hexLength_append (d := [c]) (by simp) (by simpa using hc) s
      have := escapeLength_hex hpos
      simp at this
      omega
    | false =>
      rw [escapeLength_plain hc hn] at h
      exact absurd h (by decide)
  · obtain ⟨-, rfl⟩ := List.cons.inj hx
    rw [escapeLength_hex hpos] at h
    omega
  · obtain ⟨-, hx⟩ := List.cons.inj hx
    obtain ⟨rfl, rfl⟩ := List.cons.inj hx
    rw [escapeLength_plain hd hn] at h
    exact absurd h (by decide)

/-- What a backslash keeps in a string, if anything follows. -/
theorem take_stringEscapeLength {c : Char} {s : Text} :
    ('\\' :: c :: s).take (stringEscapeLength ('\\' :: c :: s)) ∈ stringItem q ∧
      stringEscapeLength ('\\' :: c :: s) ≤ ('\\' :: c :: s).length := by
  unfold stringEscapeLength
  split
  next h =>
    obtain ⟨-, h⟩ := List.cons.inj h
    obtain ⟨rfl, rfl⟩ := List.cons.inj h
    have hmem : "\\\r\n".toList ∈ continuation :=
      Language.append_mem_mul (a := "\\".toList) (b := "\r\n".toList) rfl (.inr rfl)
    exact ⟨mem_of_le continuation_le hmem, by simp⟩
  next h =>
    obtain ⟨-, h⟩ := List.cons.inj h
    obtain ⟨rfl, rfl⟩ := List.cons.inj h
    split
    next hn =>
      have hmem : ['\\', c] ∈ continuation :=
        Language.append_mem_mul (a := "\\".toList) (b := [c]) rfl (.inl (mem_char.mpr hn))
      exact ⟨mem_of_le continuation_le hmem, by simp⟩
    next hn =>
      have htake := take_escapeLength (s := '\\' :: c :: s) fun h => hn (isNewline_of_not_escape h)
      exact ⟨mem_of_le escape_le htake.1, htake.2⟩
  next h => exact absurd rfl (h c s)

theorem append_mem_kstar {u v : Text} {K : Language Char} (hu : u ∈ K) (hv : v ∈ K∗) :
    u ++ v ∈ K∗ := mem_of_le mul_kstar_le_kstar (Language.append_mem_mul hu hv)

/-- What the measure of the rest of a string says about it. -/
structure TailSpec (q : Char) (s : Text) (n : Nat) (e : Ending) : Prop where
  le : n ≤ s.length
  closed : e = .closed → ∃ w ∈ (stringItem q)∗, s.take n = w ++ [q]
  broken : e = .broken → s.take n ∈ (stringItem q)∗ ∧ ∃ c ∈ (s.drop n).head?, isNewline c
  unclosed : e = .unclosed → s.take n ∈ (stringItem q)∗ * opt (exactly "\\") ∧ n = s.length

/-- An item more at the front. -/
theorem TailSpec.append {k n : Nat} {e : Ending} {s : Text} (hk : k ≤ s.length)
    (hu : s.take k ∈ stringItem q) (h : TailSpec q (s.drop k) n e) : TailSpec q s (k + n) e := by
  obtain ⟨hle, hclosed, hbroken, hunclosed⟩ := h
  rw [List.length_drop] at hle hunclosed
  refine ⟨by omega, fun he => ?_, fun he => ?_, fun he => ?_⟩
  · obtain ⟨w, hw, htake⟩ := hclosed he
    exact ⟨s.take k ++ w, append_mem_kstar hu hw, by rw [List.take_add, htake, List.append_assoc]⟩
  · obtain ⟨hw, hnewline⟩ := hbroken he
    rw [List.take_add]
    exact ⟨append_mem_kstar hu hw, by rwa [List.drop_drop] at hnewline⟩
  · obtain ⟨hw, hn⟩ := hunclosed he
    have hle : stringItem q * ((stringItem q)∗ * opt (exactly "\\")) ≤
        (stringItem q)∗ * opt (exactly "\\") := by
      rw [← mul_assoc]
      exact mul_le_mul_left mul_kstar_le_kstar _
    rw [List.take_add]
    exact ⟨mem_of_le hle (Language.append_mem_mul hu hw), by omega⟩

theorem stringTail_spec (q : Char) (s : Text) : TailSpec q s (stringTail q s).1 (stringTail q s).2 := by
  have hnil : [] ∈ (stringItem q)∗ := Language.nil_mem_kstar _
  fun_induction stringTail q s with
  | case1 =>
    refine ⟨le_rfl, by simp, by simp, fun _ => ⟨?_, rfl⟩⟩
    exact Language.append_mem_mul hnil (nil_mem_opt _)
  | case2 s => exact ⟨by simp, fun _ => ⟨[], hnil, rfl⟩, by simp, by simp⟩
  | case3 c s hc hn => exact ⟨by simp, by simp, fun _ => ⟨hnil, c, rfl, hn⟩, by simp⟩
  | case4 s hc hn tail ih =>
    cases s with
    | nil =>
      have htail : tail = (0, .unclosed) := by simp [tail, stringEscapeLength, stringTail]
      rw [htail]
      refine ⟨le_rfl, by simp, by simp, fun _ => ⟨?_, rfl⟩⟩
      exact Language.append_mem_mul hnil (.inr rfl)
    | cons c s =>
      obtain ⟨hu, hk⟩ := take_stringEscapeLength (q := q) (c := c) (s := s)
      exact ih.append hk hu
  | case5 c s hc hn hne tail ih =>
    refine TailSpec.append (s := c :: s) (by simp) (.inl (.inl ?_)) ih
    exact mem_char.mpr (by simp_all)

theorem stringTail_char {c : Char} (hc : c ≠ q) (hn : isNewline c = false) (he : c ≠ '\\')
    (s : Text) : (stringTail q (c :: s)).1 = 1 + (stringTail q s).1 := by
  rw [stringTail, if_neg hc, if_neg (by simp [hn]), if_neg he]

theorem stringTail_backslash (hq : isQuote q) (s : Text) : (stringTail q ('\\' :: s)).1 =
    stringEscapeLength ('\\' :: s) +
      (stringTail q (('\\' :: s).drop (stringEscapeLength ('\\' :: s)))).1 := by
  have hn : isNewline '\\' = false := by decide
  rw [stringTail, if_neg (ne_backslash_of_isQuote hq).symm, if_neg (by simp [hn]), if_pos rfl]

theorem stringTail_quote (s : Text) : (stringTail q (q :: s)).1 = 1 := by
  rw [stringTail, if_pos rfl]

/-- As with names, what is missed at the front makes nothing longer. -/
theorem stringTail_le_drop {j : Nat} {s : Text} (h : ∀ c ∈ s.take j, c ≠ '\\') :
    (stringTail q s).1 ≤ j + (stringTail q (s.drop j)).1 := by
  induction j generalizing s with
  | zero => simp
  | succ j ih =>
    cases s with
    | nil => simp [stringTail]
    | cons c s =>
      rw [List.take_succ_cons, List.forall_mem_cons] at h
      by_cases hc : c = q
      · rw [hc, stringTail_quote]
        omega
      · cases hn : isNewline c with
        | true =>
          rw [stringTail, if_neg hc, if_pos hn]
          exact Nat.zero_le _
        | false =>
          have := ih h.2
          rw [stringTail_char hc hn h.1, List.drop_succ_cons]
          omega

theorem escapeLength_newline {c : Char} (hc : isNewline c) (s : Text) :
    escapeLength ('\\' :: c :: s) = 0 := by
  simp [escapeLength, hc, not_isHexDigit_of_isBlank (isBlank_of_isNewline hc)]

theorem stringEscapeLength_eq {s : Text} (h : escapeLength s ≠ 0) :
    stringEscapeLength s = escapeLength s := by
  unfold stringEscapeLength
  split
  · exact absurd (escapeLength_newline (c := '\r') (by decide) _) h
  · split
    next hn => exact absurd (escapeLength_newline hn _) h
    · rfl
  next hs =>
    obtain he | ⟨x, rfl, hx⟩ | ⟨c, x, rfl, -, -⟩ := escapeLength_cases s
    · exact absurd he h
    · cases x with
      | nil => simp [hexLength] at hx
      | cons c x => exact absurd rfl (hs c x)
    · exact absurd rfl (hs c x)

/-- The measured escape is the longest one here too. -/
theorem stringEscapeLength_append {u : Text} (hu : u ∈ continuation + escape) (s : Text) :
    ∃ j, stringEscapeLength (u ++ s) = u.length + j ∧ ∀ c ∈ s.take j, c ≠ '\\' := by
  cases hu with
  | inl hu =>
    obtain ⟨b, rfl, n, hn | hn, rfl⟩ := Language.mem_mul.mp hu
    · obtain ⟨c, hc, rfl⟩ := hn
      show ∃ j, stringEscapeLength ('\\' :: c :: s) = 2 + j ∧ _
      unfold stringEscapeLength
      split
      next h =>
        obtain ⟨-, h⟩ := List.cons.inj h
        obtain ⟨-, rfl⟩ := List.cons.inj h
        exact ⟨1, rfl, by simp⟩
      next h =>
        obtain ⟨-, h⟩ := List.cons.inj h
        obtain ⟨rfl, -⟩ := List.cons.inj h
        exact ⟨0, if_pos hc, by simp⟩
      next h => exact absurd rfl (h c s)
    · obtain rfl := mem_exactly.mp hn
      exact ⟨0, rfl, by simp⟩
  | inr hu =>
    obtain ⟨j, hj, hs⟩ := escapeLength_append hu s
    have hpos := escape_pos hu
    exact ⟨j, by rw [stringEscapeLength_eq (by omega), hj], hs⟩

theorem head_eq_backslash {u : Text} (hu : u ∈ continuation + escape) : ∃ v, u = '\\' :: v := by
  rcases hu with hu | ⟨ds, b, rfl, -⟩ | ⟨c, -, -, rfl⟩
  · obtain ⟨b, rfl, n, -, rfl⟩ := Language.mem_mul.mp hu
    exact ⟨n, rfl⟩
  · exact ⟨_, rfl⟩
  · exact ⟨_, rfl⟩

theorem stringTail_append_item (hq : isQuote q) {u : Text} (hu : u ∈ stringItem q) (s : Text) :
    u.length + (stringTail q s).1 ≤ (stringTail q (u ++ s)).1 := by
  rw [stringItem, add_assoc] at hu
  rcases hu with ⟨c, hc, rfl⟩ | hu
  · obtain ⟨⟨hne, hn⟩, he⟩ : (c ≠ q ∧ isNewline c = false) ∧ c ≠ '\\' := by simpa using hc
    exact (stringTail_char hne hn he s).ge
  · obtain ⟨j, hj, hs⟩ := stringEscapeLength_append hu s
    obtain ⟨v, rfl⟩ := head_eq_backslash hu
    have hdrop := stringTail_le_drop (q := q) hs
    have htail := stringTail_backslash hq (v ++ s)
    rw [← List.cons_append, hj, List.drop_length_add_append] at htail
    omega

theorem stringTail_append (hq : isQuote q) {w : Text} (hw : w ∈ (stringItem q)∗) (s : Text) :
    w.length + (stringTail q s).1 ≤ (stringTail q (w ++ s)).1 := by
  refine kstar_induction (P := fun w => w.length + (stringTail q s).1 ≤ (stringTail q (w ++ s)).1)
    (by simp) (fun u v hu _ ih => ?_) hw
  have := stringTail_append_item hq hu (v ++ s)
  rw [List.append_assoc, List.length_append]
  omega

/-- No word that starts a string gets farther than the measure. -/
theorem length_le_stringTail (hq : isQuote q) {w s : Text}
    (hw : w ∈ closedString + openString * opt (exactly "\\")) (hp : w <+: q :: s) :
    w.length ≤ 1 + (stringTail q s).1 := by
  have hreach : ∀ {u x : Text}, u ∈ (stringItem q)∗ → s = u ++ x →
      u.length + (stringTail q x).1 ≤ (stringTail q s).1 := fun hu hs =>
    hs ▸ stringTail_append hq hu _
  obtain ⟨v, hv⟩ := hp
  rcases hw with ⟨p, u, -, hu, rfl⟩ | hw
  · obtain ⟨rfl, hs⟩ := List.cons.inj hv
    have hlen := hreach (x := p :: v) hu (hs.symm.trans (List.append_assoc u [p] v))
    rw [stringTail_quote] at hlen
    simp only [List.cons_append, List.length_cons, List.length_append, List.length_nil]
    omega
  · obtain ⟨x, ⟨p, u, -, hu, rfl⟩, e, he, rfl⟩ := Language.mem_mul.mp hw
    obtain ⟨rfl, hs⟩ := List.cons.inj hv
    have hlen := hreach (x := e ++ v) hu (hs.symm.trans (List.append_assoc u e v))
    have hend : e.length ≤ (stringTail p (e ++ v)).1 := by
      rcases he with he | he
      · obtain rfl : e = [] := he
        exact Nat.zero_le _
      · obtain rfl := mem_exactly.mp he
        have htail := stringTail_backslash hq v
        have hpos := stringEscapeLength_pos ('\\' :: v)
        have hone : "\\".toList ++ v = '\\' :: v := rfl
        rw [hone, htail]
        show 1 ≤ _
        omega
    simp only [List.cons_append, List.length_cons, List.length_append]
    omega

end

end Stylesheet
