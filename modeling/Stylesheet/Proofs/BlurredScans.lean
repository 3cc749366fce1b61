import Stylesheet.Proofs.Blur
import Stylesheet.Proofs.Appending

/-! How far the parts of a lexeme reach does not depend on the case of the letters in them. -/
namespace Stylesheet

theorem toLower_toLower (c : Char) : c.toLower.toLower = c.toLower := by
  apply Char.toNat_inj.mp
  have h := toNat_toLower c
  rw [toNat_toLower, if_neg (by split at h <;> omega)]

/-- Capital letters are taken for small ones. -/
def Blur.letters : Blur := ⟨Char.toLower, id, toLower_toLower⟩

/-! Classes of characters. -/

theorem toLower_beq {d : Char} (hd : d.isAlpha = false) (c : Char) : (c.toLower == d) = (c == d) := by
  rw [Bool.eq_iff_iff, beq_iff_eq, beq_iff_eq]
  exact letter_eq_iff .letters hd

theorem caseBlind_isNewline : CaseBlind isNewline := fun c => by
  simp only [isNewline, toLower_beq (show '\n'.isAlpha = false by rfl),
    toLower_beq (show '\r'.isAlpha = false by rfl), toLower_beq (show '\x0c'.isAlpha = false by rfl)]

theorem caseBlind_isBlank : CaseBlind isBlank := fun c => by
  simp only [isBlank, caseBlind_isNewline c, toLower_beq (show ' '.isAlpha = false by rfl),
    toLower_beq (show '\t'.isAlpha = false by rfl)]

theorem caseBlind_isDigit : CaseBlind Char.isDigit := fun c => by
  rw [Bool.eq_iff_iff, isDigit_iff, isDigit_iff, toNat_toLower]
  split <;> omega

theorem caseBlind_isNameStart : CaseBlind isNameStart := fun c => by
  have halpha : c.toLower.isAlpha = c.isAlpha := by
    rw [Bool.eq_iff_iff, isAlpha_iff, isAlpha_iff, toNat_toLower]
    split <;> omega
  have hbeyond : 128 ≤ c.toLower.toNat ↔ 128 ≤ c.toNat := by
    rw [toNat_toLower]
    split <;> omega
  simp only [isNameStart, halpha, hbeyond, toLower_beq (show '_'.isAlpha = false by rfl)]

theorem caseBlind_isNameChar : CaseBlind isNameChar := fun c => by
  simp only [isNameChar, caseBlind_isNameStart c, caseBlind_isDigit c,
    toLower_beq (show '-'.isAlpha = false by rfl)]

variable (v : Blur)

@[simp] theorem isNewline_letter (c : Char) : isNewline (v.letter c) = isNewline c :=
  caseBlind_isNewline.letter v c

@[simp] theorem isBlank_letter (c : Char) : isBlank (v.letter c) = isBlank c :=
  caseBlind_isBlank.letter v c

@[simp] theorem isHexDigit_letter (c : Char) : isHexDigit (v.letter c) = isHexDigit c :=
  caseBlind_isHexDigit.letter v c

@[simp] theorem isQuote_letter (c : Char) : isQuote (v.letter c) = isQuote c :=
  caseBlind_isQuote.letter v c

@[simp] theorem isNameStart_letter (c : Char) : isNameStart (v.letter c) = isNameStart c :=
  caseBlind_isNameStart.letter v c

@[simp] theorem isNameChar_letter (c : Char) : isNameChar (v.letter c) = isNameChar c :=
  caseBlind_isNameChar.letter v c

/-! Texts. -/

theorem blur_nil : blur v ([] : Text) = [] := rfl

theorem blur_cons (c : Char) (s : Text) : blur v (c :: s) = v.letter c :: blur v s := rfl

theorem take_blur (n : Nat) (s : Text) : (blur v s).take n = blur v (s.take n) := List.map_take.symm

theorem drop_blur (n : Nat) (s : Text) : (blur v s).drop n = blur v (s.drop n) := List.map_drop.symm

theorem tail_blur (s : Text) : (blur v s).tail = blur v s.tail := List.map_tail.symm

theorem head?_blur {d : Char} (hd : d.isAlpha = false) (s : Text) :
    (blur v s).head? = some d ↔ s.head? = some d := by
  cases s with
  | nil => rfl
  | cons c s => simp [blur_cons, letter_eq_iff v hd]

theorem length_takeWhile_blur {p : Char → Bool} (h : CaseBlind p) (s : Text) :
    ((blur v s).takeWhile p).length = (s.takeWhile p).length := by
  have hp : p ∘ v.letter = p := funext fun c => h.letter v c
  show ((s.map v.letter).takeWhile p).length = _
  rw [List.takeWhile_map, List.length_map, hp]

/-! Escapes and names. -/

theorem blanksLength_blur (s : Text) : blanksLength (blur v s) = blanksLength s :=
  length_takeWhile_blur v caseBlind_isBlank s

theorem oneBlankLength_blur (s : Text) : oneBlankLength (blur v s) = oneBlankLength s := by
  match s with
  | [] => rfl
  | [c] => simp [blur, oneBlankLength]
  | c :: d :: s =>
    by_cases hpair : c = '\r' ∧ d = '\n'
    · obtain ⟨rfl, rfl⟩ := hpair
      rw [blur_cons, blur_cons, letter_eq v rfl, letter_eq v rfl]
      rfl
    · have hpair' : ¬ (v.letter c = '\r' ∧ v.letter d = '\n') := by
        rwa [letter_eq_iff v rfl, letter_eq_iff v rfl]
      simp only [blur_cons, oneBlankLength]
      simp_all

theorem hexLength_blur (s : Text) : hexLength (blur v s) = hexLength s := by
  rw [hexLength, take_blur, length_takeWhile_blur v caseBlind_isHexDigit, hexLength]

theorem escapeLength_blur (s : Text) : escapeLength (blur v s) = escapeLength s := by
  obtain he | ⟨x, rfl, hpos⟩ | ⟨c, x, rfl, hc, hn⟩ := escapeLength_cases s
  · match s with
    | [] => rfl
    | c :: s =>
      by_cases hc : c = '\\'
      · subst hc
        rw [blur_cons, letter_eq v rfl]
        cases s with
        | nil => rfl
        | cons d s =>
          rw [he, blur_cons, escapeLength_eq_zero_iff, isNewline_letter]
          exact escapeLength_eq_zero_iff.mp he
      · rw [blur_cons, escapeLength_of_ne (mt (letter_eq_iff v rfl).mp hc), escapeLength_of_ne hc]
  · rw [blur_cons, letter_eq v rfl, escapeLength_hex hpos, escapeLength_hex (by rwa [hexLength_blur]),
      hexLength_blur, drop_blur, oneBlankLength_blur]
  · rw [blur_cons, blur_cons, letter_eq v rfl, escapeLength_plain hc hn,
      escapeLength_plain (by rwa [isHexDigit_letter]) (by rwa [isNewline_letter])]

theorem nameLength_blur (s : Text) : nameLength (blur v s) = nameLength s := by
  fun_induction nameLength s with
  | case1 => rw [blur_nil, nameLength]
  | case2 c s hc ih => rw [blur_cons, nameLength_char (by rwa [isNameChar_letter]), ih]
  | case3 c s hc he =>
    rw [blur_cons, nameLength_stop (by simpa using hc) (by rw [← blur_cons, escapeLength_blur, he])]
  | case4 c s hc he ih =>
    rw [nameLength_escape (by rwa [escapeLength_blur]), escapeLength_blur, drop_blur, ih]

theorem startsName_blur (s : Text) : startsName (blur v s) = startsName s := by
  cases s with
  | nil => rfl
  | cons c s => rw [blur_cons, startsName, isNameStart_letter, ← blur_cons, escapeLength_blur, startsName]

theorem identLength_blur (s : Text) : identLength (blur v s) = identLength s := by
  have hhead := head?_blur v (show '-'.isAlpha = false by rfl) s
  by_cases hs : s.head? = some '-'
  · simp only [identLength, if_pos hs, if_pos (hhead.mpr hs), tail_blur, startsName_blur, nameLength_blur]
  · simp only [identLength, if_neg hs, if_neg (mt hhead.mp hs), startsName_blur, nameLength_blur]

/-! Numbers. -/

theorem digitsLength_blur (s : Text) : digitsLength (blur v s) = digitsLength s :=
  length_takeWhile_blur v caseBlind_isDigit s

theorem fractionLength_blur (s : Text) : fractionLength (blur v s) = fractionLength s := by
  cases s with
  | nil => rfl
  | cons c s =>
    by_cases hc : c = '.'
    · subst hc
      rw [blur_cons, letter_eq v rfl, fractionLength, digitsLength_blur, fractionLength]
    · rw [blur_cons, fractionLength_of_ne (mt (letter_eq_iff v rfl).mp hc), fractionLength_of_ne hc]

theorem numberLength_blur (s : Text) : numberLength (blur v s) = numberLength s := by
  rw [numberLength, digitsLength_blur, drop_blur, fractionLength_blur, numberLength]

/-! Strings and comments. -/

theorem letter_newline {c : Char} (h : isNewline c) : v.letter c = c := by
  simp only [isNewline, Bool.or_eq_true, beq_iff_eq] at h
  rcases h with (rfl | rfl) | rfl <;> exact letter_eq v rfl

theorem stringEscapeLength_blur (s : Text) :
    stringEscapeLength ('\\' :: blur v s) = stringEscapeLength ('\\' :: s) := by
  cases s with
  | nil => rfl
  | cons c s =>
    cases hn : isNewline c with
    | false =>
      have hne : escapeLength ('\\' :: c :: s) ≠ 0 := mt escapeLength_eq_zero_iff.mp (by simp [hn])
      have hblur := escapeLength_blur v ('\\' :: c :: s)
      rw [blur_cons, letter_eq v rfl] at hblur
      rw [stringEscapeLength_eq hne, stringEscapeLength_eq (hblur ▸ hne), hblur]
    | true =>
      rw [blur_cons, letter_newline v hn]
      cases s with
      | nil => rfl
      | cons d s =>
        have hline : v.letter d = '\n' ↔ d = '\n' := letter_eq_iff v rfl
        rw [blur_cons]
        by_cases hpair : c = '\r' ∧ d = '\n'
        · obtain ⟨rfl, rfl⟩ := hpair
          rw [letter_eq v rfl]
          rfl
        · simp_all [stringEscapeLength]

theorem stringTail_blur {q : Char} (hq : q.isAlpha = false) (s : Text) :
    stringTail q (blur v s) = stringTail q s := by
  fun_induction stringTail q s with
  | case1 => rw [blur_nil, stringTail]
  | case2 s => rw [blur_cons, stringTail, if_pos (letter_eq v hq)]
  | case3 c s hc hn =>
    rw [blur_cons, stringTail, if_neg (mt (letter_eq_iff v hq).mp hc), isNewline_letter, if_pos hn]
  | case4 s hc hn tail ih =>
    rw [blur_cons, letter_eq v rfl, stringTail, if_neg hc, if_neg hn, if_pos rfl, stringEscapeLength_blur]
    have hdrop : ('\\' :: blur v s).drop (stringEscapeLength ('\\' :: s)) =
        blur v (('\\' :: s).drop (stringEscapeLength ('\\' :: s))) := by
      rw [← drop_blur, blur_cons, letter_eq v rfl]
    rw [hdrop, ih]
  | case5 c s hc hn he tail ih =>
    rw [blur_cons, stringTail, if_neg (mt (letter_eq_iff v hq).mp hc), isNewline_letter, if_neg hn,
      if_neg (mt (letter_eq_iff v rfl).mp he), ih]

theorem commentTail_blur (s : Text) : commentTail (blur v s) = commentTail s := by
  fun_induction commentTail s with
  | case1 => rfl
  | case2 s => rw [blur_cons, blur_cons, letter_eq v rfl, letter_eq v rfl, commentTail]
  | case3 c s hc tail ih =>
    have hc' : ∀ t, v.letter c = '*' → blur v s = '/' :: t → False := by
      intro t hstar ht
      have hs := (head?_blur v (show '/'.isAlpha = false by rfl) s).mp (by rw [ht]; rfl)
      obtain ⟨r, rfl⟩ := List.head?_eq_some_iff.mp hs
      exact hc r ((letter_eq_iff v rfl).mp hstar) rfl
    rw [blur_cons, commentTail.eq_3 _ _ hc', ih]

/-! Addresses. -/

theorem quotedAddressTail?_blur {q : Char} (hq : q.isAlpha = false) (s : Text) :
    quotedAddressTail? q (blur v s) = quotedAddressTail? q s := by
  fun_induction quotedAddressTail? q s with
  | case1 => rfl
  | case2 =>
    rw [blur_cons, letter_eq v rfl]
    rfl
  | case3 c s ih => rw [blur_cons, blur_cons, letter_eq v rfl, quotedAddressTail?, ih]
  | case4 s h₁ h₂ =>
    rw [blur_cons, letter_eq v hq, quotedAddressTail?_char (ne_backslash_of_cases h₁ h₂), if_pos rfl]
  | case5 c s h₁ h₂ hc hn =>
    have hne := mt (letter_eq_iff v rfl).mp (ne_backslash_of_cases h₁ h₂)
    rw [blur_cons, quotedAddressTail?_char hne, if_neg (mt (letter_eq_iff v hq).mp hc),
      isNewline_letter, if_pos hn]
  | case6 c s h₁ h₂ hc hn ih =>
    have hne := mt (letter_eq_iff v rfl).mp (ne_backslash_of_cases h₁ h₂)
    rw [blur_cons, quotedAddressTail?_char hne, if_neg (mt (letter_eq_iff v hq).mp hc),
      isNewline_letter, if_neg hn, ih]

theorem bareAddressLength_blur (s : Text) : bareAddressLength (blur v s) = bareAddressLength s := by
  have hstop : ∀ c, (v.letter c = '(' || v.letter c = ')' || isQuote c || isBlank c) =
      (c = '(' || c = ')' || isQuote c || isBlank c) := fun c => by
    simp only [letter_eq_iff v (show '('.isAlpha = false by rfl),
      letter_eq_iff v (show ')'.isAlpha = false by rfl)]
  fun_induction bareAddressLength s with
  | case1 => rfl
  | case2 =>
    rw [blur_cons, letter_eq v rfl]
    rfl
  | case3 c s ih => rw [blur_cons, blur_cons, letter_eq v rfl, bareAddressLength, ih]
  | case4 c s h₁ h₂ hc =>
    have hne := mt (letter_eq_iff v rfl).mp (ne_backslash_of_cases h₁ h₂)
    rw [blur_cons, bareAddressLength_char hne, isQuote_letter, isBlank_letter, hstop, if_pos hc]
  | case5 c s h₁ h₂ hc ih =>
    have hne := mt (letter_eq_iff v rfl).mp (ne_backslash_of_cases h₁ h₂)
    rw [blur_cons, bareAddressLength_char hne, isQuote_letter, isBlank_letter, hstop, if_neg hc, ih]

theorem addressLength?_blur (s : Text) : addressLength? (blur v s) = addressLength? s := by
  cases s with
  | nil => rfl
  | cons c s =>
    rw [blur_cons, addressLength?, addressLength?, isQuote_letter, ← blur_cons, bareAddressLength_blur]
    split
    next hq =>
      have hc := not_isAlpha_of_isQuote hq
      rw [letter_eq v hc, quotedAddressTail?_blur v hc]
    next => rfl

theorem uriTail?_blur (s : Text) : uriTail? (blur v s) = uriTail? s := by
  simp only [uriTail?, blanksLength_blur, drop_blur, addressLength?_blur,
    head?_blur v (show ')'.isAlpha = false by rfl)]

/-! `!important`. -/

theorem spacingLength_blur (s : Text) : spacingLength (blur v s) = spacingLength s := by
  have hopen : ∀ {c : Char} {s : Text}, v.letter c = '/' ∧ (blur v s).head? = some '*' ↔
      c = '/' ∧ s.head? = some '*' := by
    intro c s
    rw [letter_eq_iff v rfl, head?_blur v rfl]
  fun_induction spacingLength s with
  | case1 => rw [blur_nil, spacingLength]
  | case2 c s hb ih => rw [blur_cons, spacingLength, isBlank_letter, if_pos hb, ih]
  | case3 c s hb hc tail ht ih =>
    have hc' := hopen.mpr hc
    rw [blur_cons, spacingLength, isBlank_letter, if_neg hb, if_pos hc', tail_blur, commentTail_blur]
    dsimp only
    rw [if_pos ht, ← blur_cons, drop_blur, ih]
  | case4 c s hb hc tail ht =>
    have hc' := hopen.mpr hc
    rw [blur_cons, spacingLength, isBlank_letter, if_neg hb, if_pos hc', tail_blur, commentTail_blur]
    exact if_neg ht
  | case5 c s hb hc =>
    rw [blur_cons, spacingLength, isBlank_letter, if_neg hb, if_neg (mt hopen.mp hc)]

theorem importantTail?_blur (s : Text) : importantTail? (blur v s) = importantTail? s := by
  have hany : ∀ t : Text, (blur v t).head?.any isNameChar = t.head?.any isNameChar := by
    intro t
    cases t <;> simp [blur]
  simp only [importantTail?, spacingLength_blur, drop_blur, take_blur, foldCase_blur, hany]

end Stylesheet
