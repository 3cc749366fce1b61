import Stylesheet.Proofs.BlurredScans
import Stylesheet.Proofs.Cropping
import Stylesheet.Proofs.Scanning
import Stylesheet.Proofs.Seams

/-! The texts of terms are measured as before where something else follows them: a blank, an
operator, a colon, or the end of a call or of a block. -/
namespace Stylesheet
open Computability Lexical Extent

/-- What may follow a term or a name that is written again. -/
def delimiters : List Char := [' ', ',', '/', ':', ')', '\x7d']

variable {s t x z : Text} {c d : Char} {k : Kind}

theorem delimited_of_delimiter (hd : d ∈ delimiters) (x : Text) : Delimited (d :: x) := by
  have hall : delimiters.all fun d => !isNameChar d && d != '\\' && d != '(' := by decide
  have hno := List.all_eq_true.mp hall d hd
  simp only [Bool.and_eq_true, Bool.not_eq_true', bne_iff_ne] at hno
  exact .cons hno.1.1 hno.1.2 hno.2

/-- No number goes on with a delimiter, and no unit starts with one. -/
theorem not_number_of_delimiter (hd : d ∈ delimiters) : d.isDigit = false ∧ d ≠ '.' ∧ d ≠ '%' ∧ d ≠ '-' := by
  have hall : delimiters.all fun d => !d.isDigit && d != '.' && d != '%' && d != '-' := by decide
  have hno := List.all_eq_true.mp hall d hd
  simp only [Bool.and_eq_true, Bool.not_eq_true', bne_iff_ne] at hno
  exact ⟨hno.1.1.1, hno.1.1.2, hno.1.2, hno.2⟩

/-! Names. A blank behind one may belong to an escape at its end, no other delimiter does. -/

theorem oneBlankLength_concat (hd : isBlank d = false) (s : Text) :
    oneBlankLength (s ++ [d]) = oneBlankLength s := by
  have hnewline : d ≠ '\n' := by
    rintro rfl
    exact absurd hd (by decide)
  match s with
  | [] => exact oneBlankLength_of_not_blank hd []
  | [c] => simp [oneBlankLength, hnewline]
  | b :: c :: s =>
    by_cases hpair : b = '\r' ∧ c = '\n'
    · obtain ⟨rfl, rfl⟩ := hpair
      rfl
    · simp only [List.cons_append, oneBlankLength]
      simp_all

theorem hexLength_concat (hd : isHexDigit d = false) (s : Text) :
    hexLength (s ++ [d]) = hexLength s := by
  by_cases hdrop : s.drop (hexLength s) = []
  · have hlen : s.length ≤ hexLength s := List.drop_eq_nil_iff.mp hdrop
    have hle := hexLength_le s
    have hdigits : ∀ c ∈ s, isHexDigit c := by
      have := isHexDigit_of_mem_take (x := s)
      rwa [List.take_of_length_le hlen] at this
    rw [hexLength_eq (by omega) hdigits (by simpa using hd)]
    omega
  · exact hexLength_append_of_drop hdrop

theorem escapeLength_concat (hhex : isHexDigit d = false) (hblank : isBlank d = false)
    (h : escapeLength s ≠ 0) : escapeLength (s ++ [d]) = escapeLength s := by
  obtain he | ⟨y, rfl, hpos⟩ | ⟨c, y, rfl, hc, hn⟩ := escapeLength_cases s
  · exact absurd he h
  · have hlen := hexLength_concat hhex y
    have hle : hexLength y ≤ y.length := (hexLength_le y).trans (min_le_right _ _)
    rw [List.cons_append, escapeLength_hex (hlen ▸ hpos), escapeLength_hex hpos, hlen,
      List.drop_append_of_le_length hle, oneBlankLength_concat hblank]
  · rw [List.cons_append, List.cons_append, escapeLength_plain hc hn, escapeLength_plain hc hn]

theorem isNameChar_of_isHexDigit (h : isHexDigit c) : isNameChar c := by
  rcases (isHexDigit_iff c).mp h with h | h | h
  · simp [isNameChar, (isDigit_iff c).mpr h]
  · exact isNameChar_of_isNameStart ((isNameStart_iff c).mpr (.inl (.inr (by omega))))
  · exact isNameChar_of_isNameStart ((isNameStart_iff c).mpr (.inl (.inl (by omega))))

theorem nameLength_concat (hname : isNameChar d = false) (hbackslash : d ≠ '\\')
    (hblank : isBlank d = false) (hs : nameLength s = s.length) :
    nameLength (s ++ [d]) = s.length := by
  have hhex : isHexDigit d = false := by
    by_contra hh
    simp [isNameChar_of_isHexDigit (by simpa using hh)] at hname
  fun_induction nameLength s with
  | case1 => exact nameLength_stop hname (escapeLength_of_ne hbackslash [])
  | case2 c s hc ih =>
    rw [List.length_cons] at hs ⊢
    rw [List.cons_append, nameLength_char hc, ih (by omega), Nat.add_comm]
  | case3 c s hc he => simp at hs
  | case4 c s hc he ih =>
    have hle : escapeLength (c :: s) ≤ (c :: s).length := (take_escapeLength he).2
    have hescape := escapeLength_concat hhex hblank he
    have hrest := ih (by rw [List.length_drop]; omega)
    rw [nameLength_escape (hescape ▸ he), hescape, List.drop_append_of_le_length hle, hrest,
      List.length_drop]
    omega

/-- The name before a delimiter, when a blank does not become part of it. -/
theorem nameLength_before (hd : d ∈ delimiters) (hs : nameLength s = s.length)
    (hblank : d = ' ' → nameLength (s ++ [' ']) = s.length) (x : Text) :
    nameLength (s ++ d :: x) = s.length := by
  have hlen : nameLength (s ++ [d]) = s.length := by
    by_cases hspace : d = ' '
    · subst hspace
      exact hblank rfl
    · have hall : delimiters.all fun d => d == ' ' || !isBlank d := by decide
      have hno := List.all_eq_true.mp hall d hd
      obtain ⟨hname, hbackslash, -⟩ := delimited_of_delimiter hd [] d rfl
      exact nameLength_concat hname hbackslash (by simpa [hspace] using hno) hs
  have hbackslash : d ≠ '\\' := (delimited_of_delimiter hd [] d rfl).2.1
  rw [List.append_cons, nameLength_append_of_drop, hlen]
  rw [hlen, List.drop_left]
  simpa using hbackslash

theorem nameLength_of_ident (hs : s ∈ ident) : nameLength s = s.length := by
  have hle := (take_nameLength s).2
  have hge := nameLength_append (mem_of_le ident_le_names hs) []
  rw [List.append_nil] at hge
  omega

theorem measured_ident_before (hs : s ∈ ident) (hd : d ∈ delimiters)
    (hblank : d = ' ' → nameLength (s ++ [' ']) = s.length) (x : Text) :
    Measured .ident s (d :: x) := by
  have hlen := nameLength_before hd (nameLength_of_ident hs) hblank x
  have hne : identLength (s ++ d :: x) ≠ 0 := by
    have := identLength_append hs (d :: x)
    omega
  cases s with
  | nil => exact absurd (identLength_append hs []).1 (by simp)
  | cons c s =>
    have hopen : ((c :: s ++ d :: x).drop (c :: s).length).head? ≠ some '(' := by
      rw [List.drop_left]
      exact fun h => (delimited_of_delimiter hd x '(' h).2.2 rfl
    exact .of_length ((measure_word hne).trans (ofWord_ident hlen hopen))

/-! Numbers, with their units. -/

theorem numberLength_before {n : Text} (hn : n ∈ number)
    (hz : ∀ c ∈ z.head?, c.isDigit = false ∧ c ≠ '.') : numberLength (n ++ z) = n.length := by
  have hlow := numberLength_append hn z
  by_contra hne
  have hlong : n.length < numberLength (n ++ z) := by omega
  obtain ⟨hmem, hle⟩ := take_numberLength (s := n ++ z) (by omega)
  cases z with
  | nil =>
    rw [List.append_nil] at hle hlong
    omega
  | cons c z =>
    have hc : c ∈ (n ++ c :: z).take (numberLength (n ++ c :: z)) := by
      rw [List.mem_take_iff_getElem]
      exact ⟨n.length, by simp; omega, by simp⟩
    have := mem_number hmem c hc
    simp [hz c rfl] at this

theorem head_of_mem_number {n : Text} (hn : n ∈ number) : ∃ c m, n = c :: m ∧ (c.isDigit ∨ c = '.') := by
  have hne : n ≠ [] := by
    rintro rfl
    rcases hn with hn | hn
    · exact (mem_char_mul_kstar.mp hn).1 rfl
    · obtain ⟨-, h⟩ := nil_mem_mul.mp hn
      exact absurd (mem_exactly.mp (nil_mem_mul.mp h).1) (by decide)
  obtain ⟨c, m, rfl⟩ := List.exists_cons_of_ne_nil hne
  exact ⟨c, m, rfl, mem_number hn c (by simp)⟩

theorem measure_number (hc : c.isDigit ∨ c = '.') (hs : numberLength (c :: s) ≠ 0) :
    Extent.measure c s = ofNumber (c :: s) := by
  rcases hc with hc | rfl
  · have hblank : isBlank c = false := Bool.eq_false_iff.mpr fun hb => by
      rcases (isBlank_iff c).mp hb with rfl | rfl | rfl | rfl | rfl <;> exact absurd hc (by decide)
    have hquote : isQuote c = false := Bool.eq_false_iff.mpr fun hq => by
      rcases (isQuote_iff c).mp hq with rfl | rfl <;> exact absurd hc (by decide)
    unfold Extent.measure
    rw [if_neg (by simp [hblank]), if_neg (by simp [hquote]), if_pos hc]
  · rw [numberLength_point] at hs
    rw [measure_point, if_neg hs]

theorem unitKind_of_spelling {u : Text} (hu : u ∈ spelling unitNames k) : unitKind u = k := by
  have hall : ∀ s ∈ unitNames k, (units.lookup s).getD .dimension = k := by
    cases k <;> decide
  exact hall (foldCase u) hu.2

theorem identLength_unit {u : Text} (hu : u ∈ spelling unitNames k)
    (hz : ∀ c ∈ z.head?, isNameChar c = false ∧ c ≠ '\\') : identLength (u ++ z) = u.length := by
  have hall : (unitNames k).all fun s => s.all isNameChar := by
    cases k <;> decide
  have hplain : ∀ c ∈ u, isNameChar c := by
    intro c hc
    rw [← caseBlind_isNameChar c]
    exact List.all_eq_true.mp (List.all_eq_true.mp hall _ hu.2) _ (List.mem_map_of_mem hc)
  have hname := nameLength_plain hplain hz
  have hle := identLength_append hu.1 z
  have : identLength (u ++ z) ≤ nameLength (u ++ z) := by
    simp only [identLength]
    split_ifs <;> omega
  omega

theorem identLength_stop (hc : isNameChar c = false) (hbackslash : c ≠ '\\') (s : Text) :
    identLength (c :: s) = 0 := by
  have hhyphen : c ≠ '-' := by
    rintro rfl
    exact absurd hc (by decide)
  have hstart : isNameStart c = false := by
    by_contra hs
    simp [isNameChar_of_isNameStart (by simpa using hs)] at hc
  rw [identLength_of_ne (by simpa using hhyphen), startsName_of_ne hbackslash, if_neg (by simp [hstart])]

theorem suffix_cases {u : Text} (hk : k ∈ numericKinds) (hdim : k ≠ .dimension) (hu : u ∈ suffixOf k) :
    k = .number ∧ u = [] ∨ k = .percentage ∧ u = ['%'] ∨ u ∈ spelling unitNames k := by
  cases k
  case number => exact .inl ⟨rfl, hu⟩
  case percentage => exact .inr (.inl ⟨rfl, hu⟩)
  case dimension => exact absurd rfl hdim
  case ems | exs | length | angle | time | freq => exact .inr (.inr hu)
  all_goals exact absurd hk (by decide)

/-- A number with its unit or percent sign, before something that goes on with neither. -/
theorem ofNumber_before {n u : Text} (hn : n ∈ number) (hk : k ∈ numericKinds) (hdim : k ≠ .dimension)
    (hu : u ∈ suffixOf k) (hd : d ∈ delimiters) (x : Text) :
    numberLength (n ++ (u ++ d :: x)) = n.length ∧
      ofNumber (n ++ (u ++ d :: x)) = ofLength k (n ++ u).length := by
  obtain ⟨hdigit, hpoint, hpercent⟩ := not_number_of_delimiter hd
  have hdelimited := delimited_of_delimiter hd x
  obtain ⟨hname, hbackslash, -⟩ := hdelimited d rfl
  obtain ⟨rfl, rfl⟩ | ⟨rfl, rfl⟩ | hunit := suffix_cases hk hdim hu
  · have hnumber := numberLength_before (z := d :: x) hn (by simp [hdigit, hpoint])
    have hident := identLength_stop hname hbackslash x
    refine ⟨hnumber, ?_⟩
    simp [ofNumber, hnumber, hident, hpercent]
  · have hnumber := numberLength_before (z := '%' :: d :: x) hn (by simp)
    have hident := identLength_stop (c := '%') (by decide) (by decide) (d :: x)
    refine ⟨hnumber, ?_⟩
    simp [ofNumber, hnumber, hident]
  · obtain ⟨c, v, rfl, hc⟩ := head_of_mem_ident hunit.1
    have hnumber := numberLength_before (z := c :: v ++ d :: x) hn (by simpa using hc)
    have hident := identLength_unit hunit (z := d :: x) fun c hc =>
      ⟨(hdelimited c hc).1, (hdelimited c hc).2.1⟩
    refine ⟨hnumber, ?_⟩
    have hne : (c :: v).length ≠ 0 := by simp
    rw [ofNumber, hnumber, List.drop_left, hident, if_pos hne, List.take_left, unitKind_of_spelling hunit,
      List.length_append]

theorem measured_number_before (h : Measured k s t) (hk : k ∈ numericKinds) (hdim : k ≠ .dimension)
    (hd : d ∈ delimiters) (x : Text) : Measured k s (d :: x) := by
  have hother : k ∉ otherKinds := by
    revert hk
    cases k <;> decide
  obtain ⟨n, u, rfl, hu, hn, -⟩ := (h.scanned hother).numeric hk
  obtain ⟨c, m, rfl, hc⟩ := head_of_mem_number hn.1
  obtain ⟨hlen, hnumber⟩ := ofNumber_before hn.1 hk hdim hu hd x
  refine .of_length (t := m ++ u) ?_
  rw [List.append_assoc]
  exact (measure_number hc (by rw [← List.cons_append, hlen]; simp)).trans hnumber

/-! Colors and closed strings. -/

theorem measured_color_before (h : Measured .hash s t) (hc : isHexColor (s.drop 1))
    (hd : d ∈ delimiters) (x : Text) : Measured .hash s (d :: x) := by
  obtain ⟨_, rfl, n, hn, rfl⟩ := Language.mem_mul.mp (h.scanned (by decide)).longest.1
  have hdigits : ∀ c ∈ n, isHexDigit c := by
    simp only [isHexColor, Bool.and_eq_true] at hc
    exact List.all_eq_true.mp hc.2
  have hplain : n ∈ plainName := ⟨hn, fun hm => ne_backslash_of_isHexDigit (hdigits _ hm) rfl⟩
  exact measured_hash hplain (delimited_of_delimiter hd x)

theorem measured_closed {q : Char} (hq : isQuote q) (hs : stringTail q s = (s.length, .closed))
    (x : Text) : Measured .string (q :: s) x := by
  have htail : stringTail q (s ++ x) = (s.length, .closed) :=
    (stringTail_append_of_ended (by simp [hs])).trans hs
  refine .of_length ?_
  rw [measure_quote hq, ofString, htail]
  simp [ofLength]

/-! Addresses. -/

/-- Only words are addresses. -/
theorem measure_uri (h : (Extent.measure c s).kind = some .uri) : Extent.measure c s = ofWord (c :: s) := by
  have hnumber : ∀ t, (ofNumber t).kind ≠ some .uri := by
    intro t
    have hunit : ∀ u, unitKind u ≠ .uri := fun u => lookup_getD_ne (l := units) (by decide) (by decide) _
    unfold ofNumber
    dsimp only
    split_ifs <;> simp [ofLength, hunit]
  revert h
  unfold Extent.measure
  split
  · simp [ofLength]
  split
  · unfold ofString
    dsimp only
    split_ifs <;> simp
  split
  · exact fun h => absurd h (hnumber _)
  split
  · exact fun _ => rfl
  split
  case h_3 =>
    split_ifs
    all_goals simp [ofLength]
  case h_4 =>
    split_ifs
    · simp [ofLength]
    · exact fun h => absurd h (hnumber _)
  case h_6 =>
    have hat : ∀ u, atKind u ≠ .uri := fun u => lookup_getD_ne (l := atKeywords) (by decide) (by decide) _
    unfold ofAt
    dsimp only
    split_ifs <;> simp [ofLength, hat]
  case h_7 =>
    split <;> simp [ofLength]
  case h_10 =>
    unfold punctuation
    split <;> simp [ofLength]
  all_goals split_ifs <;> simp [ofLength]

theorem ofWord_uri (h : (ofWord s).kind = some .uri) : ∃ w z m, s = w ++ '(' :: z ∧
    foldCase w = "url".toList ∧ uriTail? z = some m ∧ ofWord s = ofLength .uri (4 + m) := by
  by_cases hopen : (s.drop (nameLength s)).head? = some '('
  · by_cases hurl : foldCase (s.take (nameLength s)) = "url".toList
    · obtain ⟨z, hz⟩ := List.head?_eq_some_iff.mp hopen
      have hword := ofWord_url rfl hopen hurl
      rw [hz, List.tail_cons] at hword
      have hlen : nameLength s = 3 := by
        have := congrArg List.length hurl
        have hle := (take_nameLength s).2
        simp [foldCase] at this
        omega
      cases hm : uriTail? z with
      | none =>
        rw [hword, hm] at h
        simp [ofLength] at h
      | some m =>
        refine ⟨s.take (nameLength s), z, m, ?_, hurl, hm, ?_⟩
        · rw [← hz, List.take_append_drop]
        · rw [hword, hm, hlen]
    · rw [ofWord_function rfl hopen hurl] at h
      simp [ofLength] at h
  · rw [ofWord_ident rfl hopen] at h
    simp [ofLength] at h

theorem measured_address {w u : Text} (hw : foldCase w = "url".toList)
    (hu : uriTail? u = some u.length) (x : Text) : Measured .uri (w ++ '(' :: u) x := by
  have hplain : ∀ c ∈ w, isNameChar c := by
    have hall : ("url".toList : Text).all isNameChar := by decide
    intro c hc
    rw [← caseBlind_isNameChar c]
    exact List.all_eq_true.mp hall _ (hw ▸ List.mem_map_of_mem hc)
  have hlen : w.length = 3 := by simpa [foldCase] using congrArg List.length hw
  have hname : nameLength (w ++ '(' :: (u ++ x)) = 3 :=
    (nameLength_plain hplain (by simp; decide)).trans hlen
  have hdrop : (w ++ '(' :: (u ++ x)).drop 3 = '(' :: (u ++ x) := List.drop_left' hlen
  have htake : (w ++ '(' :: (u ++ x)).take 3 = w := List.take_left' hlen
  have hword : ofWord (w ++ '(' :: (u ++ x)) = ofLength .uri (3 + 1 + u.length) := by
    rw [ofWord_url hname (by rw [hdrop]; rfl) (by rw [htake, hw]), hdrop, List.tail_cons,
      uriTail?_append hu]
  cases w with
  | nil => simp at hlen
  | cons c w =>
    have hstart : isNameStart c := by
      have hc : c.toLower = 'u' := (List.cons.inj hw).1
      rw [← caseBlind_isNameStart c, hc]
      decide
    refine .of_length (t := w ++ '(' :: u) ?_
    rw [List.append_assoc, List.cons_append, measure_startsName (by simp [startsName, hstart])]
    refine hword.trans (congrArg (ofLength .uri) ?_)
    rw [List.length_cons] at hlen
    rw [List.length_append, List.length_cons]
    omega

/-- An address is one whatever follows it. -/
theorem measured_uri_before (h : Measured .uri s t) (x : Text) : Measured .uri s x := by
  obtain ⟨c, r, hkind, rfl, -⟩ := h
  have hword := measure_uri hkind
  obtain ⟨w, z, m, heq, hw, hm, hlen⟩ := ofWord_uri (hword ▸ hkind)
  have hle : m ≤ z.length := by
    obtain ⟨n, -, hclose, rfl⟩ := uriTail?_eq_some.mp hm
    obtain ⟨v, hv⟩ := List.head?_eq_some_iff.mp hclose
    have := congrArg List.length hv
    rw [List.length_drop, List.length_cons] at this
    omega
  have hthree : w.length = 3 := by simpa [foldCase] using congrArg List.length hw
  have htext : c :: r.take (Extent.measure c r).more = w ++ '(' :: z.take m := by
    have hmore := more_ofLength (k := .uri) (n := 4 + m) (by omega)
    rw [hword, hlen, ← List.take_succ_cons, Nat.add_comm, hmore, heq,
      show 4 + m = w.length + (m + 1) by omega, List.take_length_add_append, List.take_succ_cons]
  rw [htext]
  refine measured_address hw ?_ x
  rw [List.length_take_of_le hle]
  exact uriTail?_of_append (x := z.drop m) (by rwa [List.take_append_drop]) (List.length_take_of_le hle).ge

/-! Signs, and what they may stand before. -/

theorem measured_minus (hmark : s.take 2 ≠ "->".toList) (hs : startsName s = false) :
    Measured .minus ['-'] s := by
  refine .of_length (t := []) ?_
  rw [List.nil_append, measure_hyphen, if_neg hmark, if_neg (by simp [hs])]
  rfl

end Stylesheet
