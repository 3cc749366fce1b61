import Stylesheet.Proofs.LongestStrings
import Stylesheet.Proofs.Tiling

/-! Every token is the longest match of the production of its kind where it stands. -/
namespace Stylesheet
open Computability Lexical

/-- The kinds that the productions leave out. -/
def otherKinds : List Kind := [.uri, .importantSym, .delim, .eof]

/-- What a token of the kind `k` and the text `t` is, when `rest` follows it. -/
structure Scanned (k : Kind) (t rest : Text) : Prop where
  longest : LongestMatch (production k) t rest
  /-- The number is as long as it can be, and so is what follows it. -/
  numeric : k ∈ numericKinds → ∃ n u, t = n ++ u ∧ u ∈ suffixOf k ∧
    LongestMatch number n (u ++ rest) ∧ LongestMatch suffix u rest
  ident : k = .ident → rest.head? ≠ some '('
  string : k = .string → t ∈ closedString ∨ rest = []
  invalid : k = .invalid → ∃ c ∈ rest.head?, isNewline c

theorem Scanned.of_longest {k : Kind} {t rest : Text} (h : LongestMatch (production k) t rest)
    (hk : k ∉ .ident :: .string :: .invalid :: numericKinds) : Scanned k t rest where
  longest := h
  numeric hn := absurd (by simp [hn]) hk
  ident he := absurd (by simp [he]) hk
  string he := absurd (by simp [he]) hk
  invalid he := absurd (by simp [he]) hk

/-! Numbers with what follows them. -/

theorem head_of_mem_suffix {u : Text} (hu : u ∈ suffix) (hne : u ≠ []) :
    ∃ c v, u = c :: v ∧ c.isDigit = false ∧ c ≠ '.' := by
  rcases hu with (hu | hu) | hu
  · exact absurd hu hne
  · exact ⟨'%', [], mem_exactly.mp hu, by decide, by decide⟩
  · exact head_of_mem_ident hu

theorem mem_number {n : Text} (hn : n ∈ number) : ∀ c ∈ n, c.isDigit ∨ c = '.' := by
  rcases hn with hn | hn
  · exact fun c hc => .inl ((mem_char_mul_kstar.mp hn).2 c hc)
  · obtain ⟨a, ha, w, hw, rfl⟩ := Language.mem_mul.mp hn
    obtain ⟨x, rfl, b, hb, rfl⟩ := Language.mem_mul.mp hw
    have ha := mem_char_kstar.mp ha
    have hb := (mem_char_mul_kstar.mp hb).2
    intro c hc
    rcases List.mem_append.mp hc with hc | hc
    · exact .inl (ha c hc)
    · rcases List.mem_append.mp hc with hc | hc
      · exact .inr (List.mem_singleton.mp hc)
      · exact .inl (hb c hc)

theorem longestMatch_suffixed {n u rest : Text} {K : Language Char}
    (hn : LongestMatch number n (u ++ rest)) (hu : LongestMatch suffix u rest) (hK : K ≤ suffix)
    (h : u ∈ K) : LongestMatch (number * K) (n ++ u) rest := by
  refine ⟨Language.append_mem_mul hn.1 h, fun w hw hp => ?_⟩
  obtain ⟨m, hm, v, hv, rfl⟩ := Language.mem_mul.mp hw
  rw [List.append_assoc] at hp
  have hmn : m <+: n ++ (u ++ rest) := (List.prefix_append m v).trans hp
  obtain ⟨x, rfl⟩ := List.prefix_of_prefix_length_le hmn (List.prefix_append n _) (hn.2 m hm hmn)
  rw [List.append_assoc, List.prefix_append_right_inj] at hp
  simp only [List.length_append]
  cases x with
  | nil =>
    have := hu.2 v (mem_of_le hK hv) hp
    omega
  | cons d x =>
    by_cases hne : v = []
    · rw [hne, List.length_nil, List.length_cons]
      omega
    -- What follows a number does not start with a character that could belong to it.
    · obtain ⟨c, v, rfl, hc, hpoint⟩ := head_of_mem_suffix (mem_of_le hK hv) hne
      obtain ⟨rfl, -⟩ := List.cons_prefix_cons.mp hp
      have := mem_number hn.1 c (by simp)
      simp [hc, hpoint] at this

theorem longestMatch_suffix_ident {s : Text} (h : identLength s ≠ 0) :
    LongestMatch suffix (s.take (identLength s)) (s.drop (identLength s)) := by
  obtain ⟨hmem, hmax⟩ := longestMatch_ident h
  obtain ⟨c, v, hv, -⟩ := head_of_mem_ident hmem
  refine ⟨.inr hmem, fun w hw hp => ?_⟩
  rcases hw with (hw | hw) | hw
  · simp [show w = [] from hw]
  · simp [mem_exactly.mp hw, hv]
  · exact hmax w hw hp

theorem longestMatch_suffix_percent {s : Text} (h : identLength ('%' :: s) = 0) :
    LongestMatch suffix ['%'] s := by
  refine ⟨.inl (.inr rfl), fun w hw hp => ?_⟩
  obtain ⟨v, hv⟩ := hp
  rcases hw with (hw | hw) | hw
  · simp [show w = [] from hw]
  · simp [mem_exactly.mp hw]
  · exact absurd hw (notMem_ident h hv.symm)

theorem longestMatch_suffix_nil {s : Text} (h : identLength s = 0) (hs : s.head? ≠ some '%') :
    LongestMatch suffix [] s := by
  refine ⟨.inl (.inl rfl), fun w hw hp => ?_⟩
  obtain ⟨v, hv⟩ := hp
  rcases hw with (hw | hw) | hw
  · simp [show w = [] from hw]
  · obtain rfl := mem_exactly.mp hw
    exact absurd (congrArg List.head? hv).symm hs
  · exact absurd hw (notMem_ident h hv.symm)

theorem spelling_le (names : Kind → List Text) (k : Kind) : spelling names k ≤ ident :=
  fun _ h => h.1

theorem otherSpelling_le (names : Kind → List Text) : otherSpelling names ≤ ident := fun _ h => h.1

theorem suffixOf_le (k : Kind) : suffixOf k ≤ suffix := by
  have hident : ident ≤ suffix := le_sup_right
  cases k
  case number => exact le_sup_left.trans le_sup_left
  case percentage => exact le_sup_right.trans le_sup_left
  case dimension => exact (otherSpelling_le _).trans hident
  all_goals exact (spelling_le _ _).trans hident

theorem production_numeric {k : Kind} (hk : k ∈ numericKinds) :
    production k = number * suffixOf k := by
  revert hk
  cases k <;> simp [numericKinds, production]

theorem scanned_numeric {k : Kind} {n u rest : Text} (hk : k ∈ numericKinds)
    (hn : LongestMatch number n (u ++ rest)) (hu : LongestMatch suffix u rest)
    (h : u ∈ suffixOf k) : Scanned k (n ++ u) rest := by
  have hlong := longestMatch_suffixed hn hu (suffixOf_le k) h
  have hne : ∀ {j : Kind}, j ∉ numericKinds → k ≠ j := fun hj he => hj (he ▸ hk)
  exact ⟨production_numeric hk ▸ hlong, fun _ => ⟨n, u, rfl, h, hn, hu⟩,
    fun he => absurd he (hne (by decide)), fun he => absurd he (hne (by decide)),
    fun he => absurd he (hne (by decide))⟩

/-! The tables of names. -/

/-- A table lists the names of the kinds, all of them and no others. -/
structure Lists (table : List (Text × Kind)) (names : Kind → List Text) : Prop where
  sound : ∀ p ∈ table, p.1 ∈ names p.2
  complete : ∀ k, ∀ s ∈ names k, s ∈ table.map Prod.fst

theorem Lists.lookup {table : List (Text × Kind)} {names : Kind → List Text}
    (h : Lists table names) (s : Text) : (∃ k, table.lookup s = some k ∧ s ∈ names k) ∨
      table.lookup s = none ∧ ∀ k, s ∉ names k := by
  cases hs : table.lookup s with
  | some k =>
    obtain ⟨before, after, rfl, -⟩ := List.lookup_eq_some_iff.mp hs
    exact .inl ⟨k, rfl, h.sound (s, k) (by simp)⟩
  | none =>
    refine .inr ⟨rfl, fun k hk => ?_⟩
    obtain ⟨p, hp, rfl⟩ := List.mem_map.mp (h.complete k s hk)
    have := List.lookup_eq_none_iff.mp hs p hp
    simp at this

theorem units_list : Lists Extent.units unitNames :=
  ⟨by decide, fun k => by cases k <;> decide⟩

theorem atKeywords_list : Lists Extent.atKeywords atNames :=
  ⟨by decide, fun k => by cases k <;> decide⟩

namespace Extent

/-- The extent of a lexeme at the front of `s` is that of a token of its kind. -/
def Sound (e : Extent) (s : Text) : Prop :=
  ∀ k, e.kind = some k → k ∉ otherKinds → Scanned k (s.take (1 + e.more)) (s.drop (1 + e.more))

theorem sound_ofLength {k : Kind} {n : Nat} {s : Text} (hn : 0 < n)
    (h : k ∉ otherKinds → Scanned k (s.take n) (s.drop n)) : Sound (ofLength k n) s := by
  intro j hj hk
  obtain rfl := Option.some.inj hj
  have hlen : 1 + (ofLength k n).more = n := Nat.add_sub_cancel' hn
  rw [hlen]
  exact h hk

theorem unitKind_spec {u : Text} (hu : u ∈ ident) :
    u ∈ suffixOf (unitKind u) ∧ unitKind u ∈ numericKinds := by
  obtain ⟨k, hk, hmem⟩ | ⟨hn, hother⟩ := units_list.lookup (foldCase u)
  · have hu : u ∈ spelling unitNames k := ⟨hu, hmem⟩
    rw [unitKind, hk, Option.getD_some]
    revert hu hmem
    cases k <;> simp [unitNames, suffixOf, numericKinds]
  · rw [unitKind, hn]
    exact ⟨⟨hu, hother⟩, by decide⟩

theorem atKind_spec {u : Text} (hu : u ∈ ident) :
    '@' :: u ∈ production (atKind u) ∧ production (atKind u) ≤ exactly "@" * ident ∧
      atKind u ∈ [Kind.importSym, .pageSym, .mediaSym, .charsetSym, .atKeyword] := by
  obtain ⟨k, hk, hmem⟩ | ⟨hn, hother⟩ := atKeywords_list.lookup (foldCase u)
  · have hu : u ∈ spelling atNames k := ⟨hu, hmem⟩
    have hat := Language.append_mem_mul (a := "@".toList) (l := exactly "@") rfl hu
    have hle := mul_le_mul_right (spelling_le atNames k) (exactly "@")
    rw [atKind, hk, Option.getD_some]
    cases k
    case importSym | pageSym | mediaSym | charsetSym => exact ⟨hat, hle, by decide⟩
    all_goals simp [atNames] at hmem
  · rw [atKind, hn, Option.getD_none]
    exact ⟨Language.append_mem_mul (a := "@".toList) (l := exactly "@") rfl ⟨hu, hother⟩,
      mul_le_mul_right (otherSpelling_le atNames) (exactly "@"), by decide⟩

variable {s : Text}

theorem sound_numeric {k : Kind} {n m : Nat} (hk : k ∈ numericKinds) (hpos : 0 < n)
    (hn : LongestMatch number (s.take n) (s.drop n))
    (hm : LongestMatch suffix ((s.drop n).take m) ((s.drop n).drop m))
    (h : (s.drop n).take m ∈ suffixOf k) : Sound (ofLength k (n + m)) s := by
  refine sound_ofLength (by omega) fun _ => ?_
  rw [List.take_add, ← List.drop_drop]
  exact scanned_numeric hk (by rwa [List.take_append_drop]) hm h

theorem sound_ofNumber (h : numberLength s ≠ 0) : Sound (ofNumber s) s := by
  have hn := longestMatch_number h
  have hpos : 0 < numberLength s := Nat.pos_of_ne_zero h
  unfold ofNumber
  dsimp only
  split
  next hu =>
    have hspec := unitKind_spec (longestMatch_ident hu).1
    exact sound_numeric hspec.2 hpos hn (longestMatch_suffix_ident hu) hspec.1
  next hu =>
    have hu : identLength (s.drop (numberLength s)) = 0 := by simpa using hu
    split
    next hpercent =>
      obtain ⟨r, hr⟩ := List.head?_eq_some_iff.mp hpercent
      refine sound_numeric (by decide) hpos hn ?_ (by rw [hr]; rfl)
      rw [hr]
      exact longestMatch_suffix_percent (hr ▸ hu)
    next hpercent =>
      exact sound_numeric (m := 0) (by decide) hpos hn (longestMatch_suffix_nil hu hpercent) rfl

theorem sound_other {k : Kind} (hk : k ∈ otherKinds) (n : Nat) : Sound (ofLength k n) s := by
  intro j hj hother
  obtain rfl := Option.some.inj hj
  exact absurd hk hother

theorem sound_delim : Sound (ofLength .delim 1) s := sound_other (by decide) 1

theorem sound_ofWord (h : identLength s ≠ 0) (hn : nameLength s = identLength s) :
    Sound (ofWord s) s := by
  have hident := longestMatch_ident h
  have hpos : 0 < nameLength s := by omega
  rw [← hn] at hident
  have hcall : (s.drop (nameLength s)).head? = some '(' →
      Sound (ofLength .function (nameLength s + 1)) s := by
    intro hopen
    obtain ⟨r, hr⟩ := List.head?_eq_some_iff.mp hopen
    refine sound_ofLength (Nat.succ_pos _) fun _ => ?_
    rw [List.take_add, ← List.drop_drop, hr]
    refine .of_longest ⟨Language.append_mem_mul hident.1 rfl, fun w hw hp => ?_⟩ (by decide)
    obtain ⟨u, hu, v, hv, rfl⟩ := Language.mem_mul.mp hw
    rw [List.append_assoc] at hp
    have := hident.2 u hu (by rw [hr]; exact (List.prefix_append u v).trans hp)
    simpa [mem_exactly.mp hv] using this
  unfold ofWord
  dsimp only
  split
  next hopen =>
    split
    · split
      · exact sound_other (by decide) _
      · exact hcall hopen
    · exact hcall hopen
  next hopen =>
    refine sound_ofLength hpos fun _ => ?_
    exact ⟨hident, fun h => absurd h (by decide), fun _ => hopen, fun h => absurd h (by decide),
      fun h => absurd h (by decide)⟩

theorem sound_exactly {k : Kind} {t : String} {r : Text} (hk : production k = exactly t)
    (ht : t.toList ≠ []) (hother : k ∉ .ident :: .string :: .invalid :: numericKinds) :
    Sound (ofLength k t.toList.length) (t.toList ++ r) := by
  refine sound_ofLength (List.length_pos_iff.mpr ht) fun _ => ?_
  rw [List.take_left, List.drop_left]
  exact .of_longest (hk ▸ longestMatch_exactly t r) hother

theorem sound_ofAt (s : Text) : Sound (ofAt s) ('@' :: s) := by
  unfold ofAt
  dsimp only
  split
  · exact sound_delim
  next h =>
    obtain ⟨hmem, hmax⟩ := longestMatch_ident h
    obtain ⟨hat, hle, hkind⟩ := atKind_spec hmem
    refine sound_ofLength (by omega) fun _ => ?_
    rw [Nat.add_comm, List.take_succ_cons, List.drop_succ_cons]
    refine .of_longest ⟨hat, fun w hw hp => ?_⟩ fun hk => ?_
    · obtain ⟨a, rfl, u, hu, rfl⟩ := Language.mem_mul.mp (mem_of_le hle hw)
      have := hmax u hu (List.cons_prefix_cons.mp hp).2
      simpa using this
    · revert hk hkind
      generalize atKind _ = k
      cases k <;> decide

theorem sound_space {c : Char} (hc : isBlank c) (s : Text) :
    Sound (ofLength .space (1 + blanksLength s)) (c :: s) := by
  have hrun : 1 + blanksLength s = ((c :: s).takeWhile isBlank).length := by
    rw [List.takeWhile_cons_of_pos hc, List.length_cons, Nat.add_comm]
    rfl
  rw [hrun]
  refine sound_ofLength (by omega) fun _ => .of_longest (longestMatch_run ?_) (by decide)
  simp [List.takeWhile_cons_of_pos hc]

theorem sound_hash (h : nameLength s ≠ 0) :
    Sound (ofLength .hash (1 + nameLength s)) ('#' :: s) := by
  obtain ⟨hmem, hmax⟩ := longestMatch_name h
  refine sound_ofLength (by omega) fun _ => ?_
  rw [Nat.add_comm, List.take_succ_cons, List.drop_succ_cons]
  refine .of_longest ⟨Language.append_mem_mul (a := ['#']) rfl hmem, fun w hw hp => ?_⟩ (by decide)
  obtain ⟨a, rfl, u, hu, rfl⟩ := Language.mem_mul.mp hw
  have := hmax u hu (List.cons_prefix_cons.mp hp).2
  simpa using this

theorem measure_quote {q : Char} (hq : isQuote q) (s : Text) : measure q s = ofString q s := by
  unfold measure
  rw [if_neg (by simp [not_isBlank_of_isQuote hq]), if_pos hq]

theorem sound_ofString {q : Char} (hq : isQuote q) (s : Text) : Sound (ofString q s) (q :: s) := by
  obtain ⟨hle, hclosed, hbroken, hunclosed⟩ := stringTail_spec q s
  have hmax : ∀ w ∈ closedString + openString * opt (exactly "\\"),
      w <+: q :: (s.take (stringTail q s).1 ++ s.drop (stringTail q s).1) →
        w.length ≤ (q :: s.take (stringTail q s).1).length := by
    intro w hw hp
    rw [List.take_append_drop] at hp
    rw [List.length_cons, List.length_take, min_eq_left hle, Nat.add_comm]
    exact length_le_stringTail hq hw hp
  have hopen : openString ≤ closedString + openString * opt (exactly "\\") := by
    refine le_trans ?_ le_sup_right
    simpa using mul_le_mul_right (one_le_opt (exactly "\\")) openString
  have hno : Kind.string ∉ numericKinds ∧ Kind.invalid ∉ numericKinds := by decide
  intro k hk _
  obtain rfl := Option.some.inj hk
  rw [Nat.add_comm, List.take_succ_cons, List.drop_succ_cons]
  show Scanned _ (q :: s.take (stringTail q s).1) (s.drop (stringTail q s).1)
  cases he : (stringTail q s).2 with
  | broken =>
    obtain ⟨hu, hnewline⟩ := hbroken he
    have hmem : q :: s.take (stringTail q s).1 ∈ openString := ⟨q, _, hq, hu, rfl⟩
    exact ⟨⟨hmem, fun w hw => hmax w (mem_of_le hopen hw)⟩, fun hn => absurd hn hno.2,
      by simp, by simp, fun _ => hnewline⟩
  | closed =>
    obtain ⟨u, hu, htake⟩ := hclosed he
    have hmem : q :: s.take (stringTail q s).1 ∈ closedString := ⟨q, u, hq, hu, by rw [htake]; rfl⟩
    exact ⟨⟨.inl hmem, hmax⟩, fun hn => absurd hn hno.1, by simp, fun _ => .inl hmem, by simp⟩
  | unclosed =>
    obtain ⟨hu, hlen⟩ := hunclosed he
    obtain ⟨u, hu, e, he, hw⟩ := Language.mem_mul.mp hu
    have hmem : q :: s.take (stringTail q s).1 ∈ openString * opt (exactly "\\") :=
      ⟨q :: u, ⟨q, u, hq, hu, rfl⟩, e, he, by rw [← hw]; rfl⟩
    have hend : s.drop (stringTail q s).1 = [] := List.drop_of_length_le hlen.ge
    exact ⟨⟨.inr hmem, hmax⟩, fun hn => absurd hn hno.1, by simp, fun _ => .inr hend, by simp⟩

theorem sound_symbol {k : Kind} {c : Char} (hk : production k = {[c]})
    (hother : k ∉ .ident :: .string :: .invalid :: numericKinds) (s : Text) :
    Sound (ofLength k 1) (c :: s) := by
  refine sound_ofLength Nat.one_pos fun _ => .of_longest ⟨?_, fun w hw _ => ?_⟩ hother
  · rw [hk]
    rfl
  · rw [hk] at hw
    exact (congrArg List.length (show w = [c] from hw)).le

theorem sound_punctuation (c : Char) (s : Text) : Sound (ofLength (punctuation c) 1) (c :: s) := by
  unfold punctuation
  split
  case h_17 => exact sound_delim
  all_goals exact sound_symbol rfl (by decide) s

theorem sound_text {k : Kind} {t : String} (hk : production k = exactly t)
    (hother : k ∉ .ident :: .string :: .invalid :: numericKinds) {c : Char} {x : Text}
    (ht : t.toList = c :: x) (hs : s.take x.length = x) :
    Sound (ofLength k (x.length + 1)) (c :: s) := by
  have heq : c :: s = t.toList ++ s.drop x.length := by
    have hsplit := List.take_append_drop x.length s
    rw [hs] at hsplit
    rw [ht, List.cons_append, hsplit]
  have hlen : x.length + 1 = t.toList.length := by rw [ht, List.length_cons]
  rw [heq, hlen]
  exact sound_exactly hk (by simp [ht]) hother

theorem take_one_of_head {c : Char} (h : s.head? = some c) : s.take 1 = [c] := by
  obtain ⟨r, rfl⟩ := List.head?_eq_some_iff.mp h
  rfl

/-- What is measured at the front of a text is a token of its kind, or a comment. -/
theorem measure_sound (c : Char) (s : Text) : Sound (measure c s) (c :: s) := by
  unfold measure
  split
  next hc => exact sound_space hc s
  split
  next hq => exact sound_ofString hq s
  split
  next hd => exact sound_ofNumber (numberLength_digit hd s)
  split
  next hstart =>
    have hident : identLength (c :: s) = nameLength (c :: s) := by
      rw [identLength_of_ne, if_pos hstart]
      intro hc
      obtain rfl : c = '-' := by simpa using hc
      simp [startsName, isNameStart, escapeLength_of_ne] at hstart
    exact sound_ofWord (hident ▸ nameLength_ne_zero hstart) hident.symm
  split
  case h_1 =>
    split
    · rintro k ⟨⟩
    · exact sound_symbol rfl (by decide) s
  case h_2 =>
    split
    · exact sound_delim
    next h => exact sound_hash h
  case h_3 =>
    split
    next h => exact sound_text (t := "-->") rfl (by decide) rfl h
    split
    next hstart =>
      have hident := identLength_hyphen s
      rw [if_pos hstart] at hident
      exact sound_ofWord (by omega) (by rw [hident, nameLength_char (by decide)])
    · exact sound_symbol rfl (by decide) s
  case h_4 =>
    split
    · exact sound_symbol rfl (by decide) s
    next h => exact sound_ofNumber (by rwa [numberLength_point])
  case h_5 =>
    split
    next h => exact sound_text (t := "<!--") rfl (by decide) rfl h
    · exact sound_delim
  case h_6 => exact sound_ofAt s
  case h_7 =>
    split
    · exact sound_other (by decide) _
    · exact sound_delim
  case h_8 =>
    split
    next h => exact sound_text (t := "~=") rfl (by decide) rfl (take_one_of_head h)
    · exact sound_delim
  case h_9 =>
    split
    next h => exact sound_text (t := "|=") rfl (by decide) rfl (take_one_of_head h)
    · exact sound_delim
  case h_10 => exact sound_punctuation c s

end Extent

theorem Measured.scanned {k : Kind} {t rest : Text} (h : Measured k t rest) (hk : k ∉ otherKinds) :
    Scanned k t rest := by
  obtain ⟨c, s, hkind, rfl, rfl⟩ := h
  have := Extent.measure_sound c s k hkind hk
  rwa [Nat.add_comm, List.take_succ_cons, List.drop_succ_cons] at this

/-- Where a token stands it is the longest match of the production of its kind. -/
theorem tokens_scanned (css : Text) :
    Cut (fun k t rest => k ∉ otherKinds → Scanned k t rest) css (tokens css) := by
  refine (cut_tokens css).mono fun {k t rest} h => ?_
  obtain ⟨c, s, hk, rfl, rfl⟩ := h
  have := Extent.measure_sound c s k hk
  rwa [Nat.add_comm, List.take_succ_cons, List.drop_succ_cons] at this

end Stylesheet
