import Mathlib
import Stylesheet.Scan
import Stylesheet.Proofs.Characters
import Stylesheet.Proofs.Lexical

/-! The measures of escapes, names and identifiers find the longest words of their languages. An
escape could also be read as a shorter one with name characters behind it; no reading gets farther
than the one that takes all it can. -/
namespace Stylesheet
open Computability Lexical

/-- `t` is the longest word of `L` at the front of `t ++ rest`. -/
def LongestMatch (L : Language Char) (t rest : Text) : Prop :=
  t ∈ L ∧ ∀ u ∈ L, u <+: t ++ rest → u.length ≤ t.length

theorem mem_exactly {s : String} {t : Text} : t ∈ exactly s ↔ t = s.toList := Iff.rfl

theorem longestMatch_exactly (s : String) (rest : Text) :
    LongestMatch (exactly s) s.toList rest :=
  ⟨rfl, fun _ hu _ => (congrArg List.length (mem_exactly.mp hu)).le⟩

/-! Escapes. -/

theorem oneBlankLength_le (s : Text) : oneBlankLength s ≤ s.length := by
  unfold oneBlankLength
  split
  · simp
  · split <;> simp
  · simp

theorem take_oneBlankLength (s : Text) : s.take (oneBlankLength s) ∈ opt oneBlank := by
  unfold oneBlankLength
  split
  · exact .inr (.inr rfl)
  · next c s h =>
    split
    next hc => exact .inr (.inl ⟨c, hc, rfl⟩)
    · exact nil_mem_opt _
  · exact nil_mem_opt _

theorem length_le_oneBlankLength {b : Text} (hb : b ∈ oneBlank) (s : Text) :
    b.length ≤ oneBlankLength (b ++ s) := by
  cases hb with
  | inl hb =>
    obtain ⟨c, hc, rfl⟩ := hb
    unfold oneBlankLength
    split
    · simp
    · next h =>
      obtain ⟨rfl, -⟩ := List.cons.inj h
      simp [hc]
    · next h => simp at h
  | inr hb =>
    obtain rfl := mem_exactly.mp hb
    exact le_rfl

theorem nil_notMem_oneBlank : [] ∉ oneBlank := by
  rintro (⟨c, _, h⟩ | h)
  · simp at h
  · exact absurd (mem_exactly.mp h) (by decide)

theorem isBlank_of_mem_oneBlank {b : Text} (hb : b ∈ opt oneBlank) : ∀ c ∈ b, isBlank c := by
  rcases hb with hb | ⟨c, hc, rfl⟩ | hb
  · rw [show b = [] from hb]
    simp
  · simpa using hc
  · rw [mem_exactly.mp hb]
    exact List.all_eq_true.mp (by decide)

/-- The hexadecimal digits of an escape, when `x` follows its backslash. -/
def hexLength (x : Text) : Nat := ((x.take 6).takeWhile isHexDigit).length

theorem hexLength_le (x : Text) : hexLength x ≤ min 6 x.length :=
  List.length_take .. ▸ (List.takeWhile_prefix (l := x.take 6) isHexDigit).length_le

theorem isHexDigit_of_mem_take {x : Text} : ∀ d ∈ x.take (hexLength x), isHexDigit d := by
  have htake : x.take (hexLength x) = (x.take 6).takeWhile isHexDigit := by
    have h := List.prefix_iff_eq_take.mp (List.takeWhile_prefix (l := x.take 6) isHexDigit)
    rw [List.take_take, ← hexLength, min_eq_left ((hexLength_le x).trans (min_le_left _ _))] at h
    exact h.symm
  intro d hd
  exact List.mem_takeWhile_imp (htake ▸ hd)

theorem hexLength_append {d : Text} (hl : d.length ≤ 6) (hd : ∀ c ∈ d, isHexDigit c) (s : Text) :
    d.length ≤ hexLength (d ++ s) := by
  rw [hexLength, List.take_append, List.take_of_length_le hl, List.takeWhile_append_of_pos hd]
  simp

theorem hexLength_eq {ds : Text} (hl : ds.length ≤ 6) (hd : ∀ d ∈ ds, isHexDigit d) {s : Text}
    (hs : ∀ c ∈ s.head?, isHexDigit c = false) : hexLength (ds ++ s) = ds.length := by
  rw [hexLength, List.take_append, List.take_of_length_le hl, List.takeWhile_append_of_pos hd]
  cases s with
  | nil => simp
  | cons c s =>
    cases 6 - ds.length with
    | zero => simp
    | succ n => simp [hs c rfl]

theorem escapeLength_hex {x : Text} (hx : 0 < hexLength x) : escapeLength ('\\' :: x) =
    1 + (hexLength x + oneBlankLength (x.drop (hexLength x))) := by
  cases x with
  | nil => simp [hexLength] at hx
  | cons c s =>
    cases hc : isHexDigit c with
    | false => simp [hexLength, hc] at hx
    | true => simp [escapeLength, hc, hexLength, Nat.add_assoc]

theorem escapeLength_plain {c : Char} {s : Text} (hc : isHexDigit c = false)
    (hn : isNewline c = false) : escapeLength ('\\' :: c :: s) = 2 := by
  simp [escapeLength, hc, hn]

/-- Where an escape starts. -/
theorem escapeLength_cases (s : Text) : escapeLength s = 0 ∨
    (∃ x, s = '\\' :: x ∧ 0 < hexLength x) ∨
      ∃ c x, s = '\\' :: c :: x ∧ isHexDigit c = false ∧ isNewline c = false := by
  unfold escapeLength
  split
  · next c x =>
    cases hc : isHexDigit c with
    | true =>
      have hpos := hexLength_append (d := [c]) (by simp) (by simpa using hc) x
      exact .inr (.inl ⟨_, rfl, hpos⟩)
    | false =>
      cases hn : isNewline c with
      | true => exact .inl rfl
      | false => exact .inr (.inr ⟨c, x, rfl, hc, hn⟩)
  · exact .inl rfl

theorem take_escapeLength {s : Text} (h : escapeLength s ≠ 0) :
    s.take (escapeLength s) ∈ escape ∧ escapeLength s ≤ s.length := by
  obtain he | ⟨x, rfl, hpos⟩ | ⟨c, x, rfl, hc, hn⟩ := escapeLength_cases s
  · exact absurd he h
  · have hle := hexLength_le x
    have hblank := oneBlankLength_le (x.drop (hexLength x))
    rw [List.length_drop] at hblank
    rw [escapeLength_hex hpos, Nat.add_comm 1, List.take_succ_cons, List.take_add]
    refine ⟨.inl ⟨_, _, rfl, ?_, ?_, isHexDigit_of_mem_take, take_oneBlankLength _⟩, ?_⟩
    · exact List.ne_nil_of_length_pos (by rw [List.length_take]; omega)
    · rw [List.length_take]
      omega
    · rw [List.length_cons]
      omega
  · rw [escapeLength_plain hc hn]
    exact ⟨.inr ⟨c, hc, hn, rfl⟩, by simp⟩

theorem escape_pos {u : Text} (hu : u ∈ escape) : 0 < u.length := by
  rcases hu with ⟨ds, b, rfl, -⟩ | ⟨c, -, -, rfl⟩ <;> simp

/-- The measured escape is the longest one, and the characters that it has more than any other are
no backslashes. -/
theorem escapeLength_append {u : Text} (hu : u ∈ escape) (s : Text) :
    ∃ j, escapeLength (u ++ s) = u.length + j ∧ ∀ c ∈ s.take j, c ≠ '\\' := by
  rcases hu with ⟨ds, b, rfl, hne, hl, hd, hb⟩ | ⟨c, hc, hn, rfl⟩
  · have hlong := hexLength_append hl hd (b ++ s)
    have hlen : ds.length + b.length ≤ hexLength (ds ++ (b ++ s)) +
        oneBlankLength ((ds ++ (b ++ s)).drop (hexLength (ds ++ (b ++ s)))) := by
      cases hb with
      | inl hb =>
        obtain rfl : b = [] := hb
        exact hlong.trans (Nat.le_add_right _ _)
      | inr hb =>
        have hfirst : ∀ c ∈ (b ++ s).head?, isHexDigit c = false := by
          intro c hc
          have hblank := isBlank_of_mem_oneBlank (.inr hb)
          cases b with
          | nil => exact absurd hb nil_notMem_oneBlank
          | cons a b =>
            obtain rfl : a = c := by simpa using hc
            exact not_isHexDigit_of_isBlank (hblank a (by simp))
        rw [hexLength_eq hl hd hfirst, List.drop_left]
        exact Nat.add_le_add_left (length_le_oneBlankLength hb s) _
    have hpos : 0 < ds.length := List.length_pos_iff.mpr hne
    obtain ⟨j, hj⟩ := Nat.exists_eq_add_of_le hlen
    refine ⟨j, ?_, fun c hc => ?_⟩
    · rw [List.cons_append, List.append_assoc, escapeLength_hex (by omega), hj, List.length_cons,
        List.length_append]
      omega
    · have hmem : c ∈ (ds ++ (b ++ s)).take (ds.length + b.length + j) := by
        rw [← List.append_assoc, ← List.length_append, List.take_length_add_append]
        exact List.mem_append_right _ hc
      rw [← hj, List.take_add] at hmem
      cases List.mem_append.mp hmem with
      | inl h => exact ne_backslash_of_isHexDigit (isHexDigit_of_mem_take c h)
      | inr h => exact ne_backslash_of_isBlank (isBlank_of_mem_oneBlank (take_oneBlankLength _) c h)
  · exact ⟨0, escapeLength_plain hc hn, by simp⟩

/-! Names. -/

theorem isNameChar_backslash : isNameChar '\\' = false := by decide

theorem escapeLength_of_ne {c : Char} (hc : c ≠ '\\') (s : Text) : escapeLength (c :: s) = 0 := by
  unfold escapeLength
  split
  next h => exact absurd (List.cons.inj h).1 hc
  · rfl

theorem nameLength_char {c : Char} (hc : isNameChar c) (s : Text) :
    nameLength (c :: s) = 1 + nameLength s := by
  rw [nameLength, if_pos hc]

theorem nameLength_escape {s : Text} (h : escapeLength s ≠ 0) :
    nameLength s = escapeLength s + nameLength (s.drop (escapeLength s)) := by
  cases s with
  | nil => exact absurd rfl h
  | cons c s =>
    have hc : c = '\\' := by
      by_contra hne
      exact h (escapeLength_of_ne hne s)
    rw [nameLength, if_neg (by simp [hc, isNameChar_backslash]), if_neg h]

theorem nameLength_stop {c : Char} {s : Text} (hc : isNameChar c = false)
    (h : escapeLength (c :: s) = 0) : nameLength (c :: s) = 0 := by
  rw [nameLength, if_neg (by simp [hc]), if_pos h]

theorem take_nameLength (s : Text) : s.take (nameLength s) ∈ nmchar∗ ∧ nameLength s ≤ s.length := by
  fun_induction nameLength s with
  | case1 => exact ⟨Language.nil_mem_kstar _, le_rfl⟩
  | case2 c s hc ih =>
    have hchar : [c] ++ s.take (nameLength s) ∈ nmchar * nmchar∗ :=
      Language.append_mem_mul (.inl ⟨c, hc, rfl⟩) ih.1
    rw [Nat.add_comm 1, List.take_succ_cons]
    exact ⟨mem_of_le mul_kstar_le_kstar hchar, by simpa using ih.2⟩
  | case3 c s hc he => exact ⟨Language.nil_mem_kstar _, Nat.zero_le _⟩
  | case4 c s hc he ih =>
    have h := take_escapeLength he
    have hescape := Language.append_mem_mul (l := nmchar) (.inr h.1) ih.1
    rw [List.length_drop] at ih
    rw [List.take_add]
    exact ⟨mem_of_le mul_kstar_le_kstar hescape, by omega⟩

/-- A name does not get longer by what is missed at its front, as long as no escape is torn. -/
theorem nameLength_le_drop {j : Nat} {s : Text} (h : ∀ c ∈ s.take j, c ≠ '\\') :
    nameLength s ≤ j + nameLength (s.drop j) := by
  induction j generalizing s with
  | zero => simp
  | succ j ih =>
    cases s with
    | nil => simp [nameLength]
    | cons c s =>
      rw [List.take_succ_cons, List.forall_mem_cons] at h
      cases hc : isNameChar c with
      | true =>
        have := ih h.2
        rw [nameLength_char hc, List.drop_succ_cons]
        omega
      | false =>
        rw [nameLength_stop hc (escapeLength_of_ne h.1 s)]
        exact Nat.zero_le _

theorem nameLength_append_nmchar {u : Text} (hu : u ∈ nmchar) (s : Text) :
    u.length + nameLength s ≤ nameLength (u ++ s) := by
  rcases hu with ⟨c, hc, rfl⟩ | hu
  · exact (nameLength_char hc s).ge
  · obtain ⟨j, hj, hs⟩ := escapeLength_append hu s
    have hpos := escape_pos hu
    have hdrop := nameLength_le_drop hs
    rw [nameLength_escape (s := u ++ s) (by omega), hj, List.drop_length_add_append]
    omega

theorem nameLength_append {w : Text} (hw : w ∈ nmchar∗) (s : Text) :
    w.length + nameLength s ≤ nameLength (w ++ s) := by
  refine kstar_induction (P := fun w => w.length + nameLength s ≤ nameLength (w ++ s))
    (by simp) (fun u v hu _ ih => ?_) hw
  have := nameLength_append_nmchar hu (v ++ s)
  rw [List.append_assoc, List.length_append]
  omega

theorem longestMatch_take {L : Language Char} {s : Text} {n : Nat} (h : s.take n ∈ L)
    (hn : n ≤ s.length) (hmax : ∀ u v, u ∈ L → s = u ++ v → u.length ≤ n) :
    LongestMatch L (s.take n) (s.drop n) := by
  refine ⟨h, fun u hu hp => ?_⟩
  obtain ⟨v, hv⟩ := hp
  rw [List.take_append_drop] at hv
  rw [List.length_take, min_eq_left hn]
  exact hmax u v hu hv.symm

theorem name_pos {u : Text} (hu : u ∈ name) : 0 < u.length := by
  obtain ⟨a, ha, b, -, rfl⟩ := Language.mem_mul.mp hu
  rcases ha with ⟨c, -, rfl⟩ | ha
  · simp
  · have := escape_pos ha
    rw [List.length_append]
    omega

theorem mem_mul_kstar {K : Language Char} {w : Text} (h : w ∈ K∗) (hne : w ≠ []) : w ∈ K * K∗ := by
  rw [← Language.one_add_self_mul_kstar_eq_kstar] at h
  exact h.resolve_left hne

theorem longestMatch_name {s : Text} (h : nameLength s ≠ 0) :
    LongestMatch name (s.take (nameLength s)) (s.drop (nameLength s)) := by
  obtain ⟨hmem, hle⟩ := take_nameLength s
  refine longestMatch_take (mem_mul_kstar hmem ?_) hle fun u v hu hs => ?_
  · exact List.ne_nil_of_length_pos (by rw [List.length_take]; omega)
  · have := nameLength_append (mem_of_le mul_kstar_le_kstar hu) v
    rw [hs]
    omega

theorem startsName_append {u : Text} (hu : u ∈ nmstart) (s : Text) : startsName (u ++ s) := by
  rcases hu with ⟨c, hc, rfl⟩ | hu
  · simp [startsName, hc]
  · have hpos := escape_pos hu
    obtain ⟨j, hj, -⟩ := escapeLength_append hu s
    cases u with
    | nil => simp at hpos
    | cons c u =>
      have hne : escapeLength (c :: (u ++ s)) ≠ 0 := by
        rw [List.cons_append] at hj
        omega
      simp [startsName, hne]

theorem nmstart_le_nmchar : nmstart ≤ nmchar := by
  rintro u (⟨c, hc, rfl⟩ | hu)
  · exact .inl ⟨c, isNameChar_of_isNameStart hc, rfl⟩
  · exact .inr hu

theorem nmstart_pos {u : Text} (hu : u ∈ nmstart) : 0 < u.length := by
  rcases hu with ⟨c, -, rfl⟩ | hu
  · simp
  · exact escape_pos hu

theorem take_nameLength_of_startsName {s : Text} (h : startsName s) :
    s.take (nameLength s) ∈ nmstart * nmchar∗ := by
  cases s with
  | nil => simp [startsName] at h
  | cons c s =>
    cases hc : isNameStart c with
    | true =>
      rw [nameLength_char (isNameChar_of_isNameStart hc), Nat.add_comm, List.take_succ_cons]
      exact Language.append_mem_mul (a := [c]) (.inl ⟨c, hc, rfl⟩) (take_nameLength s).1
    | false =>
      have he : escapeLength (c :: s) ≠ 0 := by simpa [startsName, hc] using h
      rw [nameLength_escape he, List.take_add]
      exact Language.append_mem_mul (.inr (take_escapeLength he).1) (take_nameLength _).1

theorem nameLength_ne_zero {s : Text} (h : startsName s) : nameLength s ≠ 0 := by
  intro hz
  obtain ⟨a, ha, b, -, hab⟩ := Language.mem_mul.mp (take_nameLength_of_startsName h)
  have hpos := nmstart_pos ha
  rw [hz] at hab
  simp_all

/-! Identifiers. -/

theorem identLength_hyphen (s : Text) :
    identLength ('-' :: s) = if startsName s then 1 + nameLength s else 0 := by
  have hchar : isNameChar '-' := by decide
  simp [identLength, nameLength_char hchar]

theorem identLength_of_ne {s : Text} (h : s.head? ≠ some '-') :
    identLength s = if startsName s then nameLength s else 0 := by
  rw [identLength, if_neg h]

theorem take_identLength {s : Text} (h : identLength s ≠ 0) :
    s.take (identLength s) ∈ ident ∧ identLength s ≤ s.length := by
  by_cases hs : s.head? = some '-'
  · cases s with
    | nil => simp at hs
    | cons c s =>
      obtain rfl : c = '-' := by simpa using hs
      rw [identLength_hyphen] at h ⊢
      split at h
      next hstart =>
        rw [if_pos hstart, Nat.add_comm, List.take_succ_cons]
        have hword := Language.append_mem_mul (a := ['-']) (l := opt (exactly "-")) (.inr rfl)
          (take_nameLength_of_startsName hstart)
        exact ⟨hword, by simpa using (take_nameLength s).2⟩
      · exact absurd rfl h
  · rw [identLength_of_ne hs] at h ⊢
    split at h
    next hstart =>
      rw [if_pos hstart]
      have hword := Language.append_mem_mul (l := opt (exactly "-")) (nil_mem_opt _)
        (take_nameLength_of_startsName hstart)
      exact ⟨hword, (take_nameLength s).2⟩
    · exact absurd rfl h

theorem head_ne_hyphen {u : Text} (hu : u ∈ nmstart) (s : Text) : (u ++ s).head? ≠ some '-' := by
  rcases hu with ⟨c, hc, rfl⟩ | ⟨ds, b, rfl, -⟩ | ⟨c, -, -, rfl⟩
  · intro h
    obtain rfl : c = '-' := by simpa using h
    revert hc
    decide
  · simp
  · simp

theorem identLength_append {u : Text} (hu : u ∈ ident) (s : Text) :
    0 < u.length ∧ u.length ≤ identLength (u ++ s) := by
  obtain ⟨h, hh, w, hw, rfl⟩ := Language.mem_mul.mp hu
  obtain ⟨a, ha, b, hb, rfl⟩ := Language.mem_mul.mp hw
  have hpos := nmstart_pos ha
  have hlen := nameLength_append_nmchar (mem_of_le nmstart_le_nmchar ha) (b ++ s)
  have hlen' := nameLength_append hb s
  have hstart := startsName_append ha (b ++ s)
  simp only [List.length_append, List.append_assoc]
  cases hh with
  | inl hh =>
    obtain rfl : h = [] := hh
    rw [List.nil_append, identLength_of_ne (head_ne_hyphen ha _), if_pos hstart, List.length_nil]
    omega
  | inr hh =>
    obtain rfl := mem_exactly.mp hh
    have hhyphen : identLength ("-".toList ++ (a ++ (b ++ s))) = 1 + nameLength (a ++ (b ++ s)) :=
      (identLength_hyphen _).trans (if_pos hstart)
    have hone : "-".toList.length = 1 := rfl
    omega

theorem head_of_mem_ident {u : Text} (hu : u ∈ ident) :
    ∃ c v, u = c :: v ∧ c.isDigit = false ∧ c ≠ '.' := by
  obtain ⟨h, hh, w, hw, rfl⟩ := Language.mem_mul.mp hu
  obtain ⟨a, ha, b, -, rfl⟩ := Language.mem_mul.mp hw
  cases hh with
  | inr hh =>
    obtain rfl := mem_exactly.mp hh
    exact ⟨'-', a ++ b, rfl, by decide, by decide⟩
  | inl hh =>
    obtain rfl : h = [] := hh
    rcases ha with ⟨c, hc, rfl⟩ | ⟨ds, s, rfl, -⟩ | ⟨c, -, -, rfl⟩
    · refine ⟨c, b, rfl, not_isDigit_of_isNameStart hc, ?_⟩
      rintro rfl
      exact absurd hc (by decide)
    · exact ⟨'\\', ds ++ s ++ b, by simp, by decide, by decide⟩
    · exact ⟨'\\', c :: b, rfl, by decide, by decide⟩

theorem longestMatch_ident {s : Text} (h : identLength s ≠ 0) :
    LongestMatch ident (s.take (identLength s)) (s.drop (identLength s)) := by
  have htake := take_identLength h
  exact longestMatch_take htake.1 htake.2 fun u v hu hs => hs ▸ (identLength_append hu v).2

theorem notMem_ident {s u v : Text} (h : identLength s = 0) (hs : s = u ++ v) : u ∉ ident := by
  intro hu
  have := identLength_append hu v
  rw [← hs, h] at this
  omega

end Stylesheet
