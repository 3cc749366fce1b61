import Stylesheet.Proofs.Addresses
import Stylesheet.Proofs.BlurredScans
import Stylesheet.Proofs.Unterminated

/-! The tokens that `url(` begins: an address or the opening of a function, by what follows. Where
the character that a backslash keeps is all that its escape or its continued row needs, the addresses
are those of the lexical grammar. -/
namespace Stylesheet
open Computability Lexical Extent

/-- A character that stands for nothing visible, blanks included. -/
def isControl (c : Char) : Bool := c.toNat < 32 || c.toNat = 127

/-- An address between quotes where no newline belongs to the escape in front of it, and no row is
continued at CR LF. -/
structure PlainQuoted (a : Text) : Prop where
  continued : ¬ "\\\r\n".toList <:+: a
  escape : ∀ x ∈ hexEscape, x <:+: a → ∀ c ∈ x.getLast?, isNewline c = false

/-- An address without quotes: no controls but blanks, no backslash before a newline, none that could
stand for itself before a character that needs one, and no escape that takes a blank. -/
structure PlainBare (a : Text) : Prop where
  control : ∀ c ∈ a, isControl c → isBlank c
  newline : ∀ c, ['\\', c] <:+: a → isNewline c = false
  doubled : ∀ c, ['\\', '\\', c] <:+: a → isAddressChar c
  closed : ¬ "\\)".toList <:+ a
  escape : ∀ x ∈ hexEscape, x <:+: a → ∀ c ∈ x.getLast?, isBlank c = false

/-- Whether the first visible character is a quote. -/
def isQuoted (a : Text) : Bool := (a.dropWhile isBlank).head?.any isQuote

/-- A text in which the lexical grammar sees the same address. -/
structure PlainAddress (a : Text) : Prop where
  quoted : isQuoted a → PlainQuoted a
  bare : isQuoted a = false → PlainBare a

variable {a b e s t u v w rest : Text} {c : Char} {k : Kind}

theorem PlainQuoted.within (h : PlainQuoted a) (hi : w <:+: a) : PlainQuoted w where
  continued hc := h.continued (hc.trans hi)
  escape x hx hxw := h.escape x hx (hxw.trans hi)

theorem PlainBare.ending (h : PlainBare a) (hs : w <:+ a) : PlainBare w where
  control c hc := h.control c (hs.subset hc)
  newline c hc := h.newline c (hc.trans hs.isInfix)
  doubled c hc := h.doubled c (hc.trans hs.isInfix)
  closed hc := h.closed (hc.trans hs)
  escape x hx hxw := h.escape x hx (hxw.trans hs.isInfix)

/-! What a backslash keeps is an escape or a continued row of the grammar. -/

theorem kept_mem_continuation (hc : isNewline c) : ['\\', c] ∈ continuation :=
  Language.append_mem_mul (a := "\\".toList) (b := [c]) rfl (.inl (mem_char.mpr hc))

theorem kept_mem_escape (hc : isNewline c = false) : ['\\', c] ∈ escape := by
  cases hhex : isHexDigit c with
  | true => exact .inl ⟨[c], [], rfl, by simp, by simp, by simpa using hhex, nil_mem_opt _⟩
  | false => exact .inr ⟨c, hhex, hc, rfl⟩

theorem quotedItem_le (q : Char) : quotedItem q ≤ stringItem q := by
  rintro u (hu | ⟨c, rfl⟩)
  · exact .inl (.inl hu)
  · cases hc : isNewline c with
    | true => exact mem_of_le continuation_le (kept_mem_continuation hc)
    | false => exact mem_of_le escape_le (kept_mem_escape hc)

theorem quotedAddress_le : quotedAddress ≤ closedString := by
  rintro w ⟨q, s, hq, hs, rfl⟩
  exact ⟨q, s, hq, mem_of_le (kstar_mono (quotedItem_le q)) hs, rfl⟩

/-- An escape keeps its first character; the digits behind it could stand there without one, and so
must the blank that it takes. -/
theorem escape_mem_kstar {L : Language Char} (hkept : kept ≤ L) (hhex : char isHexDigit ≤ L)
    (hu : u ∈ escape)
    (hlast : u ∈ hexEscape → ∀ c ∈ u.getLast?, isBlank c → isNewline c = false ∧ [c] ∈ L) :
    u ∈ L∗ := by
  rcases hu with hu | ⟨c, -, -, rfl⟩
  · have hlast := hlast hu
    obtain ⟨ds, b, rfl, hne, -, hd, hb⟩ := hu
    obtain ⟨d, ds, rfl⟩ := List.exists_cons_of_ne_nil hne
    have hdigits : ds ∈ (char isHexDigit)∗ :=
      mem_char_kstar.mpr fun c hc => hd c (List.mem_cons_of_mem d hc)
    have hblank : b ∈ L∗ := by
      rcases hb with rfl | ⟨c, hc, rfl⟩ | hb
      · exact Language.nil_mem_kstar L
      · exact mem_of_le le_kstar (hlast c (by simp [List.getLast?_cons]) hc).2
      · obtain rfl := mem_exactly.mp hb
        exact absurd (hlast '\n' (by simp [List.getLast?_cons]) (by decide)).1 (by decide)
    have hbehind := kstar_append_mem (mem_of_le (kstar_mono hhex) hdigits) hblank
    exact append_mem_kstar (u := ['\\', d]) (mem_of_le hkept ⟨d, rfl⟩) hbehind
  · exact mem_of_le le_kstar (mem_of_le hkept ⟨c, rfl⟩)

/-! Addresses in quotes. -/

theorem quotedAddress_of_closedString (hw : w ∈ closedString) (h : PlainQuoted w) :
    w ∈ quotedAddress := by
  obtain ⟨q, s, hq, hs, rfl⟩ := hw
  have hplain : PlainQuoted s := h.within ⟨[q], [q], by simp⟩
  have hitem : ∀ c, isHexDigit c ∨ isBlank c → isNewline c = false → [c] ∈ quotedItem q := by
    intro c hc hn
    have hne := ne_of_isQuote hq hc
    exact .inl (mem_char.mpr (by simp [hne, hn]))
  have hhex : char isHexDigit ≤ quotedItem q := by
    rintro x ⟨c, hc, rfl⟩
    refine hitem c (.inl hc) (Bool.eq_false_iff.mpr fun hn => ?_)
    simp [not_isHexDigit_of_isBlank (isBlank_of_isNewline hn)] at hc
  refine ⟨q, s, hq, kstar_of_infix hs fun u hu hi => ?_, rfl⟩
  rcases hu with (hu | hu) | hu
  · exact mem_of_le le_kstar (.inl hu)
  · obtain ⟨_, rfl, n, hn, rfl⟩ := Language.mem_mul.mp hu
    rcases hn with ⟨c, -, rfl⟩ | rfl
    · exact mem_of_le le_kstar (.inr ⟨c, rfl⟩)
    · exact absurd hi hplain.continued
  · refine escape_mem_kstar le_sup_right hhex hu fun hx c hc hb => ?_
    have hn := hplain.escape u hx hi c hc
    exact ⟨hn, hitem c (.inr hb) hn⟩

/-! Addresses without quotes. -/

theorem isAddressChar_iff (c : Char) : isAddressChar c = true ↔ c.toNat = 33 ∨
    (35 ≤ c.toNat ∧ c.toNat ≤ 38) ∨ (42 ≤ c.toNat ∧ c.toNat ≤ 126) ∨ 128 ≤ c.toNat := by
  have hlisted : c ∈ "!#$%&".toList ↔ c.toNat = 33 ∨ 35 ≤ c.toNat ∧ c.toNat ≤ 38 := by
    have hmem : c ∈ "!#$%&".toList ↔ c.toNat ∈ [33, 35, 36, 37, 38] := by
      rw [← List.mem_map_of_injective fun _ _ h => Char.toNat_inj.mp h]
      rfl
    simp only [hmem, List.mem_cons, List.not_mem_nil, or_false]
    omega
  simp only [isAddressChar, Bool.or_eq_true, Bool.and_eq_true, decide_eq_true_eq, hlisted, or_assoc]
  exact Iff.rfl

/-- The characters of addresses without quotes, controls apart. -/
theorem isAddressChar_iff_bare (hcontrol : isControl c = false) : isAddressChar c = true ↔
    isBlank c = false ∧ isQuote c = false ∧ c ≠ '(' ∧ c ≠ ')' := by
  have hne : ∀ d : Char, c = d ↔ c.toNat = d.toNat := fun d => Char.toNat_inj.symm
  have hcontrol : ¬ (c.toNat < 32 ∨ c.toNat = 127) := by simpa [isControl] using hcontrol
  rw [isAddressChar_iff, ← Bool.not_eq_true, ← Bool.not_eq_true, isBlank_iff, isQuote_iff]
  simp only [ne_eq, hne]
  show _ ↔ ¬ (c.toNat = 32 ∨ c.toNat = 9 ∨ c.toNat = 10 ∨ c.toNat = 13 ∨ c.toNat = 12) ∧
    ¬ (c.toNat = 34 ∨ c.toNat = 39) ∧ ¬ c.toNat = 40 ∧ ¬ c.toNat = 41
  omega

theorem not_isControl_of_isAddressChar (hc : isAddressChar c) : isControl c = false := by
  rw [isAddressChar_iff] at hc
  simp only [isControl, Bool.or_eq_false_iff, decide_eq_false_iff_not]
  omega

theorem bareItem_of_isAddressChar (hc : isAddressChar c) (hb : c ≠ '\\') : [c] ∈ bareItem := by
  have h := (isAddressChar_iff_bare (not_isControl_of_isAddressChar hc)).mp hc
  exact mem_bareItem.mpr (.inl ⟨c, rfl, h.1, h.2.1, h.2.2.1, h.2.2.2, hb⟩)

theorem isHexDigit_le_bareItem : char isHexDigit ≤ bareItem := by
  rintro x ⟨c, hc, rfl⟩
  refine bareItem_of_isAddressChar ?_ (ne_backslash_of_isHexDigit hc)
  rw [isHexDigit_iff] at hc
  rw [isAddressChar_iff]
  omega

theorem head_of_grammarItem (hu : u ∈ grammarItem) :
    ∃ c v, u = c :: v ∧ isBlank c = false ∧ isQuote c = false := by
  rcases hu with ⟨c, hc, rfl⟩ | hu
  · have h := (isAddressChar_iff_bare (not_isControl_of_isAddressChar hc)).mp hc
    exact ⟨c, [], rfl, h.1, h.2.1⟩
  · obtain ⟨v, rfl⟩ := head_eq_backslash (.inr hu)
    exact ⟨'\\', v, rfl, by decide, by decide⟩

theorem escape_mem_bareItems (hu : u ∈ escape) (h : PlainBare (u ++ s)) : u ∈ bareItem∗ := by
  refine escape_mem_kstar le_sup_right isHexDigit_le_bareItem hu fun hx c hc hb => ?_
  have := h.escape u hx (List.prefix_append u s).isInfix c hc
  simp [hb] at this

theorem eq_nil_of_oneBlank (hb : b ∈ opt oneBlank)
    (h : ∀ c ∈ ('\\' :: (s ++ b)).getLast?, isBlank c = false) : b = [] := by
  rcases List.eq_nil_or_concat b with rfl | ⟨y, c, rfl⟩
  · rfl
  · have hblank := isBlank_of_mem_oneBlank hb c (by simp)
    have hlast := h c (by simp [List.getLast?_cons])
    simp [hblank] at hlast

/-- The text is some items of an address, and behind them what an address of the grammar with fewer
than `n` items ends with. -/
def Shortens (n : Nat) (x : Text) : Prop := ∃ w ∈ bareItem∗, ∃ us : List Text,
  (∀ u ∈ us, u ∈ grammarItem) ∧ us.length < n ∧ ∃ e ∈ blank∗, x = w ++ (us.flatten ++ (e ++ [')']))

/-- The grammar may take a backslash for a character of the address. Here it keeps what follows: the
first of the blanks behind the address, a character, or the backslash of an escape, whose other
characters then stand for themselves. -/
theorem kept_shortens {us : List Text} (he : e ∈ blank∗) (hus : ∀ u ∈ us, u ∈ grammarItem)
    (h : PlainBare ('\\' :: (us.flatten ++ (e ++ [')'])))) :
    Shortens (us.length + 1) ('\\' :: (us.flatten ++ (e ++ [')']))) := by
  have hkept : ∀ d, ['\\', d] ∈ bareItem := fun d => .inr ⟨d, rfl⟩
  cases us with
  | nil =>
    cases e with
    | nil => exact absurd (List.suffix_refl _) h.closed
    | cons d e =>
      have he : e ∈ blank∗ := mem_char_kstar.mpr fun x hx =>
        mem_char_kstar.mp he x (List.mem_cons_of_mem d hx)
      exact ⟨['\\', d], mem_of_le le_kstar (hkept d), [], by simp, Nat.zero_lt_one, e, he, rfl⟩
  | cons u us =>
    rw [List.forall_mem_cons] at hus
    have hlen : us.length < (u :: us).length + 1 := by simp
    rcases hus.1 with ⟨d, -, rfl⟩ | hu | ⟨c, -, -, rfl⟩
    · exact ⟨['\\', d], mem_of_le le_kstar (hkept d), us, hus.2, hlen, e, he, rfl⟩
    · have hinfix : u <:+: '\\' :: ((u :: us).flatten ++ (e ++ [')'])) :=
        ⟨['\\'], us.flatten ++ (e ++ [')']), by simp⟩
      have hblank := h.escape u hu hinfix
      obtain ⟨ds, b, rfl, -, -, hd, hb⟩ := hu
      obtain rfl := eq_nil_of_oneBlank hb hblank
      have hdigits := mem_of_le (kstar_mono isHexDigit_le_bareItem) (mem_char_kstar.mpr hd)
      exact ⟨['\\', '\\'] ++ ds, append_mem_kstar (hkept '\\') hdigits, us, hus.2, hlen, e, he, by simp⟩
    · have hc : isAddressChar c := h.doubled c ⟨[], us.flatten ++ (e ++ [')']), rfl⟩
      exact ⟨['\\', '\\'], mem_of_le le_kstar (hkept '\\'), [c] :: us,
        List.forall_mem_cons.mpr ⟨.inl ⟨c, hc, rfl⟩, hus.2⟩, by simp, e, he, rfl⟩

theorem grammarItem_shortens {us : List Text} (he : e ∈ blank∗) (hu : u ∈ grammarItem)
    (hus : ∀ v ∈ us, v ∈ grammarItem) (h : PlainBare (u ++ (us.flatten ++ (e ++ [')'])))) :
    Shortens (us.length + 1) (u ++ (us.flatten ++ (e ++ [')']))) := by
  rcases hu with ⟨c, hc, rfl⟩ | hu
  · by_cases hb : c = '\\'
    · subst hb
      exact kept_shortens he hus h
    · have hw := mem_of_le le_kstar (bareItem_of_isAddressChar hc hb)
      exact ⟨[c], hw, us, hus, Nat.lt_succ_self _, e, he, rfl⟩
  · exact ⟨u, escape_mem_bareItems hu h, us, hus, Nat.lt_succ_self _, e, he, rfl⟩

theorem bareItems_of_grammarItems (us : List Text) (he : e ∈ blank∗) (hus : ∀ u ∈ us, u ∈ grammarItem)
    (h : PlainBare (us.flatten ++ (e ++ [')']))) :
    ∃ w ∈ bareItem∗, ∃ d ∈ blank∗, us.flatten ++ (e ++ [')']) = w ++ (d ++ [')']) := by
  induction hn : us.length using Nat.strong_induction_on generalizing us e with
  | _ n ih =>
    cases us with
    | nil => exact ⟨[], Language.nil_mem_kstar _, e, he, rfl⟩
    | cons u us =>
      rw [List.forall_mem_cons] at hus
      rw [List.flatten_cons, List.append_assoc] at h ⊢
      obtain ⟨w, hw, vs, hvs, hlen, d, hd, heq⟩ := grammarItem_shortens he hus.1 hus.2 h
      rw [heq] at h ⊢
      obtain ⟨x, hx, f, hf, hrest⟩ :=
        ih vs.length (hn ▸ hlen) vs hd hvs (h.ending (List.suffix_append w _)) rfl
      exact ⟨w ++ x, kstar_append_mem hw hx, f, hf, by rw [hrest, List.append_assoc]⟩

theorem grammarItems_of_bareItems (hw : w ∈ bareItem∗) (hi : w <:+: a) (h : PlainBare a) :
    w ∈ grammarItem∗ := by
  refine kstar_of_infix hw fun u hu hiu => mem_of_le le_kstar ?_
  have hi := hiu.trans hi
  obtain ⟨c, rfl, hc⟩ | ⟨c, rfl⟩ := mem_bareItem.mp hu
  · have hcontrol : isControl c = false := by
      refine Bool.eq_false_iff.mpr fun hn => ?_
      have := h.control c (hi.subset (List.mem_singleton_self c)) hn
      simp [hc] at this
    exact .inl (mem_char.mpr ((isAddressChar_iff_bare hcontrol).mpr
      ⟨hc.1, hc.2.1, hc.2.2.1, hc.2.2.2.1⟩))
  · exact .inr (kept_mem_escape (h.newline c hi))

/-! Addresses of either form. -/

/-- What may stand first in an address: nothing, or a visible character that is a quote or not. -/
theorem isQuoted_enclosed {q : Bool} (hb : b ∈ blank∗) (he : e ∈ blank∗)
    (hw : (w = [] ∧ q = false) ∨ ∃ c v, w = c :: v ∧ isBlank c = false ∧ isQuote c = q) :
    isQuoted (b ++ (w ++ (e ++ [')']))) = q := by
  rw [isQuoted, List.dropWhile_append_of_pos (mem_char_kstar.mp hb)]
  obtain ⟨rfl, rfl⟩ | ⟨c, v, rfl, hc, hq⟩ := hw
  · rw [List.nil_append, List.dropWhile_append_of_pos (mem_char_kstar.mp he)]
    rfl
  · rw [List.cons_append, List.dropWhile_cons_of_neg (by simp [hc])]
    simp [hq]

/-- In plain texts the addresses are those of the lexical grammar. -/
theorem mem_grammarAddress_iff (h : PlainAddress a) : a ∈ grammarAddress ↔ a ∈ address := by
  constructor
  · intro ha
    obtain ⟨b, hb, w, hw, e, he, rfl⟩ := mem_enclosed.mp ha
    rcases hw with hw | ⟨us, rfl, hus⟩
    · have hquoted : isQuoted (b ++ (w ++ (e ++ [')']))) = true := by
        obtain ⟨q, s, hq, -, rfl⟩ := hw
        exact isQuoted_enclosed hb he (.inr ⟨q, s ++ [q], rfl, not_isBlank_of_isQuote hq, hq⟩)
      have hplain := (h.quoted hquoted).within ⟨b, e ++ [')'], List.append_assoc ..⟩
      exact mem_enclosed.mpr ⟨b, hb, w, .inl (quotedAddress_of_closedString hw hplain), e, he, rfl⟩
    · have hbare : isQuoted (b ++ (us.flatten ++ (e ++ [')']))) = false := by
        refine isQuoted_enclosed hb he ?_
        cases us with
        | nil => exact .inl ⟨rfl, rfl⟩
        | cons u us =>
          obtain ⟨c, v, rfl, hc⟩ := head_of_grammarItem (hus u List.mem_cons_self)
          exact .inr ⟨c, v ++ us.flatten, rfl, hc⟩
      have hplain := (h.bare hbare).ending (List.suffix_append b _)
      obtain ⟨w, hw, d, hd, heq⟩ := bareItems_of_grammarItems us he hus hplain
      exact mem_enclosed.mpr ⟨b, hb, w, .inr hw, d, hd, by rw [heq]⟩
  · intro ha
    obtain ⟨b, hb, w, hw, e, he, rfl⟩ := mem_enclosed.mp ha
    rcases hw with hw | hw
    · exact mem_enclosed.mpr ⟨b, hb, w, .inl (mem_of_le quotedAddress_le hw), e, he, rfl⟩
    · have hbare : isQuoted (b ++ (w ++ (e ++ [')']))) = false :=
        isQuoted_enclosed hb he ((head_of_bareItems hw).imp_left fun hw => ⟨hw, rfl⟩)
      have hitems := grammarItems_of_bareItems hw ⟨b, e ++ [')'], List.append_assoc ..⟩ (h.bare hbare)
      exact mem_enclosed.mpr ⟨b, hb, w, .inr hitems, e, he, rfl⟩

/-! The tokens. -/

/-- How a token of the kind `k` and the text `t` reads what follows `(` behind the name `u` at its
front: as the address that stands there, or as no part of it. -/
structure ReadsAddress (k : Kind) (t u s : Text) : Prop where
  found : ∀ a ∈ address, a <+: s → k = .uri ∧ t = u ++ '(' :: a
  refused : (∀ a ∈ address, ¬ a <+: s) → k = .function ∧ t = u ++ ['(']
  agreed : ∀ a, PlainAddress a → (k = .uri ∧ t = u ++ '(' :: a ↔ a ∈ grammarAddress ∧ a <+: s)

theorem measure_url {x : Text} (hu : foldCase u = "url".toList) (heq : c :: x = u ++ '(' :: s) :
    Extent.measure c x = match uriTail? s with
      | some m => ofLength .uri (4 + m)
      | none => ofLength .function 4 := by
  have hplain : ∀ d ∈ u, isNameChar d := by
    have hall : ("url".toList : Text).all isNameChar := by decide
    intro d hd
    rw [← caseBlind_isNameChar d]
    exact List.all_eq_true.mp hall _ (hu ▸ List.mem_map_of_mem hd)
  have hlen : u.length = 3 := by simpa [foldCase] using congrArg List.length hu
  have hname : nameLength (u ++ '(' :: s) = 3 :=
    (nameLength_plain hplain (by simp; decide)).trans hlen
  have hdrop : (u ++ '(' :: s).drop 3 = '(' :: s := List.drop_left' hlen
  have htake : (u ++ '(' :: s).take 3 = u := List.take_left' hlen
  obtain ⟨d, v, rfl⟩ := List.exists_cons_of_length_pos (by omega : 0 < u.length)
  obtain ⟨rfl, rfl⟩ := List.cons.inj heq
  have hstart : isNameStart c := by
    have hc : c.toLower = 'u' := (List.cons.inj hu).1
    rw [← caseBlind_isNameStart c, hc]
    decide
  rw [measure_startsName (by simp [startsName, hstart])]
  have hword := ofWord_url hname (by rw [hdrop]; rfl) (by rw [htake, hu])
  rwa [hdrop, List.tail_cons] at hword

theorem Measured.readsAddress (h : Measured k t rest) (hu : foldCase u = "url".toList)
    (heq : t ++ rest = u ++ '(' :: s) : ReadsAddress k t u s := by
  obtain ⟨c, x, hkind, rfl, rfl⟩ := h
  have hx : c :: x = u ++ '(' :: s := by
    rw [← heq, List.cons_append, List.take_append_drop]
  have hlen : u.length = 3 := by simpa [foldCase] using congrArg List.length hu
  have htext : ∀ m, c :: x.take (3 + m) = u ++ '(' :: s.take m := by
    intro m
    rw [← List.take_succ_cons, hx, show 3 + m + 1 = u.length + (m + 1) by omega,
      List.take_length_add_append, List.take_succ_cons]
  have hmeasure := measure_url hu hx
  have hfound : ∀ a ∈ address, a <+: s → k = .uri ∧ c :: x.take (Extent.measure c x).more = u ++ '(' :: a := by
    rintro a ha ⟨r, hr⟩
    have hm := uriTail?_eq_some_iff_mem.mpr ⟨a, ha, r, hr.symm, rfl⟩
    rw [hmeasure, hm] at hkind ⊢
    refine ⟨(Option.some.inj hkind).symm, ?_⟩
    have hmore : (ofLength .uri (4 + a.length)).more = 3 + a.length := by simp only [ofLength]; omega
    rw [hmore, htext, ← hr, List.take_left]
  have hcases : (∃ a ∈ address, a <+: s) ∨
      k = .function ∧ c :: x.take (Extent.measure c x).more = u ++ ['('] := by
    cases hm : uriTail? s with
    | some m =>
      obtain ⟨a, ha, r, rfl, -⟩ := uriTail?_eq_some_iff_mem.mp hm
      exact .inl ⟨a, ha, List.prefix_append a r⟩
    | none =>
      rw [hmeasure, hm] at hkind ⊢
      exact .inr ⟨(Option.some.inj hkind).symm, htext 0⟩
  refine ⟨hfound, fun hno => hcases.resolve_left ?_, fun a hplain => ?_⟩
  · rintro ⟨a, ha, hp⟩
    exact hno a ha hp
  rw [mem_grammarAddress_iff hplain]
  refine ⟨?_, fun h => hfound a h.1 h.2⟩
  rintro ⟨huri, ht⟩
  obtain ⟨b, hb, hp⟩ := hcases.resolve_right fun hn => by simp [huri] at hn
  obtain rfl : b = a := by simpa using (hfound b hb hp).2.symm.trans ht
  exact ⟨hb, hp⟩

/-- A token that begins with `url` and a parenthesis is an address exactly where one follows, and is
all of it; else it opens a function. -/
theorem tokens_addresses (css : Text) : Cut (fun k t rest => ∀ u s, foldCase u = "url".toList →
    t ++ rest = u ++ '(' :: s → ReadsAddress k t u s) css (tokens css) :=
  (cut_tokens css).mono fun h _ _ hu heq => h.readsAddress hu heq

/-- An escape with the blank that it takes, inside an address. -/
def escapedBlank : Text := "\\41 b)".toList

/-- The grammar has an address there, and the tokens have none. -/
theorem escapedBlank_refused : escapedBlank ∈ grammarAddress ∧
    (tokens ("url(".toList ++ escapedBlank)).map Token.kind = [.function, .ident, .rparen, .eof] := by
  have hescape : "\\41 ".toList ∈ grammarItem :=
    .inr (.inl ⟨['4', '1'], [' '], rfl, by simp, by simp, by simp; decide, .inr (.inl ⟨' ', rfl, rfl⟩)⟩)
  have hletter : ['b'] ∈ grammarItem∗ := mem_of_le le_kstar (.inl ⟨'b', by decide, rfl⟩)
  have hword : "\\41 b".toList ∈ grammarItem∗ := append_mem_kstar hescape hletter
  have hnil : [] ∈ blank∗ := Language.nil_mem_kstar _
  exact ⟨mem_enclosed.mpr ⟨[], hnil, _, .inr hword, [], hnil, rfl⟩, by cbv⟩

end Stylesheet
