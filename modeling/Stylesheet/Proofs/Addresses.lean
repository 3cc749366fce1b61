import Stylesheet.Proofs.LineEnds
import Stylesheet.Proofs.PlainTokens
import Stylesheet.Proofs.Seams

/-! What `url(` opens: an address where a word of the language of addresses follows, and else the
opening of a function. A backslash keeps just one character from being read in an address, where the
lexical grammar has escapes and continued rows. -/
namespace Stylesheet
open Computability Lexical Extent

namespace Lexical

/-- A backslash and the one character it keeps from being read. -/
def kept : Language Char := {w | ∃ c, w = ['\\', c]}

/-- What may stand in an address between the quotes `q`. -/
def quotedItem (q : Char) : Language Char :=
  char (fun c => c != q && !isNewline c && c != '\\') + kept

/-- What may stand in an address without quotes. -/
def bareItem : Language Char :=
  char (fun c => !isBlank c && !isQuote c && c != '(' && c != ')' && c != '\\') + kept

def quotedAddress : Language Char :=
  {w | ∃ q s, isQuote q ∧ s ∈ (quotedItem q)∗ ∧ w = q :: s ++ [q]}

/-- A word of `K` between blanks, and the closing parenthesis. -/
def enclosed (K : Language Char) : Language Char := blank∗ * (K * (blank∗ * exactly ")"))

/-- What follows `url(` in an address. -/
def address : Language Char := enclosed (quotedAddress + bareItem∗)

/-- The characters that the lexical grammar has in addresses without quotes, the backslash being one
of them. -/
def isAddressChar (c : Char) : Bool :=
  c ∈ "!#$%&".toList || ('*' ≤ c && c ≤ '~') || 128 ≤ c.toNat

def grammarItem : Language Char := char isAddressChar + escape

/-- What follows `url(` in an address of the lexical grammar. -/
def grammarAddress : Language Char := enclosed (closedString + grammarItem∗)

end Lexical

theorem kstar_append_mem {α : Type} {K : Language α} {u v : List α} (hu : u ∈ K∗) (hv : v ∈ K∗) :
    u ++ v ∈ K∗ := by
  have := Language.append_mem_mul hu hv
  rwa [kstar_mul_kstar] at this

theorem kstar_of_infix {α : Type} {K L : Language α} {w : List α} (hw : w ∈ K∗)
    (h : ∀ u ∈ K, u <:+: w → u ∈ L∗) : w ∈ L∗ := by
  revert h
  refine kstar_induction (P := fun w => (∀ u ∈ K, u <:+: w → u ∈ L∗) → w ∈ L∗)
    (fun _ => Language.nil_mem_kstar _) (fun u v hu _ ih h => ?_) hw
  have hv := ih fun x hx hi => h x hx (hi.trans (List.suffix_append u v).isInfix)
  exact kstar_append_mem (h u hu (List.prefix_append u v).isInfix) hv

/-! Blanks. -/

theorem blanksLength_blanks {b s : Text} (hb : b ∈ blank∗) (hs : ∀ c ∈ s.head?, isBlank c = false) :
    blanksLength (b ++ s) = b.length :=
  congrArg List.length (takeWhile_eq (mem_char_kstar.mp hb) hs)

theorem take_blanksLength (s : Text) : s.take (blanksLength s) ∈ blank∗ := by
  rw [blanksLength, take_length_takeWhile]
  exact mem_char_kstar.mpr fun _ hc => List.mem_takeWhile_imp hc

variable {q c : Char} {s r u w : Text} {n : Nat}

/-! Addresses in quotes. -/

theorem quotedAddressTail?_item (hu : u ∈ quotedItem q) (s : Text) :
    quotedAddressTail? q (u ++ s) = (quotedAddressTail? q s).map (u.length + ·) := by
  rcases hu with ⟨c, hc, rfl⟩ | ⟨c, rfl⟩
  · obtain ⟨⟨hne, hn⟩, hb⟩ : (c ≠ q ∧ isNewline c = false) ∧ c ≠ '\\' := by simpa using hc
    exact (quotedAddressTail?_char hb s).trans (by rw [if_neg hne, if_neg (by simp [hn])]; rfl)
  · rfl

theorem quotedAddressTail?_items (hw : w ∈ (quotedItem q)∗) (s : Text) :
    quotedAddressTail? q (w ++ s) = (quotedAddressTail? q s).map (w.length + ·) := by
  refine kstar_induction
    (P := fun w => quotedAddressTail? q (w ++ s) = (quotedAddressTail? q s).map (w.length + ·))
    (by simp) (fun u v hu _ ih => ?_) hw
  rw [List.append_assoc, quotedAddressTail?_item hu, ih, Option.map_map, List.length_append]
  simp only [Function.comp_def, Nat.add_assoc]

/-- It ends at the first quote that no backslash keeps. -/
theorem quotedAddressTail?_eq_some_iff (hq : isQuote q) : quotedAddressTail? q s = some n ↔
    ∃ w ∈ (quotedItem q)∗, ∃ r, s = w ++ q :: r ∧ n = w.length + 1 := by
  constructor
  · intro h
    fun_induction quotedAddressTail? q s generalizing n with
    | case1 => simp at h
    | case2 => simp at h
    | case3 c s ih =>
      obtain ⟨m, hm, rfl⟩ := Option.map_eq_some_iff.mp h
      obtain ⟨w, hw, r, rfl, rfl⟩ := ih hm
      have hitem : ['\\', c] ∈ quotedItem q := .inr ⟨c, rfl⟩
      exact ⟨['\\', c] ++ w, append_mem_kstar hitem hw, r, rfl, by simp; omega⟩
    | case4 s =>
      obtain rfl := Option.some.inj h
      exact ⟨[], Language.nil_mem_kstar _, s, rfl, rfl⟩
    | case5 => simp at h
    | case6 c s h₁ h₂ hc hn ih =>
      obtain ⟨m, hm, rfl⟩ := Option.map_eq_some_iff.mp h
      obtain ⟨w, hw, r, rfl, rfl⟩ := ih hm
      have hitem : [c] ∈ quotedItem q :=
        .inl (mem_char.mpr (by simp [hc, hn, ne_backslash_of_cases h₁ h₂]))
      exact ⟨[c] ++ w, append_mem_kstar hitem hw, r, rfl, by simp; omega⟩
  · rintro ⟨w, hw, r, rfl, rfl⟩
    have hquote : quotedAddressTail? q (q :: r) = some 1 := by
      rw [quotedAddressTail?_char (ne_backslash_of_isQuote hq), if_pos rfl]
    rw [quotedAddressTail?_items hw, hquote, Option.map_some]

/-! Addresses without quotes. -/

theorem mem_bareItem : u ∈ bareItem ↔ (∃ c, u = [c] ∧ isBlank c = false ∧ isQuote c = false ∧
    c ≠ '(' ∧ c ≠ ')' ∧ c ≠ '\\') ∨ u ∈ kept := by
  refine or_congr_left (exists_congr fun c => and_comm.trans (and_congr_right fun _ => ?_))
  simp [and_assoc]

theorem bareAddressLength_item (hu : u ∈ bareItem) (s : Text) :
    bareAddressLength (u ++ s) = u.length + bareAddressLength s := by
  obtain ⟨c, rfl, hc⟩ | ⟨c, rfl⟩ := mem_bareItem.mp hu
  · exact (bareAddressLength_char hc.2.2.2.2 s).trans (if_neg (by simp [hc]))
  · rfl

theorem bareAddressLength_items (hw : w ∈ bareItem∗) (s : Text) :
    bareAddressLength (w ++ s) = w.length + bareAddressLength s := by
  refine kstar_induction
    (P := fun w => bareAddressLength (w ++ s) = w.length + bareAddressLength s)
    (by simp) (fun u v hu _ ih => ?_) hw
  rw [List.append_assoc, bareAddressLength_item hu, ih, List.length_append, Nat.add_assoc]

/-- It is made of items, unless a backslash at the end of the text is part of it. -/
theorem bareAddressLength_spec (h : s.drop (bareAddressLength s) ≠ []) :
    ∃ w ∈ bareItem∗, ∃ r, s = w ++ r ∧ bareAddressLength s = w.length := by
  fun_induction bareAddressLength s with
  | case1 => simp at h
  | case2 => simp at h
  | case3 c s ih =>
    obtain ⟨w, hw, r, heq, hlen⟩ := ih (by rwa [Nat.add_comm] at h)
    have hitem : ['\\', c] ∈ bareItem := .inr ⟨c, rfl⟩
    refine ⟨['\\', c] ++ w, append_mem_kstar hitem hw, r, by rw [heq]; rfl, ?_⟩
    rw [hlen, List.length_append]
    rfl
  | case4 c s => exact ⟨[], Language.nil_mem_kstar _, c :: s, rfl, rfl⟩
  | case5 c s h₁ h₂ hc ih =>
    obtain ⟨w, hw, r, heq, hlen⟩ := ih (by rwa [Nat.add_comm, List.drop_succ_cons] at h)
    have hitem : [c] ∈ bareItem := by
      refine mem_bareItem.mpr (.inl ⟨c, rfl, ?_⟩)
      simp only [decide_eq_true_eq, Bool.or_eq_true, not_or] at hc
      simp [hc, ne_backslash_of_cases h₁ h₂]
    refine ⟨[c] ++ w, append_mem_kstar hitem hw, r, by rw [heq]; rfl, ?_⟩
    rw [hlen, List.length_append]
    rfl

theorem head_of_bareItem (hu : u ∈ bareItem) :
    ∃ c v, u = c :: v ∧ isBlank c = false ∧ isQuote c = false := by
  obtain ⟨c, rfl, hc⟩ | ⟨c, rfl⟩ := mem_bareItem.mp hu
  · exact ⟨c, [], rfl, hc.1, hc.2.1⟩
  · exact ⟨'\\', [c], rfl, by decide, by decide⟩

theorem head_of_bareItems (hw : w ∈ bareItem∗) :
    w = [] ∨ ∃ c v, w = c :: v ∧ isBlank c = false ∧ isQuote c = false := by
  refine kstar_induction
    (P := fun w => w = [] ∨ ∃ c v, w = c :: v ∧ isBlank c = false ∧ isQuote c = false)
    (.inl rfl) (fun u v hu _ _ => .inr ?_) hw
  obtain ⟨c, x, rfl, hc⟩ := head_of_bareItem hu
  exact ⟨c, x ++ v, rfl, hc⟩

/-! Addresses between blanks. -/

theorem closes_iff : Closes s ↔ ∃ e ∈ blank∗, ∃ r, s = e ++ ')' :: r := by
  constructor
  · intro h
    obtain ⟨r, hr⟩ := List.head?_eq_some_iff.mp h
    exact ⟨_, take_blanksLength s, r, by rw [← hr, List.take_append_drop]⟩
  · rintro ⟨e, he, r, rfl⟩
    rw [Closes, blanksLength_blanks he (by simp; decide), List.drop_left]
    rfl

/-- What is measured as an address before blanks and a parenthesis. -/
theorem addressLength?_closes_iff : addressLength? s = some n ∧ Closes (s.drop n) ↔
    ∃ w ∈ quotedAddress + bareItem∗, ∃ r, s = w ++ r ∧ n = w.length ∧ Closes r := by
  constructor
  · rintro ⟨h, hclose⟩
    have hne : s.drop n ≠ [] := by
      intro hn
      simp [hn, Closes] at hclose
    obtain ⟨c, s, rfl⟩ := List.exists_cons_of_ne_nil fun hs : s = [] => hne (by simp [hs])
    by_cases hq : isQuote c
    · rw [addressLength?, if_pos hq] at h
      obtain ⟨m, hm, rfl⟩ := Option.map_eq_some_iff.mp h
      obtain ⟨w, hw, r, rfl, rfl⟩ := (quotedAddressTail?_eq_some_iff hq).mp hm
      have hlen : 1 + (w.length + 1) = (c :: w ++ [c]).length := by simp; omega
      have heq : c :: (w ++ c :: r) = (c :: w ++ [c]) ++ r := by simp
      rw [hlen, heq, List.drop_left] at hclose
      exact ⟨c :: w ++ [c], .inl ⟨c, w, hq, hw, rfl⟩, r, heq, hlen, hclose⟩
    · rw [addressLength?, if_neg hq] at h
      obtain rfl := Option.some.inj h
      obtain ⟨w, hw, r, heq, hlen⟩ := bareAddressLength_spec hne
      rw [hlen, heq, List.drop_left] at hclose
      exact ⟨w, .inr hw, r, heq, hlen, hclose⟩
  · rintro ⟨w, hw, r, rfl, rfl, hclose⟩
    rw [List.drop_left]
    refine ⟨?_, hclose⟩
    rcases hw with ⟨q, w, hq, hw, rfl⟩ | hw
    · have htail := (quotedAddressTail?_eq_some_iff hq).mpr ⟨w, hw, r, rfl, rfl⟩
      have heq : (q :: w ++ [q]) ++ r = q :: (w ++ q :: r) := by simp
      rw [heq, addressLength?, if_pos hq, htail, Option.map_some, List.length_append, List.length_cons,
        List.length_singleton, Nat.add_comm, Nat.add_right_comm]
    · cases r with
      | nil => simp [Closes] at hclose
      | cons d r =>
        have hstop := bareAddressLength_stop hclose.head r
        have hlen := bareAddressLength_items hw (d :: r)
        rw [hstop, Nat.add_zero] at hlen
        obtain rfl | ⟨c, v, rfl, -, hc⟩ := head_of_bareItems hw
        · have hd : isQuote d = false := by
            rcases hclose.head with hd | rfl
            · exact Bool.eq_false_iff.mpr fun hq => by simp [not_isBlank_of_isQuote hq] at hd
            · decide
          rw [List.nil_append, addressLength?, if_neg (by simp [hd]), hstop]
          rfl
        · rw [List.cons_append, addressLength?, if_neg (by simp [hc]), ← List.cons_append, hlen]

theorem mem_enclosed {K : Language Char} {a : Text} : a ∈ enclosed K ↔
    ∃ b ∈ blank∗, ∃ w ∈ K, ∃ e ∈ blank∗, a = b ++ (w ++ (e ++ [')'])) := by
  simp only [enclosed, Language.mem_mul]
  constructor
  · rintro ⟨b, hb, _, ⟨w, hw, _, ⟨e, he, _, rfl, rfl⟩, rfl⟩, rfl⟩
    exact ⟨b, hb, w, hw, e, he, rfl⟩
  · rintro ⟨b, hb, w, hw, e, he, rfl⟩
    exact ⟨b, hb, _, ⟨w, hw, _, ⟨e, he, _, rfl, rfl⟩, rfl⟩, rfl⟩

/-- The blanks in front may be taken to be all that there are. -/
theorem mem_address {a : Text} (h : a ∈ address) : ∃ b ∈ blank∗, ∃ w ∈ quotedAddress + bareItem∗,
    ∃ e ∈ blank∗, a = b ++ (w ++ (e ++ [')'])) ∧
      ∀ c ∈ (w ++ (e ++ [')'])).head?, isBlank c = false := by
  obtain ⟨b, hb, w, hw, e, he, rfl⟩ := mem_enclosed.mp h
  have hcases : w = [] ∨ ∃ c v, w = c :: v ∧ isBlank c = false := by
    rcases hw with ⟨q, s, hq, -, rfl⟩ | hw
    · exact .inr ⟨q, s ++ [q], rfl, not_isBlank_of_isQuote hq⟩
    · exact (head_of_bareItems hw).imp_right fun ⟨c, v, hc, hb, _⟩ => ⟨c, v, hc, hb⟩
  obtain rfl | ⟨c, v, rfl, hc⟩ := hcases
  · exact ⟨b ++ e, kstar_append_mem hb he, [], hw, [], Language.nil_mem_kstar _, by simp,
      by simp; decide⟩
  · exact ⟨b, hb, c :: v, hw, e, he, rfl, by simpa using hc⟩

/-- An address is found exactly where one stands, and it is all that is found. -/
theorem uriTail?_eq_some_iff_mem :
    uriTail? s = some n ↔ ∃ a ∈ address, ∃ r, s = a ++ r ∧ n = a.length := by
  constructor
  · intro h
    obtain ⟨m, hm, hclose, rfl⟩ := uriTail?_eq_some_iff.mp h
    obtain ⟨w, hw, x, hx, rfl, hx'⟩ := addressLength?_closes_iff.mp ⟨hm, hclose⟩
    obtain ⟨e, he, r, rfl⟩ := closes_iff.mp hx'
    have hlen : (s.take (blanksLength s)).length = blanksLength s :=
      List.length_take_of_le (List.takeWhile_prefix isBlank).length_le
    refine ⟨_, mem_enclosed.mpr ⟨_, take_blanksLength s, w, hw, e, he, rfl⟩, r, ?_, ?_⟩
    · have hsplit := List.take_append_drop (blanksLength s) s
      rw [hx] at hsplit
      simpa using hsplit.symm
    · rw [hx, List.drop_left, blanksLength_blanks he (by simp; decide)]
      simp only [List.length_append, hlen, List.length_cons, List.length_nil]
      omega
  · rintro ⟨a, ha, r, rfl, rfl⟩
    obtain ⟨b, hb, w, hw, e, he, rfl, hfirst⟩ := mem_address ha
    have hassoc : b ++ (w ++ (e ++ [')'])) ++ r = b ++ (w ++ (e ++ ')' :: r)) := by simp
    have hblanks : blanksLength (b ++ (w ++ (e ++ ')' :: r))) = b.length := by
      refine blanksLength_blanks hb fun c hc => hfirst c ?_
      cases w <;> cases e <;> exact hc
    have hend : blanksLength (e ++ ')' :: r) = e.length := blanksLength_blanks he (by simp; decide)
    obtain ⟨hlen, hclose⟩ := addressLength?_closes_iff.mpr
      ⟨w, hw, e ++ ')' :: r, rfl, rfl, closes_iff.mpr ⟨e, he, r, rfl⟩⟩
    refine uriTail?_eq_some_iff.mpr ⟨w.length, ?_⟩
    rw [hassoc, hblanks, List.drop_left]
    refine ⟨hlen, hclose, ?_⟩
    rw [List.drop_left, hend]
    simp only [List.length_append, List.length_cons, List.length_nil]
    omega

end Stylesheet
