import Stylesheet.Proofs.Addresses
import Stylesheet.Proofs.BlurredScans

/-! What an `!` begins: the mark `!important` where the word follows behind blanks and comments, in
any mix of these and in capital or small letters, and else a character that means nothing. -/
namespace Stylesheet
open Computability Lexical Extent

namespace Lexical

/-- Blanks and closed comments in any mix. -/
def spacing : Language Char := (blank + comment)∗

/-- A word given in small letters, in capital or small ones. -/
def inAnyCase (word : String) : Language Char := {w | foldCase w = word.toList}

/-- What follows the `!` of the mark. -/
def importance : Language Char := spacing * inAnyCase "important"

end Lexical

variable {a g s t u w rest : Text} {k : Kind} {n : Nat}

/-! Spacing is measured to its end. -/

theorem spacingLength_item (hu : u ∈ blank + comment) (s : Text) :
    spacingLength (u ++ s) = u.length + spacingLength s := by
  rcases hu with ⟨c, hc, rfl⟩ | ⟨body, rfl, hno⟩
  · rw [List.singleton_append, spacingLength, if_pos hc, List.length_singleton]
  · have htail := commentTail_body hno s
    have hlen : ("/*".toList ++ body ++ "*/".toList).length = 2 + (body.length + 2) := by simp; omega
    have heq : "/*".toList ++ body ++ "*/".toList ++ s = '/' :: '*' :: (body ++ ("*/".toList ++ s)) := by
      simp
    rw [heq, spacingLength_comment (by rw [htail]), htail, ← heq, List.drop_left' hlen, hlen]

theorem spacingLength_spaced (hg : g ∈ spacing) (s : Text) :
    spacingLength (g ++ s) = g.length + spacingLength s := by
  refine kstar_induction (P := fun g => spacingLength (g ++ s) = g.length + spacingLength s)
    (by simp) (fun u v hu _ ih => ?_) hg
  rw [List.append_assoc, spacingLength_item hu, ih, List.length_append, Nat.add_assoc]

/-- What is measured as spacing is made of blanks and closed comments. -/
theorem take_spacingLength (s : Text) : s.take (spacingLength s) ∈ spacing := by
  fun_induction spacingLength s with
  | case1 => exact Language.nil_mem_kstar _
  | case2 c s hb ih =>
    rw [Nat.add_comm, List.take_succ_cons]
    exact append_mem_kstar (u := [c]) (.inl ⟨c, hb, rfl⟩) ih
  | case3 c s hb hc tail ht ih =>
    obtain ⟨rfl, hstar⟩ := hc
    obtain ⟨r, rfl⟩ := List.head?_eq_some_iff.mp hstar
    have hend : (commentTail r).2 = true := ht
    have hcomment := comment_tiles (r := r)
    rw [if_pos hend] at hcomment
    have hfront : ('/' :: '*' :: r).take (2 + tail.1) = '/' :: '*' :: r.take (commentTail r).1 := by
      rw [Nat.add_comm]
      rfl
    rw [List.take_add, hfront]
    exact append_mem_kstar (.inr hcomment) ih
  | case4 => exact Language.nil_mem_kstar _
  | case5 => exact Language.nil_mem_kstar _

/-- No spacing starts where the word does. -/
theorem spacingLength_word (hw : w ∈ inAnyCase "important") (s : Text) :
    spacingLength (w ++ s) = 0 := by
  obtain ⟨c, v, rfl⟩ := List.exists_cons_of_ne_nil (show w ≠ [] by rintro rfl; cases hw)
  have hc : c.toLower = 'i' := (List.cons.inj hw).1
  have hblank : isBlank c = false := by
    rw [← caseBlind_isBlank c, hc]
    decide
  have hslash : c ≠ '/' := by
    rintro rfl
    exact absurd hc (by decide)
  rw [List.cons_append, spacingLength, if_neg (by simp [hblank]), if_neg fun h => hslash h.1]

/-! The mark. -/

/-- The word stands at the front, behind spacing, and no name goes on after it. -/
def Marks (a s : Text) : Prop := a ∈ importance ∧ ∃ r, s = a ++ r ∧ ∀ c ∈ r.head?, isNameChar c = false

/-- The mark is found exactly where the word stands, and it is all that is found. -/
theorem importantTail?_eq_some_iff_marks : importantTail? s = some n ↔ ∃ a, Marks a s ∧ n = a.length := by
  constructor
  · intro h
    obtain ⟨⟨hword, hend⟩, rfl⟩ := importantTail?_eq_some.mp h
    have hlen : ((s.drop (spacingLength s)).take 9).length = 9 := by
      simpa [foldCase] using congrArg List.length hword
    have hspacing : (s.take (spacingLength s)).length = spacingLength s := by
      simp only [List.length_take, List.length_drop] at hlen ⊢
      omega
    have hmem : (s.drop (spacingLength s)).take 9 ∈ inAnyCase "important" := hword
    refine ⟨_, ⟨Language.append_mem_mul (take_spacingLength s) hmem,
      (s.drop (spacingLength s)).drop 9, ?_, ?_⟩, ?_⟩
    · rw [List.append_assoc, List.take_append_drop, List.take_append_drop]
    · simpa [Option.any_eq_false] using hend
    · rw [List.length_append, hspacing, hlen]
  · rintro ⟨_, ⟨ha, r, rfl, hr⟩, rfl⟩
    obtain ⟨g, hg, w, hw, rfl⟩ := Language.mem_mul.mp ha
    have hword : foldCase w = "important".toList := hw
    have hlen : w.length = 9 := by simpa [foldCase] using congrArg List.length hword
    have hspacing : spacingLength (g ++ w ++ r) = g.length := by
      rw [List.append_assoc, spacingLength_spaced hg, spacingLength_word hw, Nat.add_zero]
    refine importantTail?_eq_some.mpr ?_
    rw [hspacing, List.append_assoc, List.drop_left, List.take_left' hlen, List.drop_left' hlen,
      List.length_append, hlen]
    refine ⟨⟨hword, ?_⟩, rfl⟩
    simpa [Option.any_eq_false] using hr

/-- How a token of the kind `k` and the text `t` in front of `rest` reads what follows an `!` at its
front: as the word of the mark, or as no part of it. -/
structure ReadsMark (k : Kind) (t rest s : Text) : Prop where
  marked : k = .importantSym ↔ ∃ a, Marks a s
  text : ∀ a, Marks a s → t = '!' :: a
  refused : k ≠ .importantSym → k = .delim ∧ t = ['!'] ∧ rest = s

theorem Measured.readsMark (h : Measured k t rest) (heq : t ++ rest = '!' :: s) : ReadsMark k t rest s := by
  obtain ⟨c, x, hkind, rfl, rfl⟩ := h
  rw [List.cons_append, List.take_append_drop] at heq
  obtain ⟨rfl, rfl⟩ := List.cons.inj heq
  rw [measure_exclamation] at hkind ⊢
  cases hn : importantTail? x with
  | some n =>
    rw [hn] at hkind
    obtain rfl : .importantSym = k := Option.some.inj hkind
    obtain ⟨a, ha, -⟩ := importantTail?_eq_some_iff_marks.mp hn
    refine ⟨iff_of_true rfl ⟨a, ha⟩, fun b hb => ?_, fun hne => absurd rfl hne⟩
    have hlen := importantTail?_eq_some_iff_marks.mpr ⟨b, hb, rfl⟩
    obtain ⟨-, r, rfl, -⟩ := hb
    obtain rfl := Option.some.inj (hn.symm.trans hlen)
    have hmore : (ofLength .importantSym (1 + b.length)).more = b.length := Nat.add_sub_cancel_left 1 _
    dsimp only
    rw [hmore, List.take_left]
  | none =>
    rw [hn] at hkind
    obtain rfl : .delim = k := Option.some.inj hkind
    have hno : ∀ a, ¬ Marks a x := fun a ha => by
      have := importantTail?_eq_some_iff_marks.mpr ⟨a, ha, rfl⟩
      rw [hn] at this
      cases this
    exact ⟨iff_of_false (by decide) fun ⟨a, ha⟩ => hno a ha, fun a ha => absurd ha (hno a),
      fun _ => ⟨rfl, rfl, rfl⟩⟩

/-- A token that begins with an `!` is the mark exactly where its word follows, and ends with the word;
else it is the `!` alone, and what follows it is read on its own. -/
theorem tokens_importance (css : Text) : Cut (fun k t rest => ∀ s, t ++ rest = '!' :: s →
    ReadsMark k t rest s) css (tokens css) :=
  (cut_tokens css).mono fun h _ heq => h.readsMark heq

example : (tokens "! /* ! */Important!important-".toList).map Token.kind =
    [.importantSym, .delim, .ident, .eof] := by cbv

end Stylesheet
