import Stylesheet.Proofs.GrammarAddresses
import Stylesheet.Proofs.TermTexts
import Stylesheet.Proofs.Unterminated

/-! No token and no comment ends between the two characters of the pair CR LF. -/
namespace Stylesheet
open Computability Lexical Extent

/-- No pair CR LF lies across the seam of two texts. -/
def Unsplit (s t : Text) : Prop := s.getLast? = some '\r' → t.head? ≠ some '\n'

/-- A word that ends in CR is one with LF behind it, too. -/
def Pairs (K : Language Char) : Prop := ∀ w, w ++ ['\r'] ∈ K → w ++ "\r\n".toList ∈ K

variable {K L : Language Char} {c : Char} {s t rest : Text} {k : Kind}

theorem Unsplit.nil_left (t : Text) : Unsplit [] t := fun h => absurd h (by simp)

theorem Unsplit.nil_right (s : Text) : Unsplit s [] := fun _ => by simp

theorem Unsplit.of_getLast? (h : s.getLast? ≠ some '\r') (t : Text) : Unsplit s t :=
  fun hr => absurd hr h

theorem Unsplit.append (hs : s ≠ []) (h : Unsplit s rest) (t : Text) : Unsplit (t ++ s) rest := by
  intro hr
  rw [List.getLast?_append_of_ne_nil t hs] at hr
  exact h hr

/-- The longest match takes in the LF behind a CR. -/
theorem LongestMatch.unsplit (h : LongestMatch K t rest) (hK : Pairs K) : Unsplit t rest := by
  intro hr hn
  obtain ⟨w, rfl⟩ := List.getLast?_eq_some_iff.mp hr
  obtain ⟨r, rfl⟩ := List.head?_eq_some_iff.mp hn
  have := h.2 _ (hK w h.1) ⟨r, by simp⟩
  simp at this

namespace Pairs

/-- In a language of words that do not end in CR there is nothing to show. -/
theorem of_getLast? (h : ∀ w ∈ K, w.getLast? ≠ some '\r') : Pairs K :=
  fun w hw => absurd (by simp) (h _ hw)

theorem add (hK : Pairs K) (hL : Pairs L) : Pairs (K + L) :=
  fun w hw => hw.imp (hK w) (hL w)

theorem mul (hK : Pairs K) (hL : Pairs L) : Pairs (K * L) := by
  intro w hw
  obtain ⟨u, hu, v, hv, heq⟩ := Language.mem_mul.mp hw
  cases v using List.reverseRecOn with
  | nil =>
    rw [List.append_nil] at heq
    have := Language.append_mem_mul (hK w (heq ▸ hu)) hv
    rwa [List.append_nil] at this
  | append_singleton v d =>
    rw [← List.append_assoc] at heq
    obtain ⟨rfl, hd⟩ := List.append_inj' heq rfl
    rw [List.append_assoc]
    exact Language.append_mem_mul hu (hL v (hd ▸ hv))

theorem one : Pairs 1 := of_getLast? fun w hw => by
  obtain rfl : w = [] := hw
  simp

theorem opt (hK : Pairs K) : Pairs (opt K) := one.add hK

theorem kstar (hK : Pairs K) : Pairs K∗ := by
  intro w hw
  generalize heq : w ++ ['\r'] = x at hw
  refine kstar_induction (P := fun x => ∀ w, w ++ ['\r'] = x → w ++ "\r\n".toList ∈ K∗)
    (by simp) (fun u v hu hv ih w heq => ?_) hw w heq
  cases v using List.reverseRecOn with
  | nil =>
    rw [List.append_nil] at heq
    exact mem_of_le le_kstar (hK w (heq ▸ hu))
  | append_singleton v d =>
    rw [← List.append_assoc] at heq
    obtain ⟨rfl, hd⟩ := List.append_inj' heq rfl
    rw [List.append_assoc]
    exact append_mem_kstar hu (ih v (by rw [hd]))

theorem exactly {x : String} (h : x.toList.getLast? ≠ some '\r') : Pairs (exactly x) :=
  of_getLast? fun _ hw => mem_exactly.mp hw ▸ h

theorem char {p : Char → Bool} (h : p '\r' = false) : Pairs (char p) := by
  refine of_getLast? fun w hw => ?_
  obtain ⟨c, hc, rfl⟩ := hw
  intro hr
  obtain rfl : c = '\r' := by simpa using hr
  simp [h] at hc

/-- One blank or newline, where the pair is a word by itself. -/
theorem char_pair (p : Char → Bool) : Pairs (Lexical.char p + Lexical.exactly "\r\n") := by
  rintro w (⟨c, -, heq⟩ | heq)
  · have heq : w ++ ['\r'] = [] ++ [c] := heq
    obtain ⟨rfl, -⟩ := List.append_inj' heq rfl
    exact .inr rfl
  · exact absurd (congrArg List.getLast? (mem_exactly.mp heq)) (by simp)

theorem escape : Pairs escape := by
  refine add ?_ (of_getLast? ?_)
  · rintro w ⟨ds, b, heq, hne, hl, hd, hb⟩
    cases b using List.reverseRecOn with
    | nil =>
      obtain ⟨ds, d, rfl⟩ := List.eq_nil_or_concat ds |>.resolve_left hne
      have hlast := congrArg List.getLast? heq
      obtain rfl : '\r' = d := by simpa [List.getLast?_cons] using hlast
      exact absurd (hd '\r' (by simp)) (by decide)
    | append_singleton b d =>
      have heq : w ++ ['\r'] = '\\' :: (ds ++ b) ++ [d] := by simpa using heq
      obtain ⟨rfl, hd'⟩ := List.append_inj' heq rfl
      exact ⟨ds, b ++ "\r\n".toList, by simp, hne, hl, hd,
        (char_pair isBlank).opt b (by rw [hd']; exact hb)⟩
  · rintro w ⟨c, -, hc, rfl⟩
    rintro ⟨⟩
    exact absurd hc (by decide)

theorem nmchar : Pairs nmchar := (char (by decide)).add escape

theorem ident : Pairs ident :=
  (exactly (by decide)).opt.mul (((char (by decide)).add escape).mul nmchar.kstar)

theorem number : Pairs number := of_getLast? fun w hw hr =>
  absurd (mem_number hw '\r' (List.mem_of_getLast? hr)) (by decide)

theorem stringItem (q : Char) : Pairs (stringItem q) :=
  ((char (by simp [isNewline])).add ((exactly (by decide)).mul (char_pair isNewline))).add escape

theorem openString : Pairs openString := by
  rintro w ⟨q, s, hq, hs, heq⟩
  cases w with
  | nil =>
    obtain ⟨rfl, -⟩ := List.cons.inj heq
    exact absurd hq (by decide)
  | cons d w =>
    obtain ⟨rfl, rfl⟩ := List.cons.inj heq
    exact ⟨d, _, hq, (stringItem d).kstar w hs, rfl⟩

theorem closedString : Pairs closedString := by
  refine of_getLast? ?_
  rintro w ⟨q, s, hq, -, rfl⟩ hr
  rw [List.cons_append, List.getLast?_cons, List.getLast?_concat] at hr
  obtain rfl := Option.some.inj hr
  exact absurd hq (by decide)

theorem blanks : Pairs (blank * blank∗) := by
  intro w hw
  obtain ⟨-, hall⟩ := mem_char_mul_kstar.mp hw
  have hpair : ∀ c ∈ "\r\n".toList, isBlank c := by simp [isBlank, isNewline]
  refine mem_char_mul_kstar.mpr ⟨by simp, fun c hc => ?_⟩
  exact (List.mem_append.mp hc).elim (fun hc => hall c (List.mem_append_left _ hc)) (hpair c)

theorem spelling {names : Kind → List Text} (h : ∀ n ∈ names k, '\r' ∉ n) :
    Pairs (spelling names k) := by
  refine fun w hw => absurd ?_ (h _ hw.2)
  rw [foldCase, List.map_append]
  simp

theorem otherSpelling {names : Kind → List Text} (h : ∀ k, ∀ n ∈ names k, '\n' ∉ n) :
    Pairs (otherSpelling names) := by
  refine fun w hw => ⟨ident w hw.1, fun k hk => absurd ?_ (h k _ hk)⟩
  rw [foldCase, List.map_append]
  simp

theorem suffixOf (k : Kind) : Pairs (suffixOf k) := by
  have hother : Pairs (Lexical.otherSpelling unitNames) :=
    otherSpelling fun k => by cases k <;> decide
  cases k
  case number => exact one
  case percentage => exact exactly (by decide)
  case dimension => exact hother
  all_goals exact spelling (by decide)

theorem atWord (k : Kind) : Pairs (atWord k) := by
  have hother : Pairs (Lexical.otherSpelling atNames) :=
    otherSpelling fun k => by cases k <;> decide
  cases k
  case atKeyword => exact hother
  all_goals exact spelling (by decide)

theorem production (k : Kind) : Pairs (production k) := by
  have hat : ∀ k, Pairs (Lexical.exactly "@" * Lexical.atWord k) :=
    fun k => (exactly (by decide)).mul (atWord k)
  by_cases hk : k ∈ numericKinds
  · exact production_numeric hk ▸ number.mul (suffixOf k)
  cases k
  case space => exact blanks
  case string => exact closedString.add (openString.mul (exactly (by decide)).opt)
  case invalid => exact openString
  case ident => exact ident
  case function => exact ident.mul (exactly (by decide))
  case hash => exact (exactly (by decide)).mul (nmchar.mul nmchar.kstar)
  case importSym | pageSym | mediaSym | charsetSym | atKeyword => exact hat _
  case uri | importantSym | delim | eof => exact fun _ hw => absurd hw (Set.notMem_empty _)
  all_goals first
    | exact exactly (by decide)
    | exact absurd (by decide) hk

end Pairs

/-! The kinds that the productions leave out: addresses end with their parenthesis, `!important` with
its word, and a character that means nothing is no blank. -/

theorem measure_mark (h : (measure c s).kind = some k) (hk : k = .delim ∨ k = .importantSym) :
    (measure c s).more = 0 ∨ ∃ n, importantTail? s = some n ∧ measure c s = ofLength .importantSym (1 + n) := by
  have htable : ∀ l : List (Text × Kind), (∀ p ∈ l, p.2 ≠ .delim ∧ p.2 ≠ .importantSym) →
      ∀ j u, j ≠ .delim ∧ j ≠ .importantSym → (l.lookup u).getD j ≠ k := by
    rintro l hl j u ⟨hdelim, himportant⟩
    rcases hk with rfl | rfl
    · exact lookup_getD_ne (fun p hp => (hl p hp).1) hdelim u
    · exact lookup_getD_ne (fun p hp => (hl p hp).2) himportant u
  have hno : ∀ {j : Kind}, j ≠ .delim ∧ j ≠ .importantSym → j ≠ k := by
    rintro j ⟨hdelim, himportant⟩
    rcases hk with rfl | rfl
    · exact hdelim
    · exact himportant
  have hword : ∀ t, (ofWord t).kind ≠ some k := by
    intro t
    unfold ofWord
    dsimp only
    split_ifs
    · split <;> simp [ofLength, hno]
    all_goals simp [ofLength, hno]
  have hnumber : ∀ t, (ofNumber t).kind ≠ some k := by
    intro t
    have hunit : ∀ u, unitKind u ≠ k := fun u => htable units (by decide) _ _ (by decide)
    unfold ofNumber
    dsimp only
    split_ifs <;> simp [ofLength, hunit, hno]
  revert h
  unfold Extent.measure
  split
  · simp [ofLength, hno]
  split
  · unfold ofString
    dsimp only
    split_ifs <;> simp [hno]
  split
  · exact fun h => absurd h (hnumber _)
  split
  · exact fun h => absurd h (hword _)
  split
  case h_1 => split_ifs <;> simp [ofLength, hno]
  case h_2 => split_ifs <;> simp [ofLength, hno]
  case h_3 =>
    split_ifs
    · simp [ofLength, hno]
    · exact fun h => absurd h (hword _)
    · simp [ofLength, hno]
  case h_4 =>
    split_ifs
    · simp [ofLength, hno]
    · exact fun h => absurd h (hnumber _)
  case h_6 =>
    have hat : ∀ u, atKind u ≠ k := fun u => htable atKeywords (by decide) _ _ (by decide)
    unfold ofAt
    dsimp only
    split_ifs <;> simp [ofLength, hat]
  case h_7 =>
    split
    next n hn => exact fun _ => .inr ⟨n, hn, rfl⟩
    · simp [ofLength]
  case h_10 => simp [ofLength]
  all_goals split_ifs <;> simp [ofLength, hno]

theorem Measured.unsplit_mark (h : Measured k t rest) (hk : k = .delim ∨ k = .importantSym) :
    Unsplit t rest := by
  obtain ⟨c, s, hkind, rfl, rfl⟩ := h
  obtain hmore | ⟨n, hn, he⟩ := measure_mark hkind hk
  · rw [hmore]
    refine .of_getLast? (fun hr => ?_) _
    obtain rfl : c = '\r' := by simpa using hr
    rw [measure_blank (by decide)] at hkind
    obtain rfl := Option.some.inj hkind
    exact absurd hk (by decide)
  · obtain ⟨⟨hword, -⟩, rfl⟩ := importantTail?_eq_some.mp hn
    have hmore : (measure c s).more = spacingLength s + 9 := by
      rw [he]
      exact Nat.add_sub_cancel_left 1 _
    have hlast : ((s.drop (spacingLength s)).take 9).getLast?.map Char.toLower = some 't' := by
      rw [← List.getLast?_map]
      exact congrArg List.getLast? hword
    rw [hmore, List.take_add, ← List.cons_append]
    refine Unsplit.append (fun hnil => by simp [hnil] at hlast) (.of_getLast? (fun hr => ?_) _) _
    rw [hr] at hlast
    exact absurd hlast (by decide)

theorem Measured.uri_text (h : Measured .uri t rest) :
    ∃ u a, foldCase u = "url".toList ∧ a ∈ address ∧ t = u ++ '(' :: a := by
  obtain ⟨c, s, hkind, ht, hrest⟩ := id h
  obtain ⟨u, z, m, heq, hu, -⟩ := ofWord_uri (measure_uri hkind ▸ hkind)
  have hreads := h.readsAddress hu (s := z) (by rw [ht, hrest, ← heq, List.cons_append, List.take_append_drop])
  by_contra hno
  refine absurd (hreads.refused fun a ha hp => hno ?_).1 (by decide)
  exact ⟨u, a, hu, ha, (hreads.found a ha hp).2⟩

theorem Measured.unsplit (h : Measured k t rest) : Unsplit t rest := by
  by_cases hk : k ∈ otherKinds
  · cases k
    case uri =>
      obtain ⟨u, a, -, ha, rfl⟩ := h.uri_text
      obtain ⟨b, -, w, -, e, -, rfl⟩ := mem_enclosed.mp ha
      refine .of_getLast? ?_ _
      simp [List.getLast?_cons]
    case delim => exact h.unsplit_mark (.inl rfl)
    case importantSym => exact h.unsplit_mark (.inr rfl)
    case eof => exact absurd rfl h.isToken.2
    all_goals exact absurd hk (by decide)
  · exact (h.scanned hk).longest.unsplit (Pairs.production k)

/-- No lexeme ends between CR and LF. -/
theorem Extent.measure_unsplit (c : Char) (s : Text) :
    Unsplit (c :: s.take (measure c s).more) (s.drop (measure c s).more) := by
  obtain ⟨k, hk, -⟩ | ⟨r, rfl, rfl, hx⟩ := measure_cases c s
  · exact Measured.unsplit ⟨c, s, hk, rfl, rfl⟩
  · have htiles := comment_tiles (r := r)
    rw [hx]
    dsimp only
    rw [Nat.add_comm, List.take_succ_cons, List.drop_succ_cons]
    cases h : (commentTail r).2 with
    | true =>
      rw [h, if_pos rfl] at htiles
      obtain ⟨body, heq, -⟩ := htiles
      rw [heq]
      exact Unsplit.append (by decide) (.of_getLast? (by decide) _) _
    | false =>
      rw [h, if_neg (by simp)] at htiles
      rw [htiles.2, List.drop_length]
      exact .nil_right _

end Stylesheet
