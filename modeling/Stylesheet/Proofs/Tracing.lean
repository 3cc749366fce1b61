import Stylesheet.Proofs.EventWords
import Stylesheet.Proofs.Reading
import Stylesheet.Proofs.Syntax

/-! Productions against languages: what is taken is a word of tokens and what is fired a word of
events, brace by brace; a failure leaves beginnings of such words. -/
namespace Stylesheet
open Computability Syntax

/-- The text of a combinator sign and the first character of a hash are those of its kind. -/
structure Token.Regular (t : Token) : Prop where
  plus : t.kind = .plus → t.text = ['+']
  greater : t.kind = .greater → t.text = ['>']
  hash : t.kind = .hash → t.text.head? = some '#'

/-- A token of a given kind. -/
def Kind.sample (k : Kind) : Token :=
  ⟨k, match k with
    | .plus => ['+']
    | .greater => ['>']
    | .hash => "#000".toList
    | _ => [], .start⟩

theorem Kind.sample_regular (k : Kind) : k.sample.Regular := by
  constructor <;> rintro rfl <;> rfl

/-- Regular tokens can follow `w` so that all are a word of `K`. -/
def Completes (K : Language Token) (w : List Token) : Prop :=
  ∃ x, (∀ t ∈ x, t.Regular ∧ t.kind ≠ .eof) ∧ w ++ x ∈ K

/-- A word of tokens with a word of events; start and end events correspond to braces. -/
structure Trace (K : Language Token) (M : Language Event) (w : List Token) (es : List Event) :
    Prop where
  tokens : w ∈ K
  events : es ∈ M
  braces : es.filterMap Event.brace? = w.filterMap Token.brace?

/-- Beginnings of such words. -/
structure Viable (K : Language Token) (M : Language Event) (w : List Token) (es : List Event) :
    Prop where
  tokens : Completes K w
  events : es ∈ prefixes M
  braces : es.filterMap Event.brace? = w.filterMap Token.brace?

variable {K L : Language Token} {M N : Language Event} {w v : List Token} {es fs : List Event}

theorem Completes.mono (h : Completes K w) (hK : K ≤ L) : Completes L w := by
  obtain ⟨x, hx, hw⟩ := h
  exact ⟨x, hx, mem_of_le hK hw⟩

theorem Completes.mul_right (h : Completes K w) (hL : Completes L []) : Completes (K * L) w := by
  obtain ⟨x, hx, hw⟩ := h
  obtain ⟨y, hy, hv⟩ := hL
  refine ⟨x ++ y, fun t ht => ?_, ?_⟩
  · exact (List.mem_append.mp ht).elim (hx t) (hy t)
  · rw [← List.append_assoc]
    exact Language.append_mem_mul hw hv

theorem Completes.mul_left (hw : w ∈ K) (h : Completes L v) : Completes (K * L) (w ++ v) := by
  obtain ⟨x, hx, hv⟩ := h
  refine ⟨x, hx, ?_⟩
  rw [List.append_assoc]
  exact Language.append_mem_mul hw hv

theorem prefixes_mono (h : M ≤ N) : prefixes M ≤ prefixes N := fun _ ⟨x, hx⟩ => ⟨x, mem_of_le h hx⟩

namespace Trace

theorem mono (h : Trace K M w es) (hK : K ≤ L) (hM : M ≤ N) : Trace L N w es :=
  ⟨mem_of_le hK h.tokens, mem_of_le hM h.events, h.braces⟩

theorem append (h : Trace K M w es) (h' : Trace L N v fs) :
    Trace (K * L) (M * N) (w ++ v) (es ++ fs) :=
  ⟨Language.append_mem_mul h.tokens h'.tokens, Language.append_mem_mul h.events h'.events, by
    rw [List.filterMap_append, List.filterMap_append, h.braces, h'.braces]⟩

theorem append_viable (h : Trace K M w es) (h' : Viable L N v fs) :
    Viable (K * L) (M * N) (w ++ v) (es ++ fs) := by
  refine ⟨h'.tokens.mul_left h.tokens, ?_, ?_⟩
  · obtain ⟨x, hx⟩ := h'.events
    exact ⟨x, by rw [List.append_assoc]; exact Language.append_mem_mul h.events hx⟩
  · rw [List.filterMap_append, List.filterMap_append, h.braces, h'.braces]

theorem nil (hK : [] ∈ K) (hM : [] ∈ M) : Trace K M [] [] := ⟨hK, hM, rfl⟩

end Trace

namespace Viable

theorem mono (h : Viable K M w es) (hK : K ≤ L) (hM : M ≤ N) : Viable L N w es :=
  ⟨h.tokens.mono hK, mem_of_le (prefixes_mono hM) h.events, h.braces⟩

theorem mul_right (h : Viable K M w es) (h' : Viable L N [] []) :
    Viable (K * L) (M * N) w es := by
  refine ⟨h.tokens.mul_right h'.tokens, ?_, h.braces⟩
  obtain ⟨x, hx⟩ := h.events
  obtain ⟨y, hy⟩ := h'.events
  exact ⟨x ++ y, by rw [← List.append_assoc]; exact Language.append_mem_mul hx hy⟩

end Viable

theorem Trace.viable (h : Trace K M [] []) : Viable K M [] [] :=
  ⟨⟨[], by simp, by simpa using h.tokens⟩, ⟨[], h.events⟩, rfl⟩

/-! Blanks are ignored before a token. -/

theorem mem_blanks : w ∈ blanks ↔ ∀ t ∈ w, t.isSpace := by
  constructor
  · intro h
    refine kstar_induction (P := fun w => ∀ t ∈ w, t.isSpace) (by simp) ?_ h
    rintro u v ⟨t, ht, rfl⟩ - ih
    simp only [List.mem_singleton] at ht
    simpa [Token.isSpace, ht] using ih
  · intro h
    induction w with
    | nil => exact Language.nil_mem_kstar _
    | cons t w ih =>
      have ht : [t] ∈ here [.space] := ⟨t, by simpa [Token.isSpace] using h t (by simp), rfl⟩
      have hw := ih fun u hu => h u (List.mem_cons_of_mem t hu)
      exact mem_of_le mul_kstar_le_kstar (Language.append_mem_mul ht hw)

theorem le_blanks_mul (K : Language Token) : K ≤ blanks * K := by
  have := mul_le_mul' (one_le_kstar (a := here [.space])) (le_refl K)
  rwa [one_mul] at this

@[simp] theorem blanks_mul_blanks : blanks * blanks = blanks := kstar_mul_kstar _

@[simp] theorem blanks_mul_blanks_mul (K : Language Token) :
    blanks * (blanks * K) = blanks * K := by
  rw [← mul_assoc, blanks_mul_blanks]

@[simp] theorem blanks_mul_tok (ks : List Kind) : blanks * tok ks = tok ks :=
  blanks_mul_blanks_mul _

@[simp] theorem blanks_mul_tok_mul (ks : List Kind) (K : Language Token) :
    blanks * (tok ks * K) = tok ks * K := by
  rw [← mul_assoc, blanks_mul_tok]

theorem mem_tok {s : List Token} {t : Token} {ks : List Kind} (hs : ∀ b ∈ s, b.isSpace)
    (ht : t.kind ∈ ks) : s ++ [t] ∈ tok ks :=
  Language.append_mem_mul (mem_blanks.mpr hs) ⟨t, ht, rfl⟩

theorem Completes.blanks {s : List Token} (hs : ∀ b ∈ s, b.isSpace) (h : Completes K [])
    (hK : Syntax.blanks * K ≤ K) : Completes K s := by
  have := h.mul_left (mem_blanks.mpr hs)
  rw [List.append_nil] at this
  exact this.mono hK

/-- A word that may begin with blanks but does not. -/
theorem mem_of_mem_blanks_mul (hw : ∀ t ∈ w.head?, t.isSpace = false) (h : w ∈ blanks * K) :
    w ∈ K := by
  obtain ⟨s, hs, u, hu, rfl⟩ := Language.mem_mul.mp h
  cases s with
  | nil => exact hu
  | cons b s =>
    have hb := hw b (by simp)
    simp [mem_blanks.mp hs b (by simp)] at hb

theorem Completes.of_blanks_mul (hw : ∀ t ∈ w.head?, t.isSpace = false)
    (h : Completes (Syntax.blanks * K) w) : Completes K w := by
  obtain ⟨x, hx, h⟩ := h
  cases w with
  | nil =>
    obtain ⟨s, -, u, hu, rfl⟩ := Language.mem_mul.mp h
    exact ⟨u, fun t ht => hx t (List.mem_append_right s ht), hu⟩
  | cons t w => exact ⟨x, hx, mem_of_mem_blanks_mul hw h⟩

theorem length_lt {x w r : List Token} (hK : [] ∉ K) (hx : x = w ++ r) (hw : w ∈ K) :
    r.length < x.length := by
  have : w.length ≠ 0 := fun h => hK (List.eq_nil_of_length_eq_zero h ▸ hw)
  rw [hx, List.length_append]
  omega

/-- Kinds that a token may have where it is neither a brace nor a blank nor the end. -/
def Plain (ks : List Kind) : Prop :=
  ks ≠ [] ∧ ∀ k ∈ ks, k ≠ .eof ∧ k ≠ .space ∧ k.brace? = none

instance (ks : List Kind) : Decidable (Plain ks) := inferInstanceAs (Decidable (_ ∧ _))

theorem Plain.completes {ks : List Kind} (h : Plain ks) : Completes (tok ks) [] := by
  obtain ⟨hne, hk⟩ := h
  obtain ⟨k, hm⟩ := List.exists_mem_of_ne_nil ks hne
  refine ⟨[k.sample], ?_, mem_tok (s := []) (by simp) hm⟩
  intro t ht
  obtain rfl := List.mem_singleton.mp ht
  exact ⟨k.sample_regular, (hk k hm).1⟩

theorem braces_blanks {s : List Token} (hs : ∀ b ∈ s, b.isSpace) :
    s.filterMap Token.brace? = [] := by
  rw [List.filterMap_eq_nil_iff]
  intro b hb
  have := hs b hb
  simp only [Token.isSpace, decide_eq_true_eq] at this
  simp [Token.brace?, this, Kind.brace?]

theorem Plain.braces {ks : List Kind} (h : Plain ks) {s : List Token} {t : Token}
    (hs : ∀ b ∈ s, b.isSpace) (ht : t.kind ∈ ks) : (s ++ [t]).filterMap Token.brace? = [] := by
  rw [List.filterMap_append, braces_blanks hs]
  simp [Token.brace?, (h.2 _ ht).2.2]

theorem Plain.trace {ks : List Kind} (h : Plain ks) {s : List Token} {t : Token}
    (hs : ∀ b ∈ s, b.isSpace) (ht : t.kind ∈ ks) : Trace (tok ks) 1 (s ++ [t]) [] :=
  ⟨mem_tok hs ht, rfl, (h.braces hs ht).symm⟩

end Stylesheet
