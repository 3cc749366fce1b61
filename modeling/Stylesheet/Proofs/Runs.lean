import Stylesheet.Proofs.LongestStrings
import Stylesheet.Proofs.AlikeSelectors
import Stylesheet.Proofs.Tiling

/-! Productions run on texts: what they do before the tokens of a text, and the text before whose
tokens they stop. -/
namespace Stylesheet
open Computability Lexical

/-! The tokens of a text whose front is known. -/

theorem comment_front {g : Text} (h : g ∈ comment∗) (hne : g ≠ []) : ∃ r, g = '/' :: '*' :: r := by
  obtain ⟨u, ⟨body, rfl, -⟩, v, -, rfl⟩ := Language.mem_mul.mp (mem_mul_kstar h hne)
  exact ⟨body ++ "*/".toList ++ v, by simp⟩

theorem openComment_front {g : Text} (h : g ∈ openComment) : ∃ r, g = '/' :: '*' :: r := by
  obtain ⟨body, rfl, -⟩ := h
  exact ⟨body, rfl⟩

/-- Where a token is measured no comment starts. -/
theorem Measured.no_comment {k : Kind} {t rest r : Text} (h : Measured k t rest) :
    t ++ rest ≠ '/' :: '*' :: r := by
  obtain ⟨c, s, hk, rfl, rfl⟩ := h
  rw [List.cons_append, List.take_append_drop]
  intro heq
  obtain ⟨rfl, rfl⟩ := List.cons.inj heq
  have hnone : (Extent.measure '/' ('*' :: r)).kind = none := rfl
  simp [hnone] at hk

theorem Measured.unique {k k' : Kind} {t t' rest rest' : Text} (h : Measured k t rest)
    (h' : Measured k' t' rest') (heq : t ++ rest = t' ++ rest') : k = k' ∧ t = t' ∧ rest = rest' := by
  obtain ⟨c, s, hk, rfl, rfl⟩ := h
  obtain ⟨c', s', hk', rfl, rfl⟩ := h'
  rw [List.cons_append, List.cons_append, List.take_append_drop, List.take_append_drop] at heq
  obtain ⟨rfl, rfl⟩ := List.cons.inj heq
  exact ⟨Option.some.inj (hk.symm.trans hk'), rfl, rfl⟩

/-- The first token of a text that starts with one. -/
theorem Cut.front {k : Kind} {t rest : Text} {ts : List Token} (h : Cut Measured (t ++ rest) ts)
    (hm : Measured k t rest) : ∃ u us, ts = u :: us ∧ u.kind = k ∧ u.text = t ∧
      Cut Measured rest us := by
  generalize hx : t ++ rest = x at h
  cases h with
  | last hg =>
    obtain ⟨g, hstar, g', hg', rfl⟩ := Language.mem_mul.mp hg
    by_cases hne : g = []
    · subst hne
      cases hg' with
      | inl hnil =>
        have ht := hm.isToken.1
        simp_all [show g' = [] from hnil]
      | inr hopen =>
        obtain ⟨r, rfl⟩ := openComment_front hopen
        exact absurd hx hm.no_comment
    · obtain ⟨r, rfl⟩ := comment_front hstar hne
      exact absurd hx hm.no_comment
  | @token g s u us hg hu hs =>
    by_cases hne : g = []
    · subst hne
      obtain ⟨rfl, rfl, rfl⟩ := hm.unique hu hx
      exact ⟨u, us, rfl, rfl, rfl, hs⟩
    · obtain ⟨r, rfl⟩ := comment_front hg hne
      exact absurd (by rw [hx]; simp) (hm.no_comment (r := r ++ u.text ++ s))

theorem Cut.of_nil {ts : List Token} (h : Cut Measured [] ts) : ∃ e, ts = [e] ∧ e.kind = .eof := by
  generalize hx : [] = x at h
  cases h with
  | last _ he => exact ⟨_, rfl, he⟩
  | token _ h _ =>
    have := h.isToken.1
    simp [this] at hx

theorem Cut.terminated {x : Text} {ts : List Token} (h : Cut Measured x ts) : Terminated ts := by
  induction h with
  | last _ he => exact .eof he
  | token _ h _ ih => exact .cons h.isToken.2 ih

theorem Measured.of_length {k : Kind} {c : Char} {t rest : Text}
    (h : Extent.measure c (t ++ rest) = .ofLength k (t.length + 1)) : Measured k (c :: t) rest := by
  refine ⟨c, t ++ rest, by rw [h]; rfl, ?_, ?_⟩
  all_goals rw [h]
  · exact congrArg (c :: ·) List.take_left.symm
  · exact List.drop_left.symm

theorem measure_blank {c : Char} (h : isBlank c) (s : Text) :
    Extent.measure c s = .ofLength .space (1 + blanksLength s) := if_pos h

theorem Measured.head_not_blank {k : Kind} {t rest : Text} (h : Measured k t rest)
    (hk : k ≠ .space) : ∀ c ∈ (t ++ rest).head?, isBlank c = false := by
  obtain ⟨c, s, hkind, rfl, rfl⟩ := h
  intro d hd
  obtain rfl : c = d := by simpa using hd
  by_contra hblank
  have hblank : isBlank c = true := by simpa using hblank
  rw [measure_blank hblank] at hkind
  exact hk (Option.some.inj hkind).symm

theorem measured_blanks {b rest : Text} (hb : ∀ c ∈ b, isBlank c) (hne : b ≠ [])
    (hr : ∀ c ∈ rest.head?, isBlank c = false) : Measured .space b rest := by
  obtain ⟨c, b, rfl⟩ := List.exists_cons_of_ne_nil hne
  rw [List.forall_mem_cons] at hb
  refine .of_length ?_
  have hlen : blanksLength (b ++ rest) = b.length := by
    rw [blanksLength, List.takeWhile_append_of_pos hb.2]
    cases rest with
    | nil => simp
    | cons d rest => simp [hr d rfl]
  rw [measure_blank hb.1, hlen, Nat.add_comm]

/-- The first token behind blanks. -/
theorem Cut.behind_blanks {k : Kind} {b t rest : Text} {ts : List Token}
    (h : Cut Measured (b ++ (t ++ rest)) ts) (hb : ∀ c ∈ b, isBlank c) (hm : Measured k t rest)
    (hk : k ≠ .space) : ∃ s u us, ts = s ++ u :: us ∧ (∀ x ∈ s, Token.isSpace x) ∧
      u.isSpace = false ∧ u.kind = k ∧ u.text = t ∧ Cut Measured rest us := by
  by_cases hne : b = []
  · subst hne
    have h : Cut Measured (t ++ rest) ts := h
    obtain ⟨u, us, rfl, rfl, rfl, hus⟩ := h.front hm
    exact ⟨[], u, us, rfl, by simp, by simpa [Token.isSpace] using hk, rfl, rfl, hus⟩
  · obtain ⟨s, us, rfl, hs, -, h⟩ := h.front (measured_blanks hb hne (hm.head_not_blank hk))
    obtain ⟨u, us, rfl, rfl, rfl, hus⟩ := h.front hm
    exact ⟨[s], u, us, rfl, by simpa [Token.isSpace] using hs, by simpa [Token.isSpace] using hk,
      rfl, rfl, hus⟩

/-- The next token is of the kind `k`, and blanks may stand before it. -/
def Next (k : Kind) (x : Text) : Prop :=
  k ≠ .space ∧ ∃ b t rest, x = b ++ (t ++ rest) ∧ (∀ c ∈ b, isBlank c) ∧ Measured k t rest

theorem Measured.next {k : Kind} {t rest : Text} (h : Measured k t rest) (hk : k ≠ .space) :
    Next k (t ++ rest) := ⟨hk, [], t, rest, rfl, by simp, h⟩

theorem Next.kind_eq {k : Kind} {x : Text} {ts : List Token} {c : Cursor} (h : Next k x)
    (hts : Cut Measured x ts) (hc : c.Before ts) : c.next.kind = k := by
  obtain ⟨hk, b, t, rest, rfl, hb, hm⟩ := h
  obtain ⟨s, u, us, rfl, hs, hu, rfl, -, -⟩ := hts.behind_blanks hb hm hk
  rw [hc.next_eq hs hu]

/-- Before the tokens of the text `x`, `p` fires `es`, returns something as `Q` says and stops
before the tokens of the text `y`. -/
def Runs {α : Type} (p : Production α) (x y : Text) (es : List Event) (Q : α → Prop) : Prop :=
  ∀ ts, Cut Measured x ts → ∀ c : Cursor, c.Before ts →
    ∃ a d us, p c = ⟨es, d, .ok a⟩ ∧ Q a ∧ Cut Measured y us ∧ d.Before us

namespace Runs
open Production
variable {α β : Type} {p : Production α} {f : α → Production β} {x y z : Text}
  {es fs : List Event} {Q R : α → Prop} {S : β → Prop}

theorem mono (h : Runs p x y es Q) (hQ : ∀ a, Q a → R a) : Runs p x y es R := by
  intro ts hts c hc
  obtain ⟨a, d, us, hrun, ha, hus, hd⟩ := h ts hts c hc
  exact ⟨a, d, us, hrun, hQ a ha, hus, hd⟩

theorem pure {a : α} (h : Q a) : Runs (pure a : Production α) x x [] Q :=
  fun ts hts c hc => ⟨a, c, ts, rfl, h, hts, hc⟩

theorem fire {e : Event} : Runs (fire e) x x [e] fun _ => True :=
  fun ts hts c hc => ⟨(), c, ts, rfl, trivial, hts, hc⟩

theorem bind (hp : Runs p x y es Q) (hf : ∀ a, Q a → Runs (f a) y z fs S) :
    Runs (p >>= f) x z (es ++ fs) S := by
  intro ts hts c hc
  obtain ⟨a, d, us, hrun, ha, hus, hd⟩ := hp ts hts c hc
  obtain ⟨b, d', vs, hrun', hb, hvs, hd'⟩ := hf a ha us hus d hd
  exact ⟨b, d', vs, bind_ok hrun hrun', hb, hvs, hd'⟩

/-- The first production fires nothing. -/
theorem silent (hp : Runs p x y [] Q) (hf : ∀ a, Q a → Runs (f a) y z fs S) :
    Runs (p >>= f) x z fs S := hp.bind hf

/-- The result is known. -/
theorem next {a : α} (hp : Runs p x y es (· = a)) (hf : Runs (f a) y z fs S) :
    Runs (p >>= f) x z (es ++ fs) S := hp.bind fun _ ha => ha ▸ hf

/-- The first production fires nothing, and its result is known. -/
theorem quiet {a : α} (hp : Runs p x y [] (· = a)) (hf : Runs (f a) y z fs S) :
    Runs (p >>= f) x z fs S := hp.next hf

variable {k : Kind} {b t rest : Text} {l : List Kind}

theorem accept (hb : ∀ c ∈ b, isBlank c) (hm : Measured k t rest) (hk : k ≠ .space)
    (hks : k ∈ l) : Runs (accept l) (b ++ (t ++ rest)) rest []
      fun o => ∃ u, o = some u ∧ u.kind = k ∧ u.text = t := by
  intro ts hts c hc
  have hend := hts.terminated
  obtain ⟨s, u, us, rfl, hs, hu, rfl, rfl, hus⟩ := hts.behind_blanks hb hm hk
  have hnext := hc.next_eq hs hu
  refine ⟨some u, c.advance, us, ?_, ⟨u, rfl, rfl, rfl⟩, hus, ?_⟩
  · simp only [Production.accept, hnext, hks, if_true]
  · exact hc.advance hs hu (hend.drop (by simp)) hm.isToken.2

theorem skip (h : Next k x) (hks : k ∉ l) : Runs (Production.accept l) x x [] (· = none) :=
  fun ts hts c hc => ⟨none, c, ts, Production.accept_none (h.kind_eq hts hc ▸ hks), rfl, hts, hc⟩

theorem peek (h : Next k x) : Runs Production.next x x [] (·.kind = k) :=
  fun ts hts c hc => ⟨c.next, c, ts, rfl, h.kind_eq hts hc, hts, hc⟩

theorem expect (hb : ∀ c ∈ b, isBlank c) (hm : Measured k t rest) (hk : k ≠ .space)
    (hks : k ∈ l) : Runs (Production.expect l) (b ++ (t ++ rest)) rest []
      fun u => u.kind = k ∧ u.text = t := by
  refine (accept hb hm hk hks).silent fun o ho => ?_
  obtain ⟨u, rfl, hu⟩ := ho
  exact pure hu

theorem orElse_left {p q : Production (Option α)} {a : α} (h : Runs p x y [] (· = some a)) :
    Runs (orElse p q) x y [] (· = some a) := h.quiet (.pure rfl)

theorem orElse_right {p q : Production (Option α)} {Q : Option α → Prop}
    (hp : Runs p x x [] (· = none)) (hq : Runs q x y es Q) : Runs (orElse p q) x y es Q := hp.quiet hq

theorem of_eq {q : Production α} (h : ∀ x, Terminated x → ∀ c : Cursor, c.Before x → p c = q c)
    (hq : Runs q x y es Q) : Runs p x y es Q := by
  intro ts hts c hc
  rw [h ts hts.terminated c hc]
  exact hq ts hts c hc

theorem many_round {p : Production (Option α)} (hadv : Advances p) :
    ∀ x, Terminated x → ∀ c : Cursor, c.Before x → many p c = (p >>= fun o => match o with
      | some a => many p >>= fun as => Pure.pure (a :: as)
      | none => Pure.pure []) c :=
  fun _ hx _ hc => many_eq hadv (fun h => h rfl) hx hc

/-- The end of a repetition. -/
theorem many_nil {p : Production (Option α)} (hadv : Advances p) (hp : Runs p x y [] (· = none)) :
    Runs (many p) x y [] (· = []) := by
  refine of_eq (many_round hadv) ?_
  exact hp.quiet (.pure rfl)

/-- A match and the repetition behind it. -/
theorem many_cons {p : Production (Option α)} {a : α} {as : List α} (hadv : Advances p)
    (hp : Runs p x y es (· = some a)) (hs : Runs (many p) y z fs (· = as)) :
    Runs (many p) x z (es ++ fs) (· = a :: as) := by
  have hrest : Runs (many p >>= fun as => Pure.pure (a :: as)) y z fs (· = a :: as) :=
    List.append_nil fs ▸ hs.next (.pure rfl)
  refine of_eq (many_round hadv) ?_
  exact hp.next hrest

/-! The same without blanks before the token. -/

theorem accept_here (hm : Measured k t rest) (hk : k ≠ .space) (hks : k ∈ l) :
    Runs (Production.accept l) (t ++ rest) rest [] fun o => ∃ u, o = some u ∧ u.kind = k ∧ u.text = t :=
  accept (b := []) (by simp) hm hk hks

theorem expect_here (hm : Measured k t rest) (hk : k ≠ .space) (hks : k ∈ l) :
    Runs (Production.expect l) (t ++ rest) rest [] fun u => u.kind = k ∧ u.text = t :=
  expect (b := []) (by simp) hm hk hks

end Runs

/-- As `Runs`, but the events are those of some `i` that is as `P` says. -/
def Fires {ι α : Type} (P : ι → Prop) (p : Production α) (x y : Text) (es : ι → List Event)
    (Q : α → Prop) : Prop :=
  ∀ ts, Cut Measured x ts → ∀ c : Cursor, c.Before ts →
    ∃ i, P i ∧ ∃ a d us, p c = ⟨es i, d, .ok a⟩ ∧ Q a ∧ Cut Measured y us ∧ d.Before us

section
open Production
variable {ι α β : Type} {P : ι → Prop} {p : Production α} {f : α → Production β} {x y z : Text}
  {us : List Event} {es : ι → List Event} {Q : α → Prop} {S : β → Prop}

theorem Runs.fires (h : Runs p x y us Q) : Fires (fun _ : Unit => True) p x y (fun _ => us) Q :=
  fun ts hts c hc => ⟨(), trivial, h ts hts c hc⟩

/-- The events depend on the result of a part that fires nothing. -/
theorem Runs.leads {p : Production ι} {f : ι → Production β} (hp : Runs p x y [] P)
    (hf : ∀ i, P i → Runs (f i) y z (es i) S) : Fires P (p >>= f) x z es S := by
  intro ts hts c hc
  obtain ⟨i, d, vs, hrun, hi, hvs, hd⟩ := hp ts hts c hc
  obtain ⟨b, d', ws, hrun', hb, hws, hd'⟩ := hf i hi vs hvs d hd
  exact ⟨i, hi, b, d', ws, bind_ok hrun hrun', hb, hws, hd'⟩

namespace Fires

theorem runs (h : Fires P p x y (fun _ => us) Q) : Runs p x y us Q := by
  intro ts hts c hc
  obtain ⟨_, _, hrun⟩ := h ts hts c hc
  exact hrun

theorem mono {R : α → Prop} (h : Fires P p x y es Q) (hQ : ∀ a, Q a → R a) : Fires P p x y es R := by
  intro ts hts c hc
  obtain ⟨i, hi, a, d, us, hrun, ha, hus, hd⟩ := h ts hts c hc
  exact ⟨i, hi, a, d, us, hrun, hQ a ha, hus, hd⟩

theorem behind (hp : Runs p x y us Q) (hf : ∀ a, Q a → Fires P (f a) y z es S) :
    Fires P (p >>= f) x z (fun i => us ++ es i) S := by
  intro ts hts c hc
  obtain ⟨a, d, vs, hrun, ha, hvs, hd⟩ := hp ts hts c hc
  obtain ⟨i, hi, b, d', ws, hrun', hb, hws, hd'⟩ := hf a ha vs hvs d hd
  exact ⟨i, hi, b, d', ws, bind_ok hrun hrun', hb, hws, hd'⟩

/-- The first production fires nothing. -/
theorem silent (hp : Runs p x y [] Q) (hf : ∀ a, Q a → Fires P (f a) y z es S) :
    Fires P (p >>= f) x z es S := behind hp hf

/-- The first production fires nothing, and its result is known. -/
theorem quiet {a : α} (hp : Runs p x y [] (· = a)) (hf : Fires P (f a) y z es S) :
    Fires P (p >>= f) x z es S := silent hp fun _ ha => ha ▸ hf

theorem before (hp : Fires P p x y es Q) (hf : ∀ a, Q a → Runs (f a) y z us S) :
    Fires P (p >>= f) x z (fun i => es i ++ us) S := by
  intro ts hts c hc
  obtain ⟨i, hi, a, d, vs, hrun, ha, hvs, hd⟩ := hp ts hts c hc
  obtain ⟨b, d', ws, hrun', hb, hws, hd'⟩ := hf a ha vs hvs d hd
  exact ⟨i, hi, b, d', ws, bind_ok hrun hrun', hb, hws, hd'⟩

/-- What comes last fires nothing. -/
theorem done (hp : Fires P p x y es Q) (hf : ∀ a, Q a → Runs (f a) y z [] S) :
    Fires P (p >>= f) x z es S := by
  have := hp.before hf
  simpa only [List.append_nil] using this

theorem of_eq {q : Production α} (h : ∀ x, Terminated x → ∀ c : Cursor, c.Before x → p c = q c)
    (hq : Fires P q x y es Q) : Fires P p x y es Q := by
  intro ts hts c hc
  rw [h ts hts.terminated c hc]
  exact hq ts hts c hc

/-- One match, behind which the repetition ends. -/
theorem many_one {p : Production (Option α)} (hadv : Advances p)
    (hp : Fires P p x y es fun o => o.isSome) (hs : Runs (many p) y z [] (· = [])) :
    Fires P (many p) x z es fun _ => True := by
  refine of_eq (Runs.many_round hadv) (hp.done fun o ho => ?_)
  obtain ⟨a, rfl⟩ := Option.isSome_iff_exists.mp ho
  exact hs.quiet (.pure trivial)

end Fires

theorem parse_of_fires {css : Text} {Q : Unit → Prop} (h : Fires P Grammar.stylesheet css y es Q) :
    ∃ i, P i ∧ parse css = ⟨es i, none⟩ := by
  have hcut := cut_tokens css
  obtain ⟨i, hi, a, d, us, hrun, -⟩ := h _ hcut _ hcut.terminated.before
  have hrun : Grammar.stylesheet (.ofText css) = ⟨es i, d, .ok a⟩ := hrun
  exact ⟨i, hi, by simp [parse, parseFrom, hrun]⟩

end

theorem parse_of_runs {css y : Text} {es : List Event} {Q : Unit → Prop}
    (h : Runs Grammar.stylesheet css y es Q) : parse css = ⟨es, none⟩ := by
  obtain ⟨_, _, hparse⟩ := parse_of_fires h.fires
  exact hparse

end Stylesheet
