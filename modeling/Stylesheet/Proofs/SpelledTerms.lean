import Stylesheet.Proofs.LegibleValues

/-! Whatever is read as it is written is spelled: the productions of values read no other texts back. -/
namespace Stylesheet
open Computability Lexical

variable {α β γ : Type} {c : Cursor}

/-- The cursor stands before the tokens of `x`. -/
def Cursor.At (c : Cursor) (x : Text) : Prop := ∃ ts, Cut Measured x ts ∧ c.Before ts

/-- If `p` succeeds, its result and the cursor behind it are as `R` says. -/
def After (p : Production α) (c : Cursor) (R : α → Cursor → Prop) : Prop :=
  ∀ a, (p c).result = .ok a → R a (p c).cursor

namespace After
open Production
variable {p : Production α} {f : α → Production β} {R R' : α → Cursor → Prop} {S : β → Cursor → Prop}

theorem mono (hp : After p c R) (h : ∀ a d, R a d → R' a d) : After p c R' :=
  fun a ha => h a _ (hp a ha)

theorem pure {a : α} (h : R a c) : After (pure a : Production α) c R :=
  fun _ hb => Except.ok.inj hb ▸ h

theorem fail (e : ParseError) : After (fail e : Production α) c R := fun _ h => nomatch h

theorem bind (hp : After p c R) (hf : ∀ a d, R a d → After (f a) d S) : After (p >>= f) c S := by
  intro b hb
  rcases ho : p c with ⟨fs, d, e | a⟩
  · rw [bind_error ho] at hb
    exact nomatch hb
  · rw [After, ho] at hp
    rw [bind_ok ho rfl] at hb ⊢
    exact hf a d (hp a rfl) b hb

theorem of_eq {q : Production α} {x : Text}
    (h : ∀ {ts}, Terminated ts → c.Before ts → p c = q c) (hc : c.At x) (hq : After q c R) :
    After p c R := by
  obtain ⟨ts, hts, hb⟩ := hc
  rw [After, h hts.terminated hb]
  exact hq

/-- The first production fires nothing, and its result is known. -/
theorem quiet {d : Cursor} {a : α} (hp : p c = ⟨[], d, .ok a⟩) (hf : After (f a) d S) :
    After (p >>= f) c S := by
  rw [After, bind_quiet hp]
  exact hf

theorem classify {g : Kind → Option γ} {f : Option (γ × Token) → Production β}
    (hs : ∀ b, g c.next.kind = some b → After (f (some (b, c.next))) c.advance S)
    (hn : g c.next.kind = none → After (f none) c S) : After (classify g >>= f) c S := by
  cases hg : g c.next.kind with
  | some b => exact quiet (classify_some hg) (hs b hg)
  | none => exact quiet (classify_none hg) (hn hg)

theorem accept {ks : List Kind} {f : Option Token → Production β}
    (hs : c.next.kind ∈ ks → After (f (some c.next)) c.advance S)
    (hn : c.next.kind ∉ ks → After (f none) c S) : After (accept ks >>= f) c S := by
  by_cases hk : c.next.kind ∈ ks
  · exact quiet (accept_some hk) (hs hk)
  · exact quiet (accept_none hk) (hn hk)

theorem orElse {p q : Production (Option α)} {R : Option α → Cursor → Prop}
    (hp : After p c fun o d => (∀ a, o = some a → R o d) ∧ (o = none → After q d R)) :
    After (orElse p q) c R := by
  refine hp.bind fun o d ho => ?_
  cases o with
  | some a => exact .pure (ho.1 a rfl)
  | none => exact ho.2 rfl

/-- A run that is known leaves the cursor where it is said. -/
theorem of_runs {x y : Text} {es : List Event} {Q : α → Prop} (h : Runs p x y es Q) (hc : c.At x) :
    After p c fun a d => Q a ∧ d.At y := by
  intro a ha
  obtain ⟨ts, hts, hb⟩ := hc
  obtain ⟨b, d, us, hrun, hQ, hus, hd⟩ := h ts hts c hb
  rw [hrun] at ha ⊢
  exact ⟨Except.ok.inj ha ▸ hQ, us, hus, hd⟩

end After

/-! The token at the front of a text. -/

theorem isBlank_of_space {t rest : Text} (h : Measured .space t rest) : ∀ a ∈ t, isBlank a := by
  obtain ⟨u, ⟨a, ha, rfl⟩, v, hv, rfl⟩ := Language.mem_mul.mp (h.mem_production (by decide))
  exact List.forall_mem_cons.mpr ⟨ha, mem_char_kstar.mp hv⟩

/-- Where the text goes on as the first token that is no blank, that token stands at its front. -/
theorem Cut.front_token {b us : List Token} {t : Token} {x : Text}
    (h : Cut Measured (t.text ++ x) (b ++ t :: us)) (hb : ∀ u ∈ b, Token.isSpace u)
    (ht : t.isSpace = false) (he : t.kind ≠ .eof) (hcomment : ∀ r, t.text ++ x ≠ '/' :: '*' :: r) :
    Measured t.kind t.text x ∧ Cut Measured x us := by
  obtain ⟨r, hm⟩ := (h.lexed t (by simp)).resolve_left he
  generalize hx : t.text ++ x = z at h hcomment
  generalize hv : b ++ t :: us = vs at h
  cases h with
  | last _ hlast =>
    obtain ⟨rfl, hv⟩ := List.append_eq_singleton_iff.mp hv |>.resolve_right (by simp)
    obtain ⟨rfl, -⟩ := List.cons.inj hv
    exact absurd hlast he
  | @token g z u vs hg hu hz =>
    by_cases hnil : g = []
    · subst hnil
      cases b with
      | nil =>
        obtain ⟨rfl, rfl⟩ := List.cons.inj hv
        obtain rfl := List.append_cancel_left hx
        exact ⟨hu, hz⟩
      | cons b bs =>
        obtain ⟨rfl, -⟩ := List.cons.inj hv
        have hspace : b.kind = .space := by simpa [Token.isSpace] using hb b (by simp)
        obtain ⟨a, v, hav⟩ := List.exists_cons_of_ne_nil hu.isToken.1
        obtain ⟨a', v', hav'⟩ := List.exists_cons_of_ne_nil hm.isToken.1
        rw [List.nil_append, hav, hav'] at hx
        obtain rfl : a' = a := (List.cons.inj hx).1
        have hblank := isBlank_of_space (hspace ▸ hu) a' (by simp [hav])
        have hnot := hm.head_not_blank (by simpa [Token.isSpace] using ht) a' (by simp [hav'])
        simp [hblank] at hnot
    · obtain ⟨r, rfl⟩ := comment_front hg hnil
      exact absurd rfl (hcomment (r ++ u.text ++ z))

namespace Cursor.At
variable {b x y : Text}

theorem all (h : c.At x) : c.All Token.Lexed := by
  obtain ⟨ts, hts, hc⟩ := h
  exact hc.all hts.lexed

/-- Where the text goes on as the next token does, maybe behind blanks, that token stands there. -/
theorem front (h : c.At (b ++ (c.next.text ++ x))) (hb : ∀ a ∈ b, isBlank a) (he : c.next.kind ≠ .eof)
    (hcomment : ∀ r, c.next.text ++ x ≠ '/' :: '*' :: r) :
    Measured c.next.kind c.next.text x ∧ c.advance.At x := by
  obtain ⟨r, hm⟩ := h.all.next.resolve_left he
  obtain ⟨ts, hts, hc⟩ := h
  have hterm := hts.terminated
  obtain ⟨bs, t, us, rfl, hbs, ht⟩ := hterm.split
  have hnext := hc.next_eq hbs ht
  rw [hnext] at hts hm hcomment he ⊢
  have hcut : Measured t.kind t.text x ∧ Cut Measured x us := by
    by_cases hnil : b = []
    · subst hnil
      exact hts.front_token hbs ht he hcomment
    · have hkind : t.kind ≠ .space := by simpa [Token.isSpace] using ht
      have hhead : ∀ a ∈ (t.text ++ x).head?, isBlank a = false := by
        obtain ⟨a, v, hv⟩ := List.exists_cons_of_ne_nil hm.isToken.1
        rw [hv] at hm ⊢
        exact hm.head_not_blank hkind
      obtain ⟨u, vs, heq, hu, -, hcut⟩ := hts.front (measured_blanks hb hnil hhead)
      cases bs with
      | nil =>
        obtain ⟨rfl, -⟩ := List.cons.inj heq
        exact absurd hu hkind
      | cons u bs =>
        obtain ⟨-, rfl⟩ := List.cons.inj heq
        exact hcut.front_token (fun v hv => hbs v (List.mem_cons_of_mem u hv)) ht he hcomment
  exact ⟨hcut.1, us, hcut.2, hc.advance hbs ht (hterm.drop (by simp)) hcut.1.isToken.2⟩

end Cursor.At

theorem Measured.slash_of_head {k : Kind} {t rest : Text} (h : Measured k t rest)
    (ht : t.head? = some '/') : k = .slash := by
  obtain ⟨a, s, hk, rfl, -⟩ := h
  obtain rfl : a = '/' := by simpa using ht
  rw [Extent.measure_slash] at hk
  split at hk
  · exact nomatch hk
  · exact (Option.some.inj hk).symm

theorem sign_text {t : Token} {o : Sign} (ht : t.Lexed) (h : Sign.ofKind? t.kind = some o) :
    t.text = [o.symbol] := by
  obtain he | ⟨r, hm⟩ := ht
  · simp [he, Sign.ofKind?] at h
  · generalize t.kind = k at h hm
    revert h
    cases k <;> simp only [Sign.ofKind?, Option.some.injEq, reduceCtorEq, false_implies]
    all_goals
      rintro rfl
      exact mem_exactly.mp (hm.mem_production (by decide))

theorem operator_text {t : Token} {o : Operator} (ht : t.Lexed) (h : Operator.ofKind? t.kind = some o) :
    t.text = [o.symbol] := by
  obtain he | ⟨r, hm⟩ := ht
  · simp [he, Operator.ofKind?] at h
  · generalize t.kind = k at h hm
    revert h
    cases k <;> simp only [Operator.ofKind?, Option.some.injEq, reduceCtorEq, false_implies]
    all_goals
      rintro rfl
      exact mem_exactly.mp (hm.mem_production (by decide))

namespace Cursor.At
variable {b x : Text}

theorem front_term (h : c.At (b ++ (c.next.text ++ x))) (hb : ∀ a ∈ b, isBlank a)
    (hk : startsTerm c.next.kind) : Measured c.next.kind c.next.text x ∧ c.advance.At x := by
  have hkinds : c.next.kind ≠ .eof ∧ c.next.kind ≠ .slash := by
    revert hk
    generalize c.next.kind = k
    cases k <;> decide
  obtain ⟨r, hm⟩ := h.all.next.resolve_left hkinds.1
  refine h.front hb hkinds.1 fun z hz => hkinds.2 (hm.slash_of_head ?_)
  obtain ⟨a, v, hv⟩ := List.exists_cons_of_ne_nil hm.isToken.1
  rw [hv] at hz ⊢
  exact congrArg some (List.cons.inj hz).1

theorem front_operator {o : Operator} (h : c.At (c.next.text ++ x))
    (ho : Operator.ofKind? c.next.kind = some o) (hx : x.head? ≠ some '*') :
    Measured c.next.kind c.next.text x ∧ c.advance.At x := by
  refine h.front (b := []) (by simp) (fun he => by simp [he, Operator.ofKind?] at ho) fun z hz => hx ?_
  rw [operator_text h.all.next ho] at hz
  exact congrArg List.head? (List.cons.inj hz).2

end Cursor.At

theorem Measured.head {k : Kind} {t rest : Text} (h : Measured k t rest) (hk : k ≠ .star) :
    ∃ a s, t = a :: s ∧ a ≠ '*' := by
  obtain ⟨a, s, rfl⟩ := List.exists_cons_of_ne_nil h.isToken.1
  refine ⟨a, s, rfl, ?_⟩
  rintro rfl
  exact hk (h.unique (measured_symbol (c := '*') (by decide) (s ++ rest)) rfl).1

/-- No term starts with an asterisk. -/
theorem Term.Of.head {t : Term} (h : t.Of Token.Lexed) : ∃ a s, t.text = a :: s ∧ a ≠ '*' := by
  cases h with | @mk sign k s p h =>
  cases sign with
  | some o => exact ⟨o.symbol, s, rfl, by cases o <;> decide⟩
  | none =>
    cases h with
    | @plain j _ _ hj h =>
      obtain ⟨r, hm⟩ := h.measured (by rintro rfl; simp [TermKind.ofKind?] at hj)
      exact hm.head (by rintro rfl; simp [TermKind.ofKind?] at hj)
    | color h _ =>
      obtain ⟨r, hm⟩ := h.measured (by decide)
      exact hm.head (by decide)
    | @call t h w =>
      obtain ⟨r, hm⟩ := h.measured (by decide)
      obtain ⟨a, s, rfl, ha⟩ := hm.head (by decide)
      exact ⟨a, _, rfl, ha⟩

open Production Grammar

/-- The arguments that are read before the end of a call are spelled, in texts of less than `n`
characters. -/
def SpelledBelow (n : Nat) : Prop :=
  ∀ (c : Cursor) (w y : Text), (w ++ ')' :: y).length < n → c.At (w ++ ')' :: y) →
    After value c fun v d => v.flatMap Value.Part.text = w →
      Spells .arguments w (')' :: y) ∧ d.At (')' :: y)

section
variable {n : Nat} {k : TermKind} {b s w y : Text}

theorem call_spelled (hn : SpelledBelow n) (hl : (s ++ y).length ≤ n) (hb : ∀ a ∈ b, isBlank a)
    (h : c.At (b ++ (s ++ y))) : After (function value) c fun o d => o = some (k, s) →
      Spells (.bare k) s y ∧ d.At y := by
  refine .accept (fun hk => ?_) fun _ => .pure (by simp)
  have hk : c.next.kind = .function := List.mem_singleton.mp hk
  refine .bind (R := fun v d => ∀ z, c.advance.At (v.flatMap Value.Part.text ++ ')' :: z) →
    (v.flatMap Value.Part.text ++ ')' :: z).length < n →
      Spells .arguments (v.flatMap Value.Part.text) (')' :: z) ∧ d.At (')' :: z))
    (fun v hv z hat hlt => hn _ _ z hlt hat v hv rfl) fun v d hd => ?_
  refine .bind (R := fun _ e => ∀ z, d.At (')' :: z) → e.At z) (fun o ho z hz => ?_) fun o e he => ?_
  · have hclose : Measured .rparen [')'] z := measured_symbol (c := ')') (by decide) z
    exact (After.of_runs (Runs.accept_here (l := [.rparen]) hclose (by decide) (by decide)) hz o ho).2
  · refine .pure fun heq => ?_
    obtain ⟨rfl, rfl⟩ : .function = k ∧ c.next.text ++ v.flatMap Value.Part.text ++ [')'] = s := by
      simpa using heq
    have htext : c.next.text ++ v.flatMap Value.Part.text ++ [')'] ++ y =
        c.next.text ++ (v.flatMap Value.Part.text ++ ')' :: y) := by simp
    rw [htext] at h hl
    obtain ⟨hm, hat⟩ := h.front_term hb (by rw [hk]; rfl)
    have hpos := List.length_pos_iff.mpr hm.isToken.1
    rw [List.length_append] at hl
    obtain ⟨hw, hd⟩ := hd y hat (by omega)
    rw [List.append_assoc]
    exact ⟨.call (hk ▸ hm) hw, he y hd⟩

theorem bare_spelled (hn : SpelledBelow n) (hl : (s ++ y).length ≤ n) (hb : ∀ a ∈ b, isBlank a)
    (h : c.At (b ++ (s ++ y))) : After (orElse plainTerm (orElse hexColor (function value))) c
      fun o d => o = some (k, s) → Spells (.bare k) s y ∧ d.At y := by
  refine .orElse (.classify (fun j hj => .pure ⟨fun _ _ heq => ?_, by simp⟩) fun _ => .pure ⟨by simp, fun _ => ?_⟩)
  · obtain ⟨rfl, rfl⟩ : j = k ∧ c.next.text = s := by simpa using heq
    obtain ⟨hm, hat⟩ := h.front_term hb (by simp [startsTerm, hj])
    exact ⟨.plain hj hm, hat⟩
  refine .orElse (.accept (fun hk => ?_) fun _ => .pure ⟨by simp, fun _ => call_spelled hn hl hb h⟩)
  have hk : c.next.kind = .hash := List.mem_singleton.mp hk
  dsimp only
  split
  next hc =>
    refine .pure ⟨fun _ _ heq => ?_, by simp⟩
    obtain ⟨rfl, rfl⟩ : .hexColor = k ∧ c.next.text = s := by simpa using heq
    obtain ⟨hm, hat⟩ := h.front_term hb (by simp [startsTerm, hk])
    exact ⟨.color (hk ▸ hm) hc, hat⟩
  next => exact .fail _

/-- The sign of a term, if it has one, is its first character, and the rest stands behind it. -/
theorem sign_spelled (hb : ∀ a ∈ b, isBlank a) : After sign c fun o d => ∀ s y,
    c.At (b ++ ((o.map Sign.symbol).toList ++ (s ++ y))) →
      (∃ b', (∀ a ∈ b', isBlank a) ∧ d.At (b' ++ (s ++ y))) ∧
        ∀ k, Spells (.bare k) s y → Spells (.term k) ((o.map Sign.symbol).toList ++ s) y := by
  refine .classify (fun o ho => .pure fun s y h => ?_) fun _ => .pure fun s y h =>
    ⟨⟨b, hb, h⟩, fun _ => .unsigned⟩
  have htext := sign_text h.all.next ho
  have h : c.At (b ++ (c.next.text ++ (s ++ y))) := htext ▸ h
  obtain ⟨hm, hat⟩ := h.front_term hb (by simp [startsTerm, ho])
  exact ⟨⟨[], by simp, hat⟩, fun k hs => .signed ho (htext ▸ hm) hs⟩

theorem term_spelled_below (hn : SpelledBelow n) (hl : (s ++ y).length ≤ n) (hb : ∀ a ∈ b, isBlank a)
    (h : c.At (b ++ (s ++ y))) : After (term value) c fun o d => ∀ u, o = some u → u.text = s →
      Spells (.term u.kind) s y ∧ d.At y := by
  refine .quiet (a := c.next) (d := c) rfl ((sign_spelled hb).bind fun o d hd => ?_)
  refine .bind (R := fun a e => ∀ k t, a = some (k, t) → (o.map Sign.symbol).toList ++ t = s →
    Spells (.term k) s y ∧ e.At y) (fun a ha k t hat hs => ?_) fun a e he => ?_
  · subst hs
    rw [List.append_assoc] at h hl
    obtain ⟨⟨b', hb', hread⟩, hspells⟩ := hd t y h
    rw [List.length_append] at hl
    obtain ⟨hs, hat⟩ := bare_spelled hn (by omega) hb' hread a ha hat
    exact ⟨hspells k hs, hat⟩
  · cases a with
    | none => exact .pure (by simp)
    | some a =>
      refine .pure fun u hu hs => ?_
      obtain rfl := Option.some.inj hu
      exact he a.1 a.2 rfl hs

theorem operator_spelled (hc : c.All Token.Lexed) : After operator c fun o d => d.All Token.Lexed ∧
    (o = none → d = c) ∧ ∀ a x, o = some a → x.head? ≠ some '*' → c.At (a.symbol :: x) →
      d.At x ∧ ∃ j, Operator.ofKind? j = some a ∧ Measured j [a.symbol] x := by
  refine .classify (fun a ha => .pure ⟨hc.advance, by simp, fun b x hb hx h => ?_⟩) fun _ =>
    .pure ⟨hc, fun _ => rfl, by simp⟩
  obtain rfl := Option.some.inj hb
  have htext := operator_text hc.next ha
  have h : c.At (c.next.text ++ x) := htext ▸ h
  obtain ⟨hm, hat⟩ := h.front_operator ha hx
  exact ⟨hat, _, ha, htext ▸ hm⟩

/-- A term that is read starts with no asterisk, is spelled where the text goes on as it does, and is
not there before the end of a call. -/
theorem term_reads (hn : SpelledBelow n) (hc : c.All Token.Lexed) (y : Text) :
    After (term value) c fun o d => (c.At (')' :: y) → o = none ∧ d.At (')' :: y)) ∧
      ∀ u, o = some u → (∃ a s, u.text = a :: s ∧ a ≠ '*') ∧ ∀ x, (u.text ++ x).length ≤ n →
        c.At (u.text ++ x) → Spells (.term u.kind) u.text x ∧ d.At x := by
  intro o ho
  refine ⟨fun h => ?_, fun u hu => ⟨?_, fun x hl h =>
    term_spelled_below (b := []) hn hl (by simp) h o ho u hu rfl⟩⟩
  · have hclose : Next .rparen (')' :: y) := (measured_symbol (c := ')') (by decide) y).next (by decide)
    exact After.of_runs (term_skip hclose rfl) h o ho
  · exact ((term_yields (E := fun _ => True) value_yields c hc).result o ho u hu).head

/-- A round of what follows a term: an operator or none, and a term or none, behind which it goes on. -/
theorem moreParts_after {x : Text} {R : Option Operator → Cursor → Prop} {S : Value → Cursor → Prop}
    (h : c.At x) (ho : After operator c R) (ht : ∀ o d, R o d → After (term value) d fun t e =>
      (t = none → S (o.map Value.Part.operator).toList e) ∧ ∀ u, t = some u →
        After (moreParts value) e fun v => S ((o.map Value.Part.operator).toList ++ .term u :: v)) :
    After (moreParts value) c S := by
  refine .of_eq moreParts_eq h (ho.bind fun o d hd => (ht o d hd).bind fun t e he => ?_)
  cases t with
  | none => exact .pure (he.1 rfl)
  | some u => exact (he.2 u rfl).bind fun v f hv => .pure hv

theorem value_after {x : Text} {S : Value → Cursor → Prop} (h : c.At x)
    (ht : After (term value) c fun t d => (t = none → S [] d) ∧ ∀ u, t = some u →
      After (moreParts value) d fun v => S (.term u :: v)) : After value c S := by
  refine .of_eq value_eq h (ht.bind fun t d hd => ?_)
  cases t with
  | none => exact .pure (hd.1 rfl)
  | some u => exact (hd.2 u rfl).bind fun v e hv => .pure hv

theorem more_spelled (hn : SpelledBelow n) (hl : (w ++ ')' :: y).length ≤ n)
    (h : c.At (w ++ ')' :: y)) : After (moreParts value) c fun v d => v.flatMap Value.Part.text = w →
      Spells .more w (')' :: y) ∧ d.At (')' :: y) := by
  induction hlen : w.length using Nat.strongRecOn generalizing w c with
  | ind m ih =>
    subst hlen
    have hclose : Next .rparen (')' :: y) := (measured_symbol (c := ')') (by decide) y).next (by decide)
    by_cases hnil : w = []
    · subst hnil
      exact (After.of_runs (moreParts_ends (operator_skip hclose rfl) (term_skip hclose rfl)) h).mono
        fun v d hv _ => ⟨.done, hv.2⟩
    refine moreParts_after h (operator_spelled h.all) fun o d ⟨hall, hnone, hsome⟩ t ht => ?_
    obtain ⟨hskip, hterm⟩ := term_reads hn hall y t ht
    refine ⟨fun _ hw => ?_, fun u hu v hv hw => ?_⟩
    · subst hw
      cases o with
      | none => exact absurd rfl hnil
      | some a =>
        obtain ⟨hat, j, hj, hm⟩ := hsome a (')' :: y) rfl (by simp) h
        exact ⟨.dangling hj hm, (hskip hat).2⟩
    · obtain ⟨⟨b, s, hb, hne⟩, hterm⟩ := hterm u hu
      have hpos : 0 < u.text.length := by simp [hb]
      cases o with
      | none =>
        obtain rfl := hnone rfl
        obtain rfl : u.text ++ v.flatMap Value.Part.text = w := hw
        rw [List.append_assoc] at h hl
        obtain ⟨hs, hat⟩ := hterm _ hl h
        rw [List.length_append] at hl
        obtain ⟨hv, hf⟩ := ih _ (by rw [List.length_append]; omega) (by omega) hat rfl v hv rfl
        exact ⟨.beside hs hv, hf⟩
      | some a =>
        obtain rfl : a.symbol :: (u.text ++ v.flatMap Value.Part.text) = w := hw
        rw [List.cons_append, List.append_assoc] at h hl
        obtain ⟨hat, j, hj, hm⟩ := hsome a _ rfl (by simpa [hb] using hne) h
        obtain ⟨hs, hat⟩ := hterm _ (Nat.le_of_succ_le hl) hat
        rw [List.length_cons, List.length_append] at hl
        obtain ⟨hv, hf⟩ := ih _ (by rw [List.length_cons, List.length_append]; omega) (by omega) hat rfl v hv rfl
        exact ⟨.joined hj hm hs hv, hf⟩

theorem spelledBelow (n : Nat) : SpelledBelow n := by
  induction n with
  | zero => exact fun _ _ _ h => absurd h (Nat.not_lt_zero _)
  | succ n hn =>
    intro c w y hl h
    refine value_after h fun t ht => ?_
    obtain ⟨hskip, hterm⟩ := term_reads hn h.all y t ht
    refine ⟨fun ht hw => ?_, fun u hu v hv hw => ?_⟩
    · obtain rfl : [] = w := hw
      exact ⟨.empty, (hskip h).2⟩
    · obtain ⟨-, hterm⟩ := hterm u hu
      obtain rfl : u.text ++ v.flatMap Value.Part.text = w := hw
      rw [List.append_assoc] at h hl
      obtain ⟨hs, hat⟩ := hterm _ (Nat.le_of_lt_succ hl) h
      rw [List.length_append] at hl
      obtain ⟨hv, hf⟩ := more_spelled hn (by omega) hat v hv rfl
      exact ⟨.filled hs hv, hf⟩

/-- What is read as a term as it is written is spelled there, and has been passed. -/
theorem term_spelled (hb : ∀ a ∈ b, isBlank a) (h : c.At (b ++ (s ++ y))) :
    After (term value) c fun o d => ∀ u, o = some u → u.text = s → Spells (.term u.kind) s y ∧ d.At y :=
  term_spelled_below (spelledBelow _) le_rfl hb h

/-- A text is spelled as a term where it is read as that term, and nowhere else. -/
theorem spells_term_iff : Spells (.term k) s y ↔ Runs (term value) (s ++ y) y [] (TermOf s k) := by
  refine ⟨fun h => h.read [] (by simp), fun h => ?_⟩
  have hcut := cut_tokens (s ++ y)
  have hc := hcut.terminated.before
  obtain ⟨o, d, us, hrun, ⟨u, rfl, hu, rfl⟩, -⟩ := h _ hcut _ hc
  exact (term_spelled (b := []) (by simp) ⟨_, hcut, hc⟩ _ (congrArg Outcome.result hrun) u rfl hu).1

end
end Stylesheet
