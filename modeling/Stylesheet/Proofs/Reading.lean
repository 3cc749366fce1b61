import Mathlib
import Stylesheet.Production

/-! How a production reads: it takes a part of the tokens and looks at the next one that is no
blank, and nothing behind that one can change what it does. -/
namespace Stylesheet

/-- Tokens with an end token at their end and nowhere else. -/
inductive Terminated : List Token → Prop
  | eof {t : Token} (ht : t.kind = .eof) : Terminated [t]
  | cons {t : Token} {x : List Token} (ht : t.kind ≠ .eof) (hx : Terminated x) : Terminated (t :: x)

theorem Terminated.ne_nil {x : List Token} (h : Terminated x) : x ≠ [] := by
  cases h <;> simp

theorem Terminated.tail {t : Token} {x : List Token} (h : Terminated (t :: x)) (ht : t.kind ≠ .eof) :
    Terminated x := by
  cases h with
  | eof he => exact absurd he ht
  | cons _ hx => exact hx

theorem Terminated.ne_eof_of_cons {t : Token} {x : List Token} (h : Terminated (t :: x))
    (hx : x ≠ []) : t.kind ≠ .eof := by
  cases h with
  | eof => exact absurd rfl hx
  | cons ht _ => exact ht

theorem Terminated.drop {w x : List Token} (h : Terminated (w ++ x)) (hx : x ≠ []) :
    Terminated x := by
  induction w with
  | nil => exact h
  | cons t w ih =>
    rw [List.cons_append] at h
    exact ih (h.tail (h.ne_eof_of_cons (by simp [hx])))

theorem Terminated.ne_eof_of_mem {w x : List Token} (h : Terminated (w ++ x)) (hx : x ≠ [])
    {u : Token} (hu : u ∈ w) : u.kind ≠ .eof := by
  obtain ⟨a, b, rfl⟩ := List.append_of_mem hu
  rw [List.append_assoc] at h
  exact (h.drop (by simp)).ne_eof_of_cons (by simp [hx])

/-- What stands before the end can be kept and the rest exchanged. -/
theorem Terminated.exchange {w x y : List Token} (h : Terminated (w ++ x)) (hx : x ≠ [])
    (hy : Terminated y) : Terminated (w ++ y) := by
  induction w with
  | nil => exact hy
  | cons t w ih =>
    rw [List.cons_append] at h
    have ht := h.ne_eof_of_cons (by simp [hx])
    exact .cons ht (ih (h.tail ht))

/-- The blanks at the front, and the token behind them. -/
theorem Terminated.split {x : List Token} (h : Terminated x) :
    ∃ s t r, x = s ++ t :: r ∧ (∀ b ∈ s, b.isSpace) ∧ t.isSpace = false := by
  induction h with
  | @eof t ht => exact ⟨[], t, [], rfl, by simp, by simp [Token.isSpace, ht]⟩
  | @cons t x _ _ ih =>
    cases hs : t.isSpace with
    | false => exact ⟨[], t, x, rfl, by simp, hs⟩
    | true =>
      obtain ⟨s, u, r, rfl, hb, hu⟩ := ih
      exact ⟨t :: s, u, r, rfl, by simpa [hs] using hb, hu⟩

theorem split_unique {s s' r r' : List Token} {t t' : Token} (h : s ++ t :: r = s' ++ t' :: r')
    (hs : ∀ b ∈ s, b.isSpace) (ht : t.isSpace = false) (hs' : ∀ b ∈ s', b.isSpace)
    (ht' : t'.isSpace = false) : t = t' ∧ r = r' := by
  have hdrop := congrArg (List.dropWhile Token.isSpace) h
  rw [List.dropWhile_append_of_pos hs, List.dropWhile_append_of_pos hs'] at hdrop
  simp only [List.dropWhile_cons, ht, ht', Bool.false_eq_true, if_false] at hdrop
  exact List.cons.inj hdrop

/-- Agreement up to and including the first token that is no blank. -/
inductive SameNext : List Token → List Token → Prop
  | token {t : Token} {x y : List Token} (ht : t.isSpace = false) : SameNext (t :: x) (t :: y)
  | blank {t : Token} {x y : List Token} (ht : t.isSpace) (h : SameNext x y) :
      SameNext (t :: x) (t :: y)

theorem SameNext.append {x y : List Token} (h : SameNext x y) (w : List Token) :
    SameNext (w ++ x) (w ++ y) := by
  induction w with
  | nil => exact h
  | cons t w ih =>
    cases ht : t.isSpace with
    | false => exact .token ht
    | true => exact .blank ht ih

theorem SameNext.of_split {s x y : List Token} {t : Token} (ht : t.isSpace = false) :
    SameNext (s ++ t :: x) (s ++ t :: y) :=
  (SameNext.token ht).append s

theorem SameNext.split {s x y : List Token} {t : Token} (h : SameNext (s ++ t :: x) y)
    (hs : ∀ b ∈ s, b.isSpace) (ht : t.isSpace = false) : ∃ q, y = s ++ t :: q := by
  induction s generalizing y with
  | nil =>
    cases h with
    | @token _ _ q => exact ⟨q, rfl⟩
    | blank hb => simp [ht] at hb
  | cons b s ih =>
    cases h with
    | token hb => simp [hs b (by simp)] at hb
    | blank _ h =>
      obtain ⟨q, rfl⟩ := ih h fun c hc => hs c (List.mem_cons_of_mem b hc)
      exact ⟨q, rfl⟩

theorem SameNext.ne_nil {x y : List Token} (h : SameNext x y) : y ≠ [] := by
  cases h <;> simp

theorem Terminated.sameNext {x : List Token} (h : Terminated x) : SameNext x x := by
  obtain ⟨s, t, r, rfl, _, ht⟩ := h.split
  exact .of_split ht

namespace Cursor

/-- The cursor stands before the tokens `x`, the end token among them, with blanks hidden. -/
structure Before (c : Cursor) (x : List Token) : Prop where
  input : c.ahead ++ [c.last] = x
  hidden : c.spaceVisible = false

theorem Before.length {c : Cursor} {x : List Token} (h : c.Before x) :
    c.ahead.length + 1 = x.length := by
  simp [← h.input]

theorem Before.unique {c : Cursor} {x y : List Token} (hx : c.Before x) (hy : c.Before y) :
    x = y := hx.input.symm.trans hy.input

theorem Before.ahead {c : Cursor} {s r : List Token} {t : Token} (h : c.Before (s ++ t :: r)) :
    (r = [] ∧ c.ahead = s ∧ c.last = t) ∨ ∃ q, r = q ++ [c.last] ∧ c.ahead = s ++ t :: q := by
  have hi := h.input
  obtain rfl | ⟨q, e, rfl⟩ := List.eq_nil_or_concat' r
  · obtain ⟨ha, hl⟩ := List.append_inj' hi rfl
    exact .inl ⟨rfl, ha, List.singleton_inj.mp hl⟩
  · rw [← List.cons_append, ← List.append_assoc] at hi
    obtain ⟨ha, hl⟩ := List.append_inj' hi rfl
    obtain rfl := List.singleton_inj.mp hl
    exact .inr ⟨q, rfl, ha⟩

theorem visible_suffix (c : Cursor) : c.visible <:+ c.ahead := by
  unfold visible
  split
  · exact List.suffix_rfl
  · exact List.dropWhile_suffix _

theorem visible_of_ahead {c : Cursor} {s q : List Token} (hv : c.spaceVisible = false)
    (ha : c.ahead = s ++ q) (hs : ∀ b ∈ s, b.isSpace) :
    c.visible = q.dropWhile Token.isSpace := by
  simp [visible, hv, ha, List.dropWhile_append_of_pos hs]

theorem Before.next_eq {c : Cursor} {s r : List Token} {t : Token} (h : c.Before (s ++ t :: r))
    (hs : ∀ b ∈ s, b.isSpace) (ht : t.isSpace = false) : c.next = t := by
  obtain ⟨rfl, ha, rfl⟩ | ⟨q, rfl, ha⟩ := h.ahead
  · simp [next, visible_of_ahead (q := []) h.hidden (by simp [ha]) hs]
  · simp [next, visible_of_ahead h.hidden ha hs, ht]

/-- Passing the next token, which is not the end. -/
theorem Before.advance {c : Cursor} {s r : List Token} {t : Token} (h : c.Before (s ++ t :: r))
    (hs : ∀ b ∈ s, b.isSpace) (ht : t.isSpace = false) (hr : Terminated (t :: r))
    (he : t.kind ≠ .eof) : c.advance.Before r := by
  obtain ⟨rfl, -, -⟩ | ⟨q, rfl, ha⟩ := h.ahead
  · exact absurd rfl (hr.tail he).ne_nil
  · have hv : c.visible = t :: q := by simp [visible_of_ahead h.hidden ha hs, ht]
    simp only [Cursor.advance, hv, Token.isEof, he, decide_false, Bool.false_eq_true, if_false]
    exact ⟨rfl, h.hidden⟩

end Cursor

theorem Terminated.exists_append {x : List Token} (h : Terminated x) :
    ∃ q t, x = q ++ [t] ∧ t.kind = .eof := by
  induction h with
  | @eof t ht => exact ⟨[], t, rfl, ht⟩
  | @cons t x _ _ ih =>
    obtain ⟨q, u, rfl, hu⟩ := ih
    exact ⟨t :: q, u, rfl, hu⟩

theorem Terminated.withEnd {x : List Token} (h : Terminated x) : Cursor.withEnd x = x := by
  obtain ⟨q, t, rfl, ht⟩ := h.exists_append
  simp [Cursor.withEnd, Token.isEof, ht]

theorem Terminated.before {x : List Token} (h : Terminated x) : (Cursor.ofTokens x).Before x := by
  have hend := h.withEnd
  obtain ⟨q, t, rfl, ht⟩ := h.exists_append
  constructor
  · simp [Cursor.ofTokens, hend]
  · rfl

namespace Production
variable {α β : Type}

theorem bind_ok {p : Production α} {f : α → Production β} {c d d' : Cursor} {es fs : List Event}
    {a : α} {b : Except ParseError β} (hp : p c = ⟨es, d, .ok a⟩) (hf : f a d = ⟨fs, d', b⟩) :
    (p >>= f) c = ⟨es ++ fs, d', b⟩ := by
  show andThen (p c) f = _
  simp [andThen, hp, hf]

/-- What fires nothing only decides how to go on. -/
theorem bind_quiet {p : Production α} {f : α → Production β} {c d : Cursor} {a : α}
    (hp : p c = ⟨[], d, .ok a⟩) : (p >>= f) c = f a d := bind_ok hp rfl

theorem bind_error {p : Production α} {f : α → Production β} {c d : Cursor} {es : List Event}
    {e : ParseError} (hp : p c = ⟨es, d, .error e⟩) : (p >>= f) c = ⟨es, d, .error e⟩ := by
  show andThen (p c) f = _
  simp [andThen, hp]

theorem bind_congr_left {p q : Production α} {f : α → Production β} {c d : Cursor} (h : p c = q d) :
    (p >>= f) c = (q >>= f) d := by
  show andThen (p c) f = andThen (q d) f
  rw [h]

theorem bind_congr_right {p : Production α} {f g : α → Production β} {c : Cursor}
    (h : ∀ {es d a}, p c = ⟨es, d, .ok a⟩ → f a d = g a d) : (p >>= f) c = (p >>= g) c := by
  show andThen (p c) f = andThen (p c) g
  rcases hp : p c with ⟨es, d, e | a⟩
  · rfl
  · simp [andThen, h hp]

theorem accept_some {ks : List Kind} {c : Cursor} (h : c.next.kind ∈ ks) :
    accept ks c = ⟨[], c.advance, .ok (some c.next)⟩ := if_pos h

theorem accept_none {ks : List Kind} {c : Cursor} (h : c.next.kind ∉ ks) :
    accept ks c = ⟨[], c, .ok none⟩ := if_neg h

theorem classify_some {f : Kind → Option β} {c : Cursor} {b : β} (h : f c.next.kind = some b) :
    classify f c = ⟨[], c.advance, .ok (some (b, c.next))⟩ := by
  simp only [classify, h]

theorem classify_none {f : Kind → Option β} {c : Cursor} (h : f c.next.kind = none) :
    classify f c = ⟨[], c, .ok none⟩ := by
  simp only [classify, h]

/-- `q` before fewer tokens than are ahead of `c`, and a failure elsewhere. -/
def below (c : Cursor) (q : Production α) : Production α := fun d =>
  if d.ahead.length < c.ahead.length then q d else reject d

theorem recursive_eq (body : Production α → Production α) (c : Cursor) :
    recursive body c = body (below c (recursive body)) c := by
  rw [recursive]
  rfl

theorem below_eq {q : Production α} {c d : Cursor} (h : d.ahead.length < c.ahead.length) :
    below c q d = q d := if_pos h

/-- What one round preserves holds of every run, for a reference that makes no progress only fails. -/
theorem recursive_induction {body : Production α → Production α} {M : Cursor → Outcome α → Prop}
    (hreject : ∀ c, M c (reject c))
    (h : ∀ again, (∀ c, M c (again c)) → ∀ c, M c (body again c)) (c : Cursor) :
    M c (recursive body c) := by
  induction hn : c.ahead.length using Nat.strongRecOn generalizing c with
  | ind n ih =>
    subst hn
    rw [recursive_eq]
    refine h _ (fun d => ?_) c
    unfold below
    split
    next hlt => exact ih _ hlt d rfl
    next => exact hreject d

/-- Wherever `w` comes next and then `r`, or anything that agrees with `r` up to its next token,
`p` takes `w`, fires `es` and returns `a`. -/
def Succeeds (p : Production α) (w r : List Token) (es : List Event) (a : α) : Prop :=
  ∀ r', SameNext r r' → Terminated (w ++ r') → ∀ c : Cursor, c.Before (w ++ r') →
    ∃ d, p c = ⟨es, d, .ok a⟩ ∧ d.Before r'

/-- Wherever `w` and `t` come next, `p` fires `es` and fails at `t`, whatever follows. -/
def Fails (p : Production α) (w : List Token) (t : Token) (es : List Event) : Prop :=
  ∀ r', Terminated (w ++ t :: r') → ∀ c : Cursor, c.Before (w ++ t :: r') →
    ∃ d, p c = ⟨es, d, .error (.atToken t)⟩

/-- What `p` does before the tokens `x`: it takes a part of them as `T` says, or it fails at a
token behind a part of them as `F` says. -/
inductive Reads (p : Production α) (T : α → List Token → List Token → List Event → Prop)
    (F : List Token → List Event → Prop) (x : List Token) : Prop
  | success {w r : List Token} {es : List Event} {a : α} (hx : x = w ++ r) (hr : Terminated r)
      (run : p.Succeeds w r es a) (spec : T a w r es)
  | failure {w r : List Token} {t : Token} {es : List Event} (hx : x = w ++ t :: r)
      (ht : t.isSpace = false) (run : p.Fails w t es) (spec : F w es)

variable {T : α → List Token → List Token → List Event → Prop} {F : List Token → List Event → Prop}
  {T' : β → List Token → List Token → List Event → Prop} {F' : List Token → List Event → Prop}
  {x : List Token}

theorem Reads.mono {p : Production α} {T₁ : α → List Token → List Token → List Event → Prop}
    {F₁ : List Token → List Event → Prop} (h : Reads p T F x)
    (hT : ∀ {a w r es}, x = w ++ r → T a w r es → T₁ a w r es)
    (hF : ∀ {w t r es}, x = w ++ t :: r → F w es → F₁ w es) : Reads p T₁ F₁ x := by
  cases h with
  | success hx hr run spec => exact .success hx hr run (hT hx spec)
  | failure hx ht run spec => exact .failure hx ht run (hF hx spec)

/-- A production that does the same everywhere reads the same. -/
theorem Reads.congr {p q : Production α} (h : Reads q T F x)
    (heq : ∀ y, Terminated y → ∀ c : Cursor, c.Before y → p c = q c) : Reads p T F x := by
  cases h with
  | success hx hr run spec =>
    refine .success hx hr (fun r' hn ht c hc => ?_) spec
    rw [heq _ ht c hc]
    exact run r' hn ht c hc
  | failure hx ht run spec =>
    refine .failure hx ht (fun r' hr c hc => ?_) spec
    rw [heq _ hr c hc]
    exact run r' hr c hc

/-- What is known of a reading from two sides. -/
theorem Reads.and {p : Production α} {T₁ : α → List Token → List Token → List Event → Prop}
    {F₁ : List Token → List Event → Prop} (h : Reads p T F x) (h₁ : Reads p T₁ F₁ x)
    (hx : Terminated x) : Reads p (fun a w r es => T a w r es ∧ T₁ a w r es) F x := by
  cases h with
  | failure hw ht run spec => exact .failure hw ht run spec
  | @success w r es a hw hr run spec =>
    subst hw
    obtain ⟨d, hd, hb⟩ := run r hr.sameNext hx _ hx.before
    cases h₁ with
    | @success w' r' es' a' hw' hr' run' spec' =>
      obtain ⟨d', hd', hb'⟩ := run' r' hr'.sameNext (hw' ▸ hx) _ (hw' ▸ hx.before)
      rw [← hw'] at hd'
      obtain ⟨rfl, rfl, ha⟩ := Outcome.mk.inj (hd.symm.trans hd')
      obtain rfl := Except.ok.inj ha
      obtain rfl := hb.unique hb'
      obtain rfl := List.append_cancel_right hw'
      exact .success rfl hr run ⟨spec, spec'⟩
    | @failure w' r' t es' hw' ht run' spec' =>
      obtain ⟨d', hd'⟩ := run' r' (hw' ▸ hx) _ (hw' ▸ hx.before)
      rw [← hw', hd] at hd'
      simp at hd'

/-- What a run has taken that did not fail. -/
theorem Reads.of_ok {p : Production α} (h : Reads p T F x) (hx : Terminated x) {c d : Cursor}
    (hc : c.Before x) {es : List Event} {a : α} (hp : p c = ⟨es, d, .ok a⟩) :
    ∃ w r, x = w ++ r ∧ Terminated r ∧ d.Before r ∧ T a w r es := by
  cases h with
  | @success w r es' a' hw hr run spec =>
    subst hw
    obtain ⟨d', hd', hb⟩ := run r hr.sameNext hx c hc
    obtain ⟨rfl, rfl, ha⟩ := Outcome.mk.inj (hp.symm.trans hd')
    obtain rfl := Except.ok.inj ha
    exact ⟨w, r, rfl, hr, hb, spec⟩
  | failure hw _ run _ =>
    subst hw
    obtain ⟨d', hd'⟩ := run _ hx c hc
    simp [hp] at hd'

/-- Only the tokens ahead decide. -/
theorem Reads.same {p : Production α} (h : Reads p T F x) (hx : Terminated x) {c d : Cursor}
    (hc : c.Before x) (hd : d.Before x) :
    (p c).events = (p d).events ∧ (p c).result = (p d).result := by
  cases h with
  | @success w r es a hw hr run spec =>
    subst hw
    obtain ⟨c', hc', -⟩ := run r hr.sameNext hx c hc
    obtain ⟨d', hd', -⟩ := run r hr.sameNext hx d hd
    simp [hc', hd']
  | failure hw _ run _ =>
    subst hw
    obtain ⟨c', hc'⟩ := run _ hx c hc
    obtain ⟨d', hd'⟩ := run _ hx d hd
    simp [hc', hd']

theorem Reads.pure {a : α} (hx : Terminated x) (h : T a [] x []) :
    Reads (pure a : Production α) T F x :=
  .success (w := []) rfl hx (fun _ _ _ c hc => ⟨c, rfl, hc⟩) h

theorem Reads.fire {e : Event} {T : Unit → List Token → List Token → List Event → Prop}
    (hx : Terminated x) (h : T () [] x [e]) : Reads (fire e) T F x :=
  .success (w := []) rfl hx (fun _ _ _ c hc => ⟨c, rfl, hc⟩) h

theorem Reads.bind {p : Production α} {f : α → Production β} (hp : Reads p T F x)
    (hf : ∀ {a w r es}, x = w ++ r → Terminated r → T a w r es →
      Reads (f a) (fun b v q fs => T' b (w ++ v) q (es ++ fs)) (fun v fs => F' (w ++ v) (es ++ fs)) r)
    (he : ∀ {w es}, F w es → F' w es) : Reads (p >>= f) T' F' x := by
  cases hp with
  | failure hx ht run spec =>
    refine .failure hx ht (fun r' hr c hc => ?_) (he spec)
    obtain ⟨d, hd⟩ := run r' hr c hc
    exact ⟨d, bind_error hd⟩
  | @success w r es a hx hr run spec =>
    cases hf hx hr spec with
    | @success v q fs b hx' hr' run' spec' =>
      refine .success (by rw [hx, hx', List.append_assoc]) hr' (fun r' hn ht c hc => ?_) spec'
      rw [List.append_assoc] at ht hc
      obtain ⟨d, hd, hb⟩ := run (v ++ r') (hx' ▸ hn.append v) ht c hc
      obtain ⟨d', hd', hb'⟩ := run' r' hn (ht.drop (by simp [hn.ne_nil])) d hb
      exact ⟨d', bind_ok hd hd', hb'⟩
    | @failure v q t fs hx' ht' run' spec' =>
      refine .failure (by rw [hx, hx', List.append_assoc]) ht' (fun r' hr c hc => ?_) spec'
      rw [List.append_assoc] at hr hc
      obtain ⟨d, hd, hb⟩ := run (v ++ t :: r') (hx' ▸ .of_split ht') hr c hc
      obtain ⟨d', hd'⟩ := run' r' (hr.drop (by simp)) d hb
      exact ⟨d', bind_ok hd hd'⟩

theorem Reads.reject (hx : Terminated x)
    (h : ∀ {s}, (∀ b ∈ s, Token.isSpace b) → F s []) : Reads (reject : Production α) T F x := by
  obtain ⟨s, t, r, rfl, hs, ht⟩ := hx.split
  exact .failure rfl ht (fun r' _ c hc => ⟨c, by rw [← hc.next_eq hs ht]; rfl⟩) (h hs)

theorem Reads.next {T : Token → List Token → List Token → List Event → Prop} (hx : Terminated x)
    (h : ∀ {s t r}, x = s ++ t :: r → (∀ b ∈ s, Token.isSpace b) → t.isSpace = false → T t [] x []) :
    Reads next T F x := by
  obtain ⟨s, t, r, hr, hs, ht⟩ := hx.split
  refine .success (w := []) rfl hx (fun r' hn _ c hc => ⟨c, ?_, hc⟩) (h hr hs ht)
  subst hr
  obtain ⟨q, rfl⟩ := hn.split hs ht
  rw [← hc.next_eq hs ht]
  rfl

/-- A production that looks at the next token, passes it if `g` knows it, and else stays. -/
theorem Reads.look {p : Production α} {g : Token → Option α} {z : α}
    (hp : ∀ {c : Cursor} {a}, g c.next = some a → p c = ⟨[], c.advance, .ok a⟩)
    (hz : ∀ {c : Cursor}, g c.next = none → p c = ⟨[], c, .ok z⟩)
    (hx : Terminated x) (he : ∀ t, t.kind = .eof → g t = none)
    (hs : ∀ {s t a r}, x = s ++ t :: r → (∀ b ∈ s, Token.isSpace b) → t.isSpace = false →
      g t = some a → T a (s ++ [t]) r [])
    (hn : ∀ {s t r}, x = s ++ t :: r → (∀ b ∈ s, Token.isSpace b) → t.isSpace = false →
      g t = none → T z [] x []) : Reads p T F x := by
  obtain ⟨s, t, r, rfl, hb, ht⟩ := hx.split
  cases hg : g t with
  | none =>
    refine .success (w := []) rfl hx (fun r' hr _ c hc => ⟨c, ?_, hc⟩) (hn rfl hb ht hg)
    obtain ⟨q, rfl⟩ := hr.split hb ht
    exact hz (by rw [hc.next_eq hb ht, hg])
  | some a =>
    have hk : t.kind ≠ .eof := fun h => by simp [he t h] at hg
    refine .success (w := s ++ [t]) (by simp) ((hx.drop (by simp)).tail hk)
      (fun r' hr hr' c hc => ?_) (hs rfl hb ht hg)
    rw [List.append_assoc, List.singleton_append] at hr' hc
    exact ⟨c.advance, hp (by rw [hc.next_eq hb ht, hg]), hc.advance hb ht (hr'.drop (by simp)) hk⟩

theorem Reads.classify {f : Kind → Option β} {T : Option (β × Token) → _ → _ → _ → Prop}
    (hx : Terminated x) (hf : f .eof = none)
    (hs : ∀ {s t b r}, x = s ++ t :: r → (∀ b ∈ s, Token.isSpace b) → t.isSpace = false →
      f t.kind = some b → T (some (b, t)) (s ++ [t]) r [])
    (hn : ∀ {s t r}, x = s ++ t :: r → (∀ b ∈ s, Token.isSpace b) → t.isSpace = false →
      f t.kind = none → T none [] x []) : Reads (classify f) T F x := by
  refine .look (g := fun t => (f t.kind).map fun b => some (b, t)) (z := none) ?_ ?_ hx ?_ ?_ ?_
  · intro c o ho
    obtain ⟨b, hb, rfl⟩ := Option.map_eq_some_iff.mp ho
    simp [Production.classify, hb]
  · intro c hc
    simp [Production.classify, Option.map_eq_none_iff.mp hc]
  · intro t ht
    simp [ht, hf]
  · intro s t o r hr hb ht hg
    obtain ⟨b, hk, rfl⟩ := Option.map_eq_some_iff.mp hg
    exact hs hr hb ht hk
  · intro s t r hr hb ht hg
    exact hn hr hb ht (Option.map_eq_none_iff.mp hg)

theorem Reads.accept {ks : List Kind} {T : Option Token → _ → _ → _ → Prop}
    (hx : Terminated x) (hk : .eof ∉ ks)
    (hs : ∀ {s t r}, x = s ++ t :: r → (∀ b ∈ s, Token.isSpace b) → t.isSpace = false →
      t.kind ∈ ks → T (some t) (s ++ [t]) r [])
    (hn : ∀ {s t r}, x = s ++ t :: r → (∀ b ∈ s, Token.isSpace b) → t.isSpace = false →
      t.kind ∉ ks → T none [] x []) : Reads (accept ks) T F x := by
  refine .look (g := fun t => if t.kind ∈ ks then some (some t) else none) (z := none)
    ?_ ?_ hx ?_ ?_ ?_
  · intro c o ho
    obtain ⟨hm, rfl⟩ := by simpa using ho
    simp [Production.accept, hm]
  · intro c hc
    simp [Production.accept, show c.next.kind ∉ ks by simpa using hc]
  · intro t ht
    simp [ht, hk]
  · intro s t o r hr hb ht hg
    obtain ⟨hm, rfl⟩ := by simpa using hg
    exact hs hr hb ht hm
  · intro s t r hr hb ht hg
    exact hn hr hb ht (by simpa using hg)

theorem Reads.expect {ks : List Kind} {T : Token → _ → _ → _ → Prop} (hx : Terminated x)
    (hk : .eof ∉ ks)
    (hs : ∀ {s t r}, x = s ++ t :: r → (∀ b ∈ s, Token.isSpace b) → t.isSpace = false →
      t.kind ∈ ks → T t (s ++ [t]) r [])
    (hf : ∀ {s}, (∀ b ∈ s, Token.isSpace b) → F s []) : Reads (expect ks) T F x := by
  refine .bind (T := fun o w r es => o.elim (w = [] ∧ es = []) fun t => T t w r es) (F := F)
    (.accept hx hk hs ?_) ?_ id
  · intro s t r _ _ _ _
    exact ⟨rfl, rfl⟩
  · intro o w r es _ hr ht
    cases o with
    | some t => exact .pure hr (by simpa using ht)
    | none =>
      obtain ⟨rfl, rfl⟩ := ht
      exact .reject hr fun hb => by simpa using hf hb

/-! Blanks are visible only to productions that look for them. -/

theorem Before.visible_next {c : Cursor} {t : Token} {r : List Token} (h : c.Before (t :: r)) :
    (c.withSpace true).next = t := by
  have hi := h.input
  cases ha : c.ahead with
  | nil =>
    rw [ha, List.nil_append] at hi
    simp [Cursor.next, Cursor.visible, Cursor.withSpace, ha, (List.cons.inj hi).1]
  | cons u y =>
    rw [ha, List.cons_append] at hi
    simp [Cursor.next, Cursor.visible, Cursor.withSpace, ha, (List.cons.inj hi).1]

theorem Reads.nextVisible {T : Token → _ → _ → _ → Prop} (hx : Terminated x)
    (h : ∀ {t r}, x = t :: r → T t [] x []) : Reads (withSpace true Production.next) T F x := by
  obtain ⟨t, r, rfl⟩ := List.exists_cons_of_ne_nil hx.ne_nil
  refine .success (w := []) rfl hx (fun r' hn _ c hc => ⟨c, ?_, hc⟩) (h rfl)
  obtain ⟨q, rfl⟩ : ∃ q, r' = t :: q := by cases hn <;> exact ⟨_, rfl⟩
  show (⟨[], (c.withSpace true).withSpace c.spaceVisible, .ok (c.withSpace true).next⟩ : Outcome _) = _
  rw [Before.visible_next hc]
  rfl

theorem Reads.acceptBlank {T : Option Token → _ → _ → _ → Prop} (hx : Terminated x)
    (hs : ∀ {t r}, x = t :: r → t.kind = .space → T (some t) [t] r [])
    (hn : ∀ {t r}, x = t :: r → t.kind ≠ .space → T none [] x []) :
    Reads (withSpace true (Production.accept [.space])) T F x := by
  obtain ⟨t, r, rfl⟩ := List.exists_cons_of_ne_nil hx.ne_nil
  by_cases hk : t.kind = .space
  · have he : t.kind ≠ .eof := by simp [hk]
    refine .success (w := [t]) rfl (hx.tail he) (fun r' _ hr c hc => ?_) (hs rfl hk)
    rw [List.singleton_append] at hr hc
    have hnext := Before.visible_next hc
    have hi := hc.input
    cases ha : c.ahead with
    | nil =>
      rw [ha, List.nil_append] at hi
      exact absurd (List.cons.inj hi).2.symm (hr.tail he).ne_nil
    | cons u y =>
      rw [ha, List.cons_append] at hi
      obtain ⟨rfl, hy⟩ := List.cons.inj hi
      have hadvance : (c.withSpace true).advance =
          { c with ahead := y, current := u, spaceVisible := true } := by
        simp [Cursor.advance, Cursor.visible, Cursor.withSpace, ha, Token.isEof, hk]
      refine ⟨{ c with ahead := y, current := u }, ?_, hy, hc.hidden⟩
      have haccept : Production.accept [.space] (c.withSpace true) =
          ⟨[], (c.withSpace true).advance, .ok (some u)⟩ := by
        simp [Production.accept, hnext, hk]
      rw [withSpace, haccept, hadvance]
      rfl
  · refine .success (w := []) rfl hx (fun r' hr _ c hc => ⟨c, ?_, hc⟩) (hn rfl hk)
    obtain ⟨q, rfl⟩ : ∃ q, r' = t :: q := by cases hr <;> exact ⟨_, rfl⟩
    have haccept : Production.accept [.space] (c.withSpace true) =
        ⟨[], c.withSpace true, .ok none⟩ := by
      simp [Production.accept, Before.visible_next hc, hk]
    rw [withSpace, haccept]
    rfl

/-- One round of `many`, where every match takes a token. -/
theorem many_eq {p : Production (Option α)}
    {T : Option α → List Token → List Token → List Event → Prop}
    (hp : ∀ x, Terminated x → Reads p T F x) (hw : ∀ {a w r es}, T (some a) w r es → w ≠ [])
    (hx : Terminated x) {c : Cursor} (hc : c.Before x) :
    many p c = (p >>= fun o => match o with
      | some a => many p >>= fun as => Pure.pure (a :: as)
      | none => Pure.pure []) c := by
  refine (recursive_eq _ c).trans (bind_congr_right fun {es d o} hd => ?_)
  cases o with
  | none => rfl
  | some a =>
    refine bind_congr_left (below_eq ?_)
    obtain ⟨w, r, rfl, -, hb, spec⟩ := (hp x hx).of_ok hx hc hd
    have h₁ := hc.length
    have h₂ := hb.length
    have h₃ := List.length_pos_iff.mpr (hw spec)
    rw [List.length_append] at h₁
    omega

/-- What one round does and what holds at the end give what all rounds do. -/
theorem Reads.many {p : Production (Option α)}
    {T : Option α → List Token → List Token → List Event → Prop}
    {S : List Token → List Token → List Event → Prop} {G : List Token → List Event → Prop}
    (hp : ∀ x, Terminated x → Reads p T F x) (hw : ∀ {a w r es}, T (some a) w r es → w ≠ [])
    (hn : ∀ {w r es}, T none w r es → S w r es)
    (hs : ∀ {a w v r es fs}, T (some a) w (v ++ r) es → S v r fs → S (w ++ v) r (es ++ fs))
    (hf : ∀ {w es}, F w es → G w es)
    (hg : ∀ {a w v r es fs}, T (some a) w r es → G v fs → G (w ++ v) (es ++ fs)) :
    ∀ x, Terminated x → Reads (many p) (fun _ => S) G x := by
  intro x
  induction hl : x.length using Nat.strongRecOn generalizing x with
  | ind n ih =>
    subst hl
    intro hx
    refine Reads.congr ?_ fun y hy c hc => many_eq hp hw hy hc
    refine .bind (hp x hx) (fun {o w r es} hr ht spec => ?_) hf
    cases o with
    | none => exact .pure ht (by simpa using hn spec)
    | some a =>
      have hlt : r.length < x.length := by
        have := List.length_pos_iff.mpr (hw spec)
        rw [hr, List.length_append]
        omega
      refine .bind (ih _ hlt r rfl ht) (fun {as v q fs} hq hqt hS => ?_) fun hG => hg spec hG
      refine .pure hqt ?_
      subst hq
      simpa using hs spec hS

end Production
end Stylesheet
