import Stylesheet.Proofs.Reading

/-! What a production makes of the tokens it can reach. Unlike what it reads, this is told of every
run, of those that fail as well. -/
namespace Stylesheet

/-- Every token that can be reached from the cursor is one of `P`. -/
structure Cursor.All (P : Token → Prop) (c : Cursor) : Prop where
  ahead : ∀ t ∈ c.ahead, P t
  last : P c.last

namespace Cursor.All
variable {P : Token → Prop} {c : Cursor}

theorem visible (h : c.All P) : ∀ t ∈ c.visible, P t :=
  fun t ht => h.ahead t (c.visible_suffix.subset ht)

theorem next (h : c.All P) : P c.next := by
  have hv := h.visible
  unfold Cursor.next
  cases hc : c.visible with
  | nil => exact h.last
  | cons t ts => exact hv t (by simp [hc])

theorem advance (h : c.All P) : c.advance.All P := by
  have hv := h.visible
  unfold Cursor.advance
  cases hc : c.visible with
  | nil => exact ⟨h.ahead, h.last⟩
  | cons t ts =>
    rw [hc, List.forall_mem_cons] at hv
    dsimp only
    split
    · exact ⟨h.ahead, h.last⟩
    · exact ⟨hv.2, h.last⟩

theorem withSpace (h : c.All P) (seen : Bool) : (c.withSpace seen).All P := ⟨h.ahead, h.last⟩

end Cursor.All

theorem Cursor.Before.all {P : Token → Prop} {c : Cursor} {x : List Token} (h : c.Before x)
    (hx : ∀ t ∈ x, P t) : c.All P := by
  rw [← h.input] at hx
  exact ⟨fun t ht => hx t (by simp [ht]), hx c.last (by simp)⟩

/-- The events are all of `E`, the tokens that can still be reached are all of `P`, and a result is
as `Q` says. -/
structure Outcome.Made {α : Type} (P : Token → Prop) (E : Event → Prop) (Q : α → Prop)
    (o : Outcome α) : Prop where
  events : ∀ e ∈ o.events, E e
  tokens : o.cursor.All P
  result : ∀ a, o.result = .ok a → Q a

/-- Among tokens of `P`, `p` fires events of `E` only, and it returns what `Q` says or fails. -/
def Yields {α : Type} (P : Token → Prop) (E : Event → Prop) (p : Production α) (Q : α → Prop) : Prop :=
  ∀ c : Cursor, c.All P → (p c).Made P E Q

namespace Yields
variable {α β : Type} {P : Token → Prop} {E : Event → Prop} {p : Production α}
  {f : α → Production β} {Q R : α → Prop} {S : β → Prop}
open Production

theorem mono (h : Yields P E p Q) (hQ : ∀ a, Q a → R a) : Yields P E p R := fun c hc =>
  ⟨(h c hc).events, (h c hc).tokens, fun a ha => hQ a ((h c hc).result a ha)⟩

theorem pure {a : α} (h : Q a) : Yields P E (pure a : Production α) Q :=
  fun _ hc => ⟨by simp [Pure.pure], hc, fun _ hb => Except.ok.inj hb ▸ h⟩

theorem bind (hp : Yields P E p Q) (hf : ∀ a, Q a → Yields P E (f a) S) :
    Yields P E (p >>= f) S := by
  intro c hc
  have h := hp c hc
  rcases ho : p c with ⟨es, d, e | a⟩
  · rw [ho] at h
    rw [bind_error ho]
    exact ⟨h.events, h.tokens, by simp⟩
  · rw [ho] at h
    have h' := hf a (h.result a rfl) d h.tokens
    rw [bind_ok ho rfl]
    exact ⟨fun e he => (List.mem_append.mp he).elim (h.events e) (h'.events e), h'.tokens, h'.result⟩

theorem fire {e : Event} (h : E e) : Yields P E (fire e) fun _ => True :=
  fun _ hc => ⟨fun _ he => List.mem_singleton.mp he ▸ h, hc, fun _ _ => trivial⟩

theorem fail (e : ParseError) : Yields P E (fail e : Production α) Q :=
  fun _ hc => ⟨by simp [Production.fail], hc, by simp [Production.fail]⟩

theorem reject : Yields P E (reject : Production α) Q :=
  fun _ hc => ⟨by simp [Production.reject], hc, by simp [Production.reject]⟩

theorem next : Yields P E next P :=
  fun _ hc => ⟨by simp [Production.next], hc, fun _ ht => Except.ok.inj ht ▸ hc.next⟩

theorem classify (g : Kind → Option β) : Yields P E (classify g) fun o =>
    ∀ a ∈ o, P a.2 ∧ g a.2.kind = some a.1 := by
  intro c hc
  unfold Production.classify
  split
  next b hb =>
    refine ⟨by simp, hc.advance, fun o ho => ?_⟩
    obtain rfl := Except.ok.inj ho
    simp [hc.next, hb]
  next => exact ⟨by simp, hc, fun o ho => by simp [← Except.ok.inj ho]⟩

theorem accept (ks : List Kind) : Yields P E (accept ks) fun o => ∀ t ∈ o, P t ∧ t.kind ∈ ks := by
  intro c hc
  unfold Production.accept
  split
  next hk =>
    refine ⟨by simp, hc.advance, fun o ho => ?_⟩
    obtain rfl := Except.ok.inj ho
    simp [hc.next, hk]
  next => exact ⟨by simp, hc, fun o ho => by simp [← Except.ok.inj ho]⟩

theorem option {p : Production (Option α)} {f : Option α → Production β}
    (hp : Yields P E p fun o => ∀ a ∈ o, Q a) (hs : ∀ a, Q a → Yields P E (f (some a)) S)
    (hn : Yields P E (f none) S) : Yields P E (p >>= f) S := by
  refine hp.bind fun o ho => ?_
  cases o with
  | none => exact hn
  | some a => exact hs a (ho a rfl)

theorem expect (ks : List Kind) : Yields P E (expect ks) fun t => P t ∧ t.kind ∈ ks :=
  (accept ks).option (fun _ ht => .pure ht) .reject

theorem orElse {p q : Production (Option α)} (hp : Yields P E p fun o => ∀ a ∈ o, Q a)
    (hq : Yields P E q fun o => ∀ a ∈ o, Q a) :
    Yields P E (orElse p q) fun o => ∀ a ∈ o, Q a :=
  hp.option (fun a ha => .pure (by simpa using ha)) hq

theorem withSpace (h : Yields P E p Q) (seen : Bool) : Yields P E (withSpace seen p) Q := by
  intro c hc
  have ho := h _ (hc.withSpace seen)
  exact ⟨ho.events, ho.tokens.withSpace _, ho.result⟩

/-- A reference without progress fails, so the body alone decides. -/
theorem recursive {body : Production α → Production α}
    (h : ∀ again, Yields P E again Q → Yields P E (body again) Q) :
    Yields P E (recursive body) Q :=
  recursive_induction (M := fun c o => c.All P → o.Made P E Q) reject h

theorem many {p : Production (Option α)} (hp : Yields P E p fun o => ∀ a ∈ o, Q a) :
    Yields P E (many p) fun as => ∀ a ∈ as, Q a := by
  refine recursive fun again hagain => hp.option (fun a ha => hagain.bind fun as has => ?_) ?_
  · exact .pure (List.forall_mem_cons.mpr ⟨ha, has⟩)
  · exact .pure (by simp)

end Yields
end Stylesheet
