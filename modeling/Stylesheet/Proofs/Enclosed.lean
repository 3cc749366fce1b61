import Stylesheet.Proofs.AlikeStatements

/-! Productions that end with a token of their own. Nothing behind that token has a part in what
they do, so what they take can stand in front of anything. -/
namespace Stylesheet

/-- The kinds of the tokens that end the parts of a style sheet. -/
def closers : List Kind := [.rbrace, .semicolon, .cdo, .cdc]

/-- Tokens of which the last one ends a part of a style sheet. -/
def Closed (w : List Token) : Prop := ∃ v t, w = v ++ [t] ∧ t.kind ∈ closers

theorem isSpace_of_closer {t : Token} (h : t.kind ∈ closers) : t.isSpace = false := by
  have hk : t.kind ≠ .space := fun he => absurd (he ▸ h) (by decide)
  simpa [Token.isSpace] using hk

variable {v w q r x : List Token}

theorem Closed.append (h : Closed v) (w : List Token) : Closed (w ++ v) := by
  obtain ⟨u, t, rfl, ht⟩ := h
  exact ⟨w ++ u, t, (List.append_assoc ..).symm, ht⟩

theorem Closed.ne_nil (h : Closed w) : w ≠ [] := by
  obtain ⟨v, t, rfl, -⟩ := h
  simp

/-- In front of anything the first token of closed ones that is no blank is the next one. -/
theorem Closed.sameNext (h : Closed w) : SameNext (w ++ q) (w ++ r) := by
  obtain ⟨v, t, rfl, ht⟩ := h
  rw [List.append_assoc, List.append_assoc]
  exact .of_split (isSpace_of_closer ht)

namespace Production
variable {α β : Type} {T : α → List Token → List Token → List Event → Prop}
  {F : List Token → List Event → Prop} {P : β → Prop}

/-- Wherever `w` comes next, `p` takes it, fires `es` and returns `a`. -/
def Takes (p : Production α) (w : List Token) (es : List Event) (a : α) : Prop :=
  ∀ r, r ≠ [] → Terminated (w ++ r) → ∀ c : Cursor, c.Before (w ++ r) →
    ∃ d, p c = ⟨es, d, .ok a⟩ ∧ d.Before r

/-- What is known to succeed does so before all that goes on in the same way. -/
theorem Reads.keep {p : Production α} (h : Reads p T F x) :
    Reads p (fun a w r es => T a w r es ∧ p.Succeeds w r es a) F x := by
  cases h with
  | success hx hr run spec => exact .success hx hr run ⟨spec, run⟩
  | failure hx ht run spec => exact .failure hx ht run spec

/-- What `p` takes ends before what is taken behind it does. -/
theorem Takes.behind {p : Production α} {f : α → Production β} {a : α} {b : β} {es fs : List Event}
    (hp : p.Succeeds w (v ++ q) es a) (hf : (f a).Takes v fs b) (hv : Closed v) :
    (p >>= f).Takes (w ++ v) (es ++ fs) b := by
  intro r hne ht c hc
  rw [List.append_assoc] at ht hc
  obtain ⟨d, hd, hb⟩ := hp (v ++ r) hv.sameNext ht c hc
  obtain ⟨d', hd', hb'⟩ := hf r hne (ht.drop (by simp [hne])) d hb
  exact ⟨d', bind_ok hd hd', hb'⟩

/-- What goes on without taking anything. -/
def Idle (p : Production α) : Prop := ∃ es a, ∀ c, p c = ⟨es, c, .ok a⟩

theorem idle_fire (e : Event) : (fire e).Idle := ⟨[e], (), fun _ => rfl⟩

theorem idle_pure (a : α) : (pure a : Production α).Idle := ⟨[], a, fun _ => rfl⟩

/-- Before the tokens `x`, what `p` takes is closed, and it would take it before any others too;
but only where it returns something as `P` says. -/
def EnclosedAt (x : List Token) (p : Production β) (P : β → Prop) : Prop :=
  p.Reads (fun b w _ es => P b → p.Takes w es b ∧ Closed w) (fun _ _ => True) x

/-- What comes before does not matter, and neither does what comes behind without taking
anything. -/
theorem EnclosedAt.bind {p : Production α} {f : α → Production β} (hp : Reads p T F x)
    (hf : ∀ {a w r es}, x = w ++ r → Terminated r → T a w r es →
      EnclosedAt r (f a) P ∨ (p.Takes w es a ∧ Closed w) ∧ (f a).Idle) :
    EnclosedAt x (p >>= f) P := by
  refine Reads.bind hp.keep (fun {a w r es} hx hr hT => ?_) fun _ => trivial
  obtain hread | ⟨⟨htakes, hclosed⟩, fs, b, hidle⟩ := hf hx hr hT.1
  · refine Reads.mono hread (fun {b v q fs} hq hv hP => ?_) fun _ _ => trivial
    obtain ⟨htakes, hclosed⟩ := hv hP
    exact ⟨.behind (hq ▸ hT.2) htakes hclosed, hclosed.append w⟩
  · refine .success (w := []) rfl hr (fun r' _ _ c hc => ⟨c, hidle c, hc⟩) fun _ => ?_
    rw [List.append_nil]
    refine ⟨fun r' hne ht c hc => ?_, hclosed⟩
    obtain ⟨d, hd, hbefore⟩ := htakes r' hne ht c hc
    exact ⟨d, bind_ok hd (hidle d), hbefore⟩

theorem EnclosedAt.behind {p : Production α} {f : α → Production β} (hp : Reads p T F x)
    (hf : ∀ {a w r es}, x = w ++ r → Terminated r → T a w r es → EnclosedAt r (f a) P) :
    EnclosedAt x (p >>= f) P := .bind hp fun hx hr hT => .inl (hf hx hr hT)

theorem EnclosedAt.then {p : Production α} {f : α → Production β}
    (hp : EnclosedAt x p fun _ => True) (hf : ∀ a, (f a).Idle) : EnclosedAt x (p >>= f) P :=
  .bind hp fun _ _ hT => .inr ⟨hT trivial, hf _⟩

/-- An optional production that is enclosed where it matches. -/
theorem EnclosedAt.option {p : Production (Option α)} {f : Option α → Production β}
    (hp : EnclosedAt x p fun o => o.isSome) (hsome : ∀ a, (f (some a)).Idle)
    (hnone : ∀ r, Terminated r → EnclosedAt r (f none) P) : EnclosedAt x (p >>= f) P := by
  refine .bind hp fun {o w r es} _ hr hT => ?_
  cases o with
  | none => exact .inl (hnone r hr)
  | some a => exact .inr ⟨hT rfl, hsome a⟩

theorem EnclosedAt.absent {b : β} (hx : Terminated x) (hb : ¬ P b) : EnclosedAt x (pure b) P :=
  .pure hx fun h => absurd h hb

theorem EnclosedAt.reject (hx : Terminated x) : EnclosedAt x reject P := Reads.reject hx fun _ => trivial

theorem takes_accept {ks : List Kind} {s : List Token} {t : Token} (hs : ∀ b ∈ s, b.isSpace)
    (ht : t.isSpace = false) (hk : t.kind ∈ ks) (he : t.kind ≠ .eof) :
    (accept ks).Takes (s ++ [t]) [] (some t) := by
  intro r _ hx c hc
  rw [List.append_assoc, List.singleton_append] at hx hc
  have hnext := hc.next_eq hs ht
  refine ⟨c.advance, ?_, hc.advance hs ht (hx.drop (by simp)) he⟩
  simp [accept, hnext, hk]

theorem EnclosedAt.expect {ks : List Kind} (hx : Terminated x) (hk : ks ⊆ closers) :
    EnclosedAt x (expect ks) fun _ => True := by
  have he : .eof ∉ ks := fun h => absurd (hk h) (by decide)
  refine Reads.expect hx he (fun {s t r} _ hs ht hm _ => ?_) fun _ => trivial
  refine ⟨fun r' hne hx' c hc => ?_, s, t, rfl, hk hm⟩
  obtain ⟨d, hd, hb⟩ := takes_accept hs ht hm (fun h => he (h ▸ hm)) r' hne hx' c hc
  exact ⟨d, bind_ok hd rfl, hb⟩

/-! Readings of which nothing is known. -/

theorem reads_expect (ks : List Kind) (hk : .eof ∉ ks) (hx : Terminated x) :
    Reads (expect ks) (fun _ _ _ _ => True) (fun _ _ => True) x :=
  .expect hx hk (fun _ _ _ _ => trivial) fun _ => trivial

theorem reads_fire (e : Event) (hx : Terminated x) :
    Reads (fire e) (fun _ _ _ _ => True) (fun _ _ => True) x := .fire hx trivial

theorem reads_many {p : Production (Option α)} (hp : Advances p) (hx : Terminated x) :
    Reads (many p) (fun _ _ _ _ => True) (fun _ _ => True) x :=
  .many (S := fun _ _ _ => True) (G := fun _ _ => True) hp (fun h => h rfl) (fun _ => trivial)
    (fun _ _ => trivial) (fun _ => trivial) (fun _ _ => trivial) x hx

end Production

namespace Grammar
open Production

theorem ruleBlock_enclosed (ss : List Selector) (hx : Terminated x) :
    EnclosedAt x (ruleBlock ss) fun _ => True := by
  refine .behind (reads_expect [.lbrace] (by decide) hx) fun _ hr _ => ?_
  refine .behind (reads_fire _ hr) fun _ hr _ => .behind (declarations_tracks.reads _ hr) fun _ hr _ => ?_
  exact (EnclosedAt.expect hr (by decide)).then fun _ => idle_fire _

theorem ruleset_enclosed (hx : Terminated x) : EnclosedAt x ruleset fun o => o.isSome := by
  refine .behind (selector_tracks.reads _ hx) fun {o w r es} _ hr _ => ?_
  cases o with
  | none => exact .absent hr (by simp)
  | some first =>
    exact .behind (reads_many (nextSelector_tracks.advances (by simp [Syntax.tok])) hr)
      fun _ hr _ => (ruleBlock_enclosed _ hr).then fun _ => idle_pure _

theorem media_enclosed (hx : Terminated x) : EnclosedAt x media fun _ => True := by
  refine .behind (reads_expect [.mediaSym] (by decide) hx) fun _ hr _ => ?_
  refine .behind (mediaList_tracks.reads _ hr) fun _ hr _ => ?_
  refine .behind (reads_expect [.lbrace] (by decide) hr) fun _ hr _ => ?_
  refine .behind (reads_fire _ hr) fun _ hr _ => ?_
  refine .behind (reads_many (ruleset_tracks.advances (by simp [Syntax.ruleset, Syntax.tok])) hr)
    fun _ hr _ => ?_
  exact (EnclosedAt.expect hr (by decide)).then fun _ => idle_fire _

theorem page_enclosed (hx : Terminated x) : EnclosedAt x page fun _ => True := by
  refine .behind (reads_expect [.pageSym] (by decide) hx) fun _ hr _ => ?_
  refine .behind (pagePseudo_tracks.reads _ hr) fun _ hr _ => ?_
  refine .behind (reads_expect [.lbrace] (by decide) hr) fun _ hr _ => ?_
  refine .behind (reads_fire _ hr) fun _ hr _ => .behind (declarations_tracks.reads _ hr) fun _ hr _ => ?_
  exact (EnclosedAt.expect hr (by decide)).then fun _ => idle_fire _

/-- A statement is enclosed; only the end is none. -/
theorem statement_enclosed (hx : Terminated x) : EnclosedAt x statement fun o => o.isSome := by
  refine .behind (T := fun t w r es => ∃ s q, r = s ++ t :: q ∧ (∀ b ∈ s, b.isSpace) ∧
    t.isSpace = false) (F := fun _ _ => True) (.next hx fun hr hs ht => ⟨_, _, hr, hs, ht⟩)
    fun {t w r es} _ hr ⟨s, q, hq, hs, ht⟩ => ?_
  subst hq
  have hmark : t.kind ∈ [Kind.cdo, .cdc] → EnclosedAt (s ++ t :: q)
      (accept [.cdo, .cdc] >>= fun _ => pure (some ())) fun o => o.isSome := by
    intro hk
    refine EnclosedAt.then (Reads.accept hr (by decide) (fun {s' t' r} _ hb hu hm _ => ?_)
      fun {s' t' r} hx hb hu hn => ?_) fun _ => idle_pure _
    · have hclosers : [Kind.cdo, .cdc] ⊆ closers := by decide
      exact ⟨takes_accept hb hu hm fun he => absurd (he ▸ hm) (by decide), s', t', rfl, hclosers hm⟩
    · exact absurd ((split_unique hx hs ht hb hu).1 ▸ hk) hn
  split
  next => exact .absent hr (by simp)
  next hk => exact hmark (by simp [hk])
  next hk => exact hmark (by simp [hk])
  next => exact (media_enclosed hr).then fun _ => idle_pure _
  next => exact (page_enclosed hr).then fun _ => idle_pure _
  next => exact (ruleset_enclosed hr).option (fun _ => idle_pure _) fun _ hr => .reject hr

end Grammar
end Stylesheet
