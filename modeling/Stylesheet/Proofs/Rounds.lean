import Stylesheet.Proofs.Enclosed

/-! Repetitions whose every round ends with a token of its own: they can be broken off behind any
round, and taken up again there. -/
namespace Stylesheet

/-- An outcome with events fired before. -/
def Outcome.after {α : Type} (es : List Event) (o : Outcome α) : Outcome α :=
  { o with events := es ++ o.events }

namespace Production
variable {α β : Type} {w v r x y : List Token} {es fs : List Event}

/-- Every match of `p` takes closed tokens, and would take them before any others too; without a
match nothing is taken. -/
def Enclosed (p : Production (Option α)) : Prop :=
  ∀ x, Terminated x → p.Reads (fun o w _ es => match o with
    | some _ => p.Takes w es o ∧ Closed w
    | none => w = [] ∧ es = []) (fun _ _ => True) x

theorem Enclosed.advances {p : Production (Option α)} (h : Enclosed p) : Advances p := by
  intro x hx
  refine Reads.mono (h x hx) (fun {o w r es} _ ht hs => ?_) fun _ _ => trivial
  cases o with
  | none => simp at hs
  | some a => exact ht.2.ne_nil

theorem Takes.then {p : Production α} {f : α → Production β} {a : α} {b : β}
    (hp : p.Takes w es a) (hf : ∀ c, f a c = ⟨fs, c, .ok b⟩) : (p >>= f).Takes w (es ++ fs) b := by
  intro r hne ht c hc
  obtain ⟨d, hd, hb⟩ := hp r hne ht c hc
  exact ⟨d, bind_ok hd (hf d), hb⟩

theorem Enclosed.orElse {p q : Production (Option α)} (hp : Enclosed p) (hq : Enclosed q) :
    Enclosed (orElse p q) := by
  intro x hx
  refine Reads.bind (hp x hx).keep (fun {o w r es} hw hr hT => ?_) fun _ => trivial
  cases o with
  | some a =>
    refine .pure hr ?_
    rw [List.append_nil]
    exact ⟨hT.1.1.then fun _ => rfl, hT.1.2⟩
  | none =>
    obtain ⟨⟨rfl, rfl⟩, hrun⟩ := hT
    refine Reads.mono (hq r hr) (fun {o v s fs} hv hT => ?_) fun _ _ => trivial
    cases o with
    | none => exact hT
    | some a => exact ⟨.behind (a := none) (hv ▸ hrun) hT.1 hT.2, hT.2⟩

/-- What a token of the kinds `ks` opens. -/
def openedBy (ks : List Kind) (p : Production Unit) : Production (Option Unit) := do
  match ← accept ks with
  | some _ => do
    p
    pure (some ())
  | none => pure none

theorem Enclosed.openedBy {ks : List Kind} {p : Production Unit} (hk : .eof ∉ ks)
    (hp : ∀ x, Terminated x → EnclosedAt x p fun _ => True) : Enclosed (openedBy ks p) := by
  intro x hx
  have haccept : Reads (Production.accept ks) (fun o w _ es => o = none → w = [] ∧ es = [])
      (fun _ _ => True) x := .accept hx hk (fun _ _ _ _ h => by simp at h) fun _ _ _ _ _ => ⟨rfl, rfl⟩
  refine Reads.bind haccept.keep (fun {o w r es} hw hr hT => ?_) fun _ => trivial
  cases o with
  | none => exact .pure hr (by simpa using hT.1 rfl)
  | some t =>
    refine Reads.bind (hp r hr) (fun {_ v q fs} hq hr' hv => .pure hr' ?_) fun _ => trivial
    obtain ⟨htakes, hclosed⟩ := hv trivial
    rw [List.append_nil, List.append_nil]
    have hbody : (p >>= fun _ => Pure.pure (some ())).Takes v fs (some ()) := by
      simpa using htakes.then (f := fun _ => Pure.pure (some ())) fun _ => rfl
    exact ⟨.behind (a := some t) (hq ▸ hT.2) hbody hclosed, hclosed.append w⟩

/-- A token that ends what it opens. -/
theorem Enclosed.lone {ks : List Kind} (hk : ks ⊆ closers) :
    Enclosed (Production.openedBy ks (Pure.pure ())) := by
  intro x hx
  have he : .eof ∉ ks := fun h => absurd (hk h) (by decide)
  have haccept : Reads (Production.accept ks) (fun o w _ es => match o with
      | some _ => (Production.accept ks).Takes w es o ∧ Closed w
      | none => w = [] ∧ es = []) (fun _ _ => True) x := by
    refine Reads.accept hx he (fun {s t r} _ hs ht hm => ?_) fun _ _ _ _ => ⟨rfl, rfl⟩
    exact ⟨takes_accept hs ht hm fun h => he (h ▸ hm), s, t, rfl, hk hm⟩
  refine Reads.bind haccept (fun {o w r es} _ hr hT => ?_) fun _ => trivial
  cases o with
  | none => exact .pure hr (by simpa using hT)
  | some t =>
    refine .pure hr ?_
    rw [List.append_nil]
    exact ⟨hT.1.then fun _ => rfl, hT.2⟩

/-! Repetitions of which only the effect counts. -/

/-- Repeats `p` while it matches, whatever it returns. -/
def loop (p : Production (Option α)) : Production Unit := do
  let _ ← many p
  pure ()

theorem loop_eq {p : Production (Option α)} (hp : Advances p) (hx : Terminated x) {c : Cursor}
    (hc : c.Before x) : loop p c = (p >>= fun o => match o with
      | some _ => loop p
      | none => pure ()) c := by
  have hmany := many_eq hp (fun h => h rfl) hx hc
  refine (bind_congr_left hmany).trans ?_
  rw [bind_assoc]
  refine bind_congr_right fun {es d o} _ => ?_
  cases o with
  | none => rfl
  | some a => simp only [bind_assoc, pure_bind, loop]

/-- Tokens in pieces that `p` takes one after the other. -/
inductive Rounds (p : Production (Option α)) : List Token → List Event → Prop
  | nil : Rounds p [] []
  | cons {w v : List Token} {es fs : List Event} {a : α} (h : p.Takes w es (some a))
      (hw : Closed w) (hs : Rounds p v fs) : Rounds p (w ++ v) (es ++ fs)

theorem Rounds.closed {p : Production (Option α)} (h : Rounds p w es) :
    w = [] ∧ es = [] ∨ Closed w := by
  induction h with
  | nil => exact .inl ⟨rfl, rfl⟩
  | @cons w v es fs a h hw hs ih =>
    rcases ih with ⟨rfl, rfl⟩ | hv
    · exact .inr (by rwa [List.append_nil])
    · exact .inr (hv.append w)

theorem Enclosed.loop_reads {p : Production (Option α)} (hp : Enclosed p) (hx : Terminated x) :
    Reads (loop p) (fun _ w _ es => Rounds p w es) (fun _ _ => True) x := by
  refine Reads.bind (T := fun _ w _ es => Rounds p w es) (F := fun _ _ => True)
    (.many (S := fun w _ es => Rounds p w es) hp (fun h => h.2.ne_nil) ?_ ?_ (fun _ => trivial)
      (fun _ _ => trivial) x hx) (fun _ hr h => .pure hr (by simpa using h)) fun _ => trivial
  · rintro w r es ⟨rfl, rfl⟩
    exact .nil
  · intro a w v r es fs h hS
    exact .cons h.1 h.2 hS

/-- Before `w` and then `r`, `p` fires `es`, and behind `w` it goes on as `q`. -/
def Leads (r : List Token) (p : Production α) (w : List Token) (es : List Event)
    (q : Production α) : Prop :=
  ∀ c : Cursor, c.Before (w ++ r) → ∃ d, d.Before r ∧ p c = (q d).after es

theorem Leads.refl {p : Production α} : Leads r p [] [] p := fun c hc => ⟨c, hc, rfl⟩

theorem Leads.trans {p q s : Production α} (h : Leads (v ++ r) p w es q) (h' : Leads r q v fs s) :
    Leads r p (w ++ v) (es ++ fs) s := by
  intro c hc
  rw [List.append_assoc] at hc
  obtain ⟨d, hd, hp⟩ := h c hc
  obtain ⟨e, he, hq⟩ := h' d hd
  refine ⟨e, he, ?_⟩
  rw [hp, hq]
  simp [Outcome.after]

theorem Leads.bind {p q : Production α} {f : α → Production β} (h : Leads r p w es q) :
    Leads r (p >>= f) w es (q >>= f) := by
  intro c hc
  obtain ⟨d, hd, hp⟩ := h c hc
  refine ⟨d, hd, ?_⟩
  show andThen (p c) f = (andThen (q d) f).after es
  rw [hp]
  rcases q d with ⟨gs, e, e' | a⟩
  · rfl
  · simp [andThen, Outcome.after]

/-- Behind what it takes, a production goes on with what follows it. -/
theorem Leads.of_ok {p : Production α} {f : α → Production β} {a : α}
    (h : ∀ c : Cursor, c.Before (w ++ r) → ∃ d, p c = ⟨es, d, .ok a⟩ ∧ d.Before r) :
    Leads r (p >>= f) w es (f a) := by
  intro c hc
  obtain ⟨d, hd, hb⟩ := h c hc
  exact ⟨d, hb, bind_ok hd rfl⟩

theorem Leads.congr_left {p p' q : Production α} (h : Leads r p w es q)
    (hp : ∀ c : Cursor, c.Before (w ++ r) → p' c = p c) : Leads r p' w es q := by
  intro c hc
  obtain ⟨d, hd, heq⟩ := h c hc
  exact ⟨d, hd, (hp c hc).trans heq⟩

theorem Leads.congr_right {p q q' : Production α} (h : Leads r p w es q)
    (hq : ∀ d : Cursor, d.Before r → q d = q' d) : Leads r p w es q' := by
  intro c hc
  obtain ⟨d, hd, heq⟩ := h c hc
  exact ⟨d, hd, by rw [heq, hq d hd]⟩

/-- Behind any of its rounds a repetition goes on as at the start. -/
theorem Rounds.leads {p : Production (Option α)} (hp : Advances p) (h : Rounds p w es)
    (hr : r ≠ []) (hx : Terminated (w ++ r)) : Leads r (loop p) w es (loop p) := by
  induction h with
  | nil => exact .refl
  | @cons w v es fs a h hw hs ih =>
    rw [List.append_assoc] at hx
    have hne : v ++ r ≠ [] := by simp [hr]
    have hfirst : Leads (v ++ r) (loop p) w es (loop p) :=
      (Leads.of_ok (f := fun o => match o with
        | some _ => loop p
        | none => pure ()) (h (v ++ r) hne hx)).congr_left fun c hc => loop_eq hp hx hc
    exact hfirst.trans (ih (hx.drop hne))

end Production
end Stylesheet
