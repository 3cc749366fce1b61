import Stylesheet.Proofs.Recursion

/-! How productions move a cursor, on every run: never backwards, visibility left as it was, and on
by a token wherever something matches. So a production that refers to itself comes to an end. -/
namespace Stylesheet

/-- Reading has gone from `c` on to `d`. -/
structure Cursor.Onward (c d : Cursor) : Prop where
  ahead : d.ahead <:+ c.ahead
  last : d.last = c.last
  spaceVisible : d.spaceVisible = c.spaceVisible

namespace Cursor.Onward
variable {c d e : Cursor}

theorem refl (c : Cursor) : c.Onward c := ⟨List.suffix_rfl, rfl, rfl⟩

theorem trans (h : c.Onward d) (h' : d.Onward e) : c.Onward e :=
  ⟨h'.ahead.trans h.ahead, h'.last.trans h.last, h'.spaceVisible.trans h.spaceVisible⟩

end Cursor.Onward

/-- A token but the end token is passed by consuming it, with the blanks before it. -/
theorem Cursor.ahead_eq {c : Cursor} (hc : c.last.isEof) (h : c.next.kind ≠ .eof) :
    ∃ s, c.ahead = s ++ c.next :: c.advance.ahead := by
  obtain ⟨s, hs⟩ := c.visible_suffix
  unfold Cursor.next at h ⊢
  unfold Cursor.advance
  cases hv : c.visible with
  | nil =>
    rw [hv] at h
    exact absurd (of_decide_eq_true hc) h
  | cons t ts =>
    rw [hv] at h hs
    have ht : t.isEof = false := decide_eq_false h
    exact ⟨s, by simp [← hs, ht]⟩

theorem Cursor.onward_advance {c : Cursor} (hc : c.last.isEof) (h : c.next.kind ≠ .eof) :
    c.Onward c.advance ∧ c.advance.ahead.length < c.ahead.length := by
  obtain ⟨s, hs⟩ := Cursor.ahead_eq hc h
  have hsuffix : c.advance.ahead <:+ c.ahead := ⟨s ++ [c.next], by simp [hs]⟩
  have hlast : c.advance.last = c.last ∧ c.advance.spaceVisible = c.spaceVisible := by
    unfold Cursor.advance
    split
    · exact ⟨rfl, rfl⟩
    · split <;> exact ⟨rfl, rfl⟩
  exact ⟨⟨hsuffix, hlast.1, hlast.2⟩, by simp only [hs, List.length_append, List.length_cons]; omega⟩

/-- An outcome leads on from `c`, and a result `a` has cost at least `δ a` tokens. -/
structure Outcome.Passes {α : Type} (c : Cursor) (δ : α → Nat) (o : Outcome α) : Prop where
  onward : c.Onward o.cursor
  passed : ∀ a, o.result = .ok a → o.cursor.ahead.length + δ a ≤ c.ahead.length

namespace Outcome.Passes
variable {α : Type} {c : Cursor}

theorem matched (hc : c.last.isEof) (h : c.next.kind ≠ .eof) (a : α) :
    Passes c Production.passed ⟨[], c.advance, .ok (some a)⟩ := by
  obtain ⟨hon, hlt⟩ := Cursor.onward_advance hc h
  refine ⟨hon, fun o ho => ?_⟩
  obtain rfl := Except.ok.inj ho
  exact hlt

theorem unmatched (c : Cursor) : Passes c Production.passed (⟨[], c, .ok none⟩ : Outcome (Option α)) := by
  refine ⟨.refl c, fun o ho => ?_⟩
  obtain rfl := Except.ok.inj ho
  exact le_rfl

end Outcome.Passes

namespace Production
variable {α β : Type} {n : Nat}

/-- With fewer than `n` tokens ahead `p` and `q` do the same and pass tokens as `δ` says. -/
def InStep (n : Nat) (δ : α → Nat) (p q : Production α) : Prop :=
  ∀ c : Cursor, c.last.isEof → c.ahead.length < n → p c = q c ∧ (p c).Passes c δ

namespace InStep
variable {δ : α → Nat} {ε : β → Nat} {p q : Production α} {f g : α → Production β}

theorem mono {m : Nat} (h : InStep n δ p q) (hm : m ≤ n) : InStep m δ p q :=
  fun c hc hl => h c hc (hl.trans_le hm)

theorem weaken {δ' : α → Nat} (h : InStep n δ p q) (hd : ∀ a, δ' a ≤ δ a) : InStep n δ' p q := by
  intro c hc hl
  obtain ⟨heq, hon, hpass⟩ := h c hc hl
  exact ⟨heq, hon, fun a ha => (Nat.add_le_add_left (hd a) _).trans (hpass a ha)⟩

theorem any (h : InStep n δ p q) : InStep n (fun _ => 0) p q := h.weaken fun _ => Nat.zero_le _

theorem onward (h : ∀ {n}, InStep n δ p q) {c : Cursor} (hc : c.last.isEof) : c.Onward (p c).cursor :=
  (h c hc (Nat.lt_succ_self _)).2.onward

/-- What stays where it is. -/
theorem still (hp : ∀ c, (p c).cursor = c) (hd : ∀ a, δ a = 0) : InStep n δ p p := by
  intro c _ _
  refine ⟨rfl, ?_, fun a _ => ?_⟩
  · rw [hp]
    exact .refl c
  · rw [hp, hd, Nat.add_zero]

theorem pure {a : α} (h : δ a = 0) : InStep n δ (Pure.pure a : Production α) (Pure.pure a) := by
  intro c _ _
  refine ⟨rfl, .refl c, fun b hb => ?_⟩
  obtain rfl := Except.ok.inj hb
  rw [h, Nat.add_zero]
  exact le_rfl

theorem fail (e : ParseError) : InStep n δ (Production.fail e) (Production.fail e) :=
  fun c _ _ => ⟨rfl, .refl c, fun a ha => by simp [Production.fail] at ha⟩

theorem reject : InStep n δ (Production.reject) (Production.reject) :=
  fun c _ _ => ⟨rfl, .refl c, fun a ha => by simp [Production.reject] at ha⟩

theorem fire (e : Event) : InStep n (fun _ => 0) (Production.fire e) (Production.fire e) :=
  .still (fun _ => rfl) fun _ => rfl

theorem next : InStep n (fun _ => 0) Production.next Production.next :=
  .still (fun _ => rfl) fun _ => rfl

theorem accept {ks : List Kind} (hk : .eof ∉ ks) :
    InStep n passed (Production.accept ks) (Production.accept ks) := by
  intro c hc _
  refine ⟨rfl, ?_⟩
  by_cases hm : c.next.kind ∈ ks
  · rw [accept_some hm]
    exact .matched hc (fun he => hk (he ▸ hm)) _
  · rw [accept_none hm]
    exact .unmatched c

theorem classify {k : Kind → Option β} (hk : k .eof = none) :
    InStep n passed (Production.classify k) (Production.classify k) := by
  intro c hc _
  refine ⟨rfl, ?_⟩
  cases hb : k c.next.kind with
  | some b =>
    rw [classify_some hb]
    exact .matched hc (fun he => by simp [he, hk] at hb) _
  | none =>
    rw [classify_none hb]
    exact .unmatched c

/-- Where the next token is one of `R`. -/
theorem peek {R : Token → Prop} {f g : Token → Production β} (h : ∀ t, R t → InStep n ε (f t) (g t))
    {c : Cursor} (hnext : R c.next) (hc : c.last.isEof) (hl : c.ahead.length < n) :
    (Production.next >>= f) c = (Production.next >>= g) c ∧ ((Production.next >>= f) c).Passes c ε := by
  have hquiet : Production.next c = ⟨[], c, .ok c.next⟩ := rfl
  rw [bind_quiet hquiet, bind_quiet hquiet]
  exact h c.next hnext c hc hl

theorem bind (h : InStep n δ p q)
    (hf : ∀ a, InStep (n - δ a) (fun b => ε b - δ a) (f a) (g a)) :
    InStep n ε (p >>= f) (q >>= g) := by
  intro c hc hl
  obtain ⟨heq, hon, hpass⟩ := h c hc hl
  rw [← bind_congr_left heq]
  rcases ho : p c with ⟨es, d, e | a⟩
  · rw [ho] at hon
    rw [bind_error ho, bind_error ho]
    exact ⟨rfl, hon, by simp⟩
  · rw [ho] at hon hpass
    have hcost : d.ahead.length + δ a ≤ c.ahead.length := hpass a rfl
    obtain ⟨heq', hon', hpass'⟩ := hf a d (hon.last ▸ hc) (by omega)
    rw [bind_ok ho rfl, bind_ok ho rfl]
    refine ⟨by rw [heq'], hon.trans hon', fun b hb => ?_⟩
    have hcost' := hpass' b hb
    dsimp only at hcost' ⊢
    omega

theorem option {p q : Production (Option α)} {f g : Option α → Production β}
    (h : InStep n passed p q)
    (hs : ∀ a, InStep (n - 1) (fun b => ε b - 1) (f (some a)) (g (some a)))
    (hn : InStep n ε (f none) (g none)) : InStep n ε (p >>= f) (q >>= g) := by
  refine h.bind fun o => ?_
  cases o with
  | none => exact hn
  | some a => exact hs a

theorem expect {ks : List Kind} (hk : .eof ∉ ks) :
    InStep n (fun _ => 1) (Production.expect ks) (Production.expect ks) :=
  (accept hk).option (fun _ => .pure rfl) .reject

theorem orElse {p q p' q' : Production (Option α)} (h : InStep n passed p q)
    (h' : InStep n passed p' q') : InStep n passed (orElse p p') (orElse q q') :=
  h.option (fun _ => .pure rfl) h'

theorem withSpace (h : InStep n δ p q) (seen : Bool) :
    InStep n δ (Production.withSpace seen p) (Production.withSpace seen q) := by
  intro c hc hl
  obtain ⟨heq, hon, hpass⟩ := h (c.withSpace seen) hc hl
  unfold Production.withSpace
  rw [← heq]
  exact ⟨rfl, ⟨hon.ahead, hon.last, rfl⟩, hpass⟩

/-- What refers to itself only behind a token. -/
theorem recursive {f g : Production α → Production α}
    (h : ∀ m < n, ∀ r s, InStep m (fun _ => 0) r s → InStep (m + 1) (fun _ => 0) (f r) (g s)) :
    InStep n (fun _ => 0) (recursive f) (recursive g) := by
  intro c
  induction hk : c.ahead.length using Nat.strongRecOn generalizing c with
  | ind k ih =>
    subst hk
    intro hc hl
    rw [recursive_eq, recursive_eq]
    refine h c.ahead.length hl _ _ (fun d hd hdl => ?_) c hc (Nat.lt_succ_self _)
    rw [below_eq hdl, below_eq hdl]
    exact ih _ hdl d rfl hd (hdl.trans hl)

end InStep

/-- One round of `many`: a match, and then `again`. -/
def round (p : Production (Option α)) (again : Production (List α)) : Production (List α) := do
  match ← p with
  | some a => return a :: (← again)
  | none => pure []

theorem InStep.round {p q : Production (Option α)} {r s : Production (List α)} (h : InStep (n + 1) passed p q)
    (hr : InStep n (fun _ => 0) r s) : InStep (n + 1) (fun _ => 0) (round p r) (round q s) :=
  h.option (fun _ => hr.bind fun _ => .pure rfl) (.pure rfl)

theorem InStep.many {p q : Production (Option α)} (h : InStep n passed p q) :
    InStep n (fun _ => 0) (many p) (many q) :=
  .recursive fun _ hm _ _ hr => .round (h.mono hm) hr

/-- The recursion of `body` ends by itself. -/
structure Grounded (body : Production α → Production α) : Prop where
  /-- It needs no check: the body refers to the recursion. -/
  plain : ∀ c : Cursor, c.last.isEof → recursive body c = body (recursive body) c
  /-- The references nest no deeper than there are tokens ahead: whatever stands for one more makes
  no difference. -/
  nested : ∀ (q : Production α) (c : Cursor) (n : Nat), c.last.isEof → c.ahead.length < n →
    body^[n] q c = recursive body c

/-- A body that refers to itself only behind a token. -/
theorem grounded_of_inStep {body : Production α → Production α}
    (h : ∀ n r s, InStep n (fun _ => 0) r s → InStep (n + 1) (fun _ => 0) (body r) (body s)) :
    Grounded body := by
  have hself (n : Nat) : InStep n (fun _ => 0) (recursive body) (recursive body) :=
    .recursive fun m _ => h m
  have hplain : ∀ c : Cursor, c.last.isEof → recursive body c = body (recursive body) c := by
    intro c hc
    rw [recursive_eq]
    refine (h c.ahead.length _ _ (fun d hd hdl => ?_) c hc (Nat.lt_succ_self _)).1
    rw [below_eq hdl]
    exact hself _ d hd hdl
  have hnested (q : Production α) (n : Nat) : InStep n (fun _ => 0) (body^[n] q) (recursive body) := by
    induction n with
    | zero => exact fun c _ hl => absurd hl (Nat.not_lt_zero _)
    | succ n ih =>
      intro c hc hl
      obtain ⟨heq, hpass⟩ := h n _ _ ih c hc hl
      rw [Function.iterate_succ_apply']
      exact ⟨heq.trans (hplain c hc).symm, hpass⟩
  exact ⟨hplain, fun q c n hc hl => (hnested q n c hc hl).1⟩

/-! What is left as it was where nothing matches. -/

/-- Without a match `p` has done nothing. -/
def Unmoved (p : Production (Option α)) : Prop :=
  ∀ c, (p c).result = .ok none → p c = ⟨[], c, .ok none⟩

/-- `p` matches or fails. -/
def Decided (p : Production (Option α)) : Prop := ∀ c, (p c).result ≠ .ok none

namespace Decided

theorem pure (a : α) : Decided (Pure.pure (some a) : Production (Option α)) := by
  intro c h
  simp [Pure.pure] at h

theorem reject : Decided (Production.reject : Production (Option α)) := by
  intro c h
  simp [Production.reject] at h

theorem fail (e : ParseError) : Decided (Production.fail e : Production (Option α)) := by
  intro c h
  simp [Production.fail] at h

theorem bind {p : Production α} {f : α → Production (Option β)} (h : ∀ a, Decided (f a)) :
    Decided (p >>= f) := by
  intro c
  rcases ho : p c with ⟨es, d, e | a⟩
  · rw [bind_error ho]
    simp
  · rw [bind_ok ho rfl]
    exact h a d

theorem option {p : Production (Option α)} {f : Option α → Production (Option β)}
    (hs : ∀ a, Decided (f (some a))) (hn : Decided (f none)) : Decided (p >>= f) := by
  refine bind fun o => ?_
  cases o with
  | none => exact hn
  | some a => exact hs a

end Decided

namespace Unmoved

theorem pure : Unmoved (Pure.pure none : Production (Option α)) := fun _ _ => rfl

theorem of_decided {p : Production (Option α)} (h : Decided p) : Unmoved p :=
  fun c hn => absurd hn (h c)

theorem accept (ks : List Kind) : Unmoved (Production.accept ks) := by
  intro c h
  by_cases hk : c.next.kind ∈ ks
  · rw [accept_some hk] at h
    simp at h
  · exact accept_none hk

theorem classify (k : Kind → Option α) : Unmoved (Production.classify k) := by
  intro c h
  cases hk : k c.next.kind with
  | some a =>
    rw [classify_some hk] at h
    simp at h
  | none => exact classify_none hk

/-- A look at what comes next moves nothing. -/
theorem peek {p : Production α} {f : α → Production (Option β)}
    (hp : ∀ c, ∃ a, p c = ⟨[], c, .ok a⟩) (hf : ∀ a, Unmoved (f a)) : Unmoved (p >>= f) := by
  intro c h
  obtain ⟨a, ha⟩ := hp c
  rw [bind_quiet ha] at h ⊢
  exact hf a c h

theorem option {p : Production (Option α)} {f : Option α → Production (Option β)} (hp : Unmoved p)
    (hs : ∀ a, Decided (f (some a))) (hn : Unmoved (f none)) : Unmoved (p >>= f) := by
  intro c h
  rcases ho : p c with ⟨es, d, e | o⟩
  · rw [bind_error ho] at h
    simp at h
  · cases o with
    | some a =>
      rw [bind_ok ho rfl] at h
      exact absurd h (hs a d)
    | none =>
      have hquiet := hp c (by rw [ho])
      rw [bind_quiet hquiet] at h ⊢
      exact hn c h

/-- What tokens of the kinds `ks` open. -/
theorem opened {ks : List Kind} {f : Option Token → Production (Option β)}
    (hs : ∀ t, t.kind ∈ ks → Decided (f (some t))) (hn : Unmoved (f none)) :
    Unmoved (Production.accept ks >>= f) := by
  intro c h
  by_cases hk : c.next.kind ∈ ks
  · rw [bind_quiet (accept_some hk)] at h
    exact absurd h (hs c.next hk c.advance)
  · rw [bind_quiet (accept_none hk)] at h ⊢
    exact hn c h

theorem orElse {p q : Production (Option α)} (hp : Unmoved p) (hq : Unmoved q) :
    Unmoved (orElse p q) :=
  hp.option (fun a => .pure a) hq

end Unmoved
end Production
end Stylesheet
