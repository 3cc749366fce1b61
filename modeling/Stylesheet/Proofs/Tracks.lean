import Stylesheet.Proofs.Tracing

/-! Productions that track languages, piece by piece: each way to put productions together has its
way to put languages together. -/
namespace Stylesheet
open Computability Syntax

/-- Before the tokens `x`, `p` takes a word of `K a` while it fires one of `M a` and returns `a`, or
it fails behind the beginning of such words. -/
def TracksAt {α : Type} (x : List Token) (p : Production α) (K : α → Language Token)
    (M : α → Language Event) : Prop :=
  p.Reads (fun a w _ es => Trace (K a) (M a) w es) (fun w es => ∃ a, Viable (K a) (M a) w es) x

/-- The same before any tokens; and some such words there are. -/
structure Tracks {α : Type} (p : Production α) (K : α → Language Token) (M : α → Language Event) :
    Prop where
  reads : ∀ x, Terminated x → TracksAt x p K M
  completable : ∃ a, Viable (K a) (M a) [] []

section
variable {α β : Type} {K : α → Language Token} {M : α → Language Event} {L : β → Language Token}
  {N : β → Language Event} {x : List Token}

theorem TracksAt.mono {p : Production α} {K' : α → Language Token} {M' : α → Language Event}
    (h : TracksAt x p K M) (hK : ∀ a, K a ≤ K' a) (hM : ∀ a, M a ≤ M' a) : TracksAt x p K' M' :=
  Production.Reads.mono h (fun _ ht => ht.mono (hK _) (hM _))
    fun _ ⟨a, hv⟩ => ⟨a, hv.mono (hK a) (hM a)⟩

theorem TracksAt.bind {p : Production α} {f : α → Production β} {P : α → β → Language Token}
    {Q : α → β → Language Event} (hp : TracksAt x p K M)
    (hf : ∀ {a w r}, x = w ++ r → Terminated r → w ∈ K a → TracksAt r (f a) (P a) (Q a))
    (hc : ∀ a, ∃ b, Viable (P a b) (Q a b) [] [])
    (hL : ∀ a b, K a * P a b ≤ L b) (hN : ∀ a b, M a * Q a b ≤ N b) :
    TracksAt x (p >>= f) L N := by
  refine Production.Reads.bind hp (fun {a w r es} hx hr ht => ?_) ?_
  · refine Production.Reads.mono (hf hx hr ht.tokens) (fun _ ht' => ?_) fun _ hv => ?_
    · exact (ht.append ht').mono (hL a _) (hN a _)
    · obtain ⟨b, hb⟩ := hv
      exact ⟨b, (ht.append_viable hb).mono (hL a b) (hN a b)⟩
  · intro w es hv
    obtain ⟨a, ha⟩ := hv
    obtain ⟨b, hb⟩ := hc a
    exact ⟨b, (ha.mul_right hb).mono (hL a b) (hN a b)⟩

theorem TracksAt.option {p : Production (Option α)} {f : Option α → Production β}
    {Z Y : Language Token} {P Q : β → Language Token}
    (hp : TracksAt x p (either Z Y) fun _ => 1)
    (hsome : ∀ {a w r}, x = w ++ r → Terminated r → w ∈ Y → TracksAt r (f (some a)) P N)
    (hnone : ∀ {w r}, x = w ++ r → Terminated r → w ∈ Z → TracksAt r (f none) Q N)
    (hcsome : α → ∃ b, Viable (P b) (N b) [] []) (hcnone : ∃ b, Viable (Q b) (N b) [] [])
    (hP : ∀ b, Y * P b ≤ L b) (hQ : ∀ b, Z * Q b ≤ L b) : TracksAt x (p >>= f) L N := by
  refine .bind (P := fun o => o.elim Q fun _ => P) (Q := fun _ => N) hp ?_ ?_ ?_ ?_
  · intro o w r hx hr hw
    cases o with
    | none => exact hnone hx hr hw
    | some a => exact hsome hx hr hw
  · intro o
    cases o with
    | none => exact hcnone
    | some a => exact hcsome a
  · intro o b
    cases o with
    | none => exact hQ b
    | some a => exact hP b
  · intro o b
    exact (one_mul _).le

end

namespace Tracks
open Production
variable {α β : Type} {K : α → Language Token} {M : α → Language Event} {L : β → Language Token}
  {N : β → Language Event}

theorem mono {p : Production α} {K' : α → Language Token} {M' : α → Language Event}
    (h : Tracks p K M) (hK : ∀ a, K a ≤ K' a) (hM : ∀ a, M a ≤ M' a) : Tracks p K' M' where
  reads x hx := (h.reads x hx).mono hK hM
  completable := h.completable.imp fun a hv => hv.mono (hK a) (hM a)

theorem pure {a : α} (hK : [] ∈ K a) (hM : [] ∈ M a) : Tracks (pure a : Production α) K M where
  reads _ hx := .pure hx (.nil hK hM)
  completable := ⟨a, (Trace.nil hK hM).viable⟩

theorem quiet {a : α} (h : [] ∈ K a) : Tracks (Pure.pure a : Production α) K fun _ => 1 :=
  pure h Language.nil_mem_one

/-- A result without anything taken. -/
theorem done {a : α} : Tracks (Pure.pure a : Production α) (fun _ => 1) fun _ => 1 :=
  quiet Language.nil_mem_one

theorem fire {e : Event} (he : e.brace? = none) :
    Tracks (Production.fire e) (fun _ => 1) fun _ => EventWords.only e where
  reads _ hx := .fire hx ⟨Language.nil_mem_one, rfl, by simp [he]⟩
  completable := ⟨(), ⟨[], by simp, Language.nil_mem_one⟩, ⟨[e], rfl⟩, rfl⟩

theorem bind {p : Production α} {f : α → Production β} {P : α → β → Language Token}
    {Q : α → β → Language Event} (hp : Tracks p K M) (hf : ∀ a, Tracks (f a) (P a) (Q a))
    (hL : ∀ a b, K a * P a b ≤ L b) (hN : ∀ a b, M a * Q a b ≤ N b) : Tracks (p >>= f) L N where
  reads x hx := (hp.reads x hx).bind (fun _ hr _ => (hf _).reads _ hr)
    (fun a => (hf a).completable) hL hN
  completable := by
    obtain ⟨a, ha⟩ := hp.completable
    obtain ⟨b, hb⟩ := (hf a).completable
    exact ⟨b, (ha.mul_right hb).mono (hL a b) (hN a b)⟩

/-- One production after another, whose languages do not depend on the first one's result. -/
theorem seq {p : Production α} {f : α → Production β} {K : Language Token} {M : Language Event}
    (hp : Tracks p (fun _ => K) (fun _ => M)) (hf : ∀ a, Tracks (f a) L N) :
    Tracks (p >>= f) (fun b => K * L b) (fun b => M * N b) :=
  bind hp hf (fun _ _ => le_rfl) fun _ _ => le_rfl

/-- The same where the first production fires nothing. -/
theorem next {p : Production α} {f : α → Production β} {K : Language Token}
    (hp : Tracks p (fun _ => K) fun _ => 1) (hf : ∀ a, Tracks (f a) L N) :
    Tracks (p >>= f) (fun b => K * L b) N :=
  bind hp hf (fun _ _ => le_rfl) fun _ _ => (one_mul _).le

theorem reject {a : α} (h : Viable (K a) (M a) [] []) (hK : blanks * K a ≤ K a) :
    Tracks (reject : Production α) K M where
  reads _ hx := .reject hx fun hs =>
    ⟨a, h.tokens.blanks hs hK, h.events, (braces_blanks hs).symm⟩
  completable := ⟨a, h⟩

theorem accept (ks : List Kind) (h : Plain ks) :
    Tracks (accept ks) (either 1 (tok ks)) fun _ => 1 where
  reads x hx := by
    refine .accept hx (fun he => (h.2 _ he).1 rfl) ?_ ?_
    · intro s t r _ hs _ ht
      exact h.trace hs ht
    · intro s t r _ _ _ _
      exact .nil rfl rfl
  completable := ⟨none, (Trace.nil Language.nil_mem_one Language.nil_mem_one).viable⟩

theorem expect (ks : List Kind) (h : Plain ks) :
    Tracks (expect ks) (fun _ => tok ks) fun _ => 1 where
  reads x hx := by
    refine .expect hx (fun he => (h.2 _ he).1 rfl) ?_ ?_
    · intro s t r _ hs _ ht
      exact h.trace hs ht
    · intro s hs
      exact ⟨Kind.eof.sample, h.completes.blanks hs (by simp), ⟨[], rfl⟩, (braces_blanks hs).symm⟩
  completable := ⟨Kind.eof.sample, h.completes, ⟨[], rfl⟩, rfl⟩

/-- Looking at the next token takes nothing. -/
theorem peek : Tracks Production.next (fun _ => 1) fun _ => 1 where
  reads _ hx := .next hx fun _ _ _ => .nil Language.nil_mem_one Language.nil_mem_one
  completable := ⟨Kind.eof.sample, (Trace.nil Language.nil_mem_one Language.nil_mem_one).viable⟩

theorem classify {f : Kind → Option α} {ks : List Kind} (h : Plain ks)
    (hf : ∀ k, (f k).isSome ↔ k ∈ ks) :
    Tracks (classify f) (either 1 (tok ks)) fun _ => 1 where
  reads x hx := by
    refine .classify hx ?_ ?_ ?_
    · rw [← Option.not_isSome_iff_eq_none, hf]
      exact fun he => (h.2 _ he).1 rfl
    · intro s t a r _ hs _ ht
      exact h.trace hs ((hf _).mp (by simp [ht]))
    · intro s t r _ _ _ _
      exact .nil rfl rfl
  completable := ⟨none, (Trace.nil Language.nil_mem_one Language.nil_mem_one).viable⟩

/-- What a match leads to, and what comes without one. -/
theorem option {p : Production (Option α)} {f : Option α → Production β}
    {Z Y : Language Token} {P Q : β → Language Token} (hp : Tracks p (either Z Y) fun _ => 1)
    (hsome : ∀ a, Tracks (f (some a)) P N) (hnone : Tracks (f none) Q N)
    (hP : ∀ b, Y * P b ≤ L b) (hQ : ∀ b, Z * Q b ≤ L b) : Tracks (p >>= f) L N := by
  refine bind (P := fun o => o.elim Q fun _ => P) (Q := fun _ => N) hp ?_ ?_ ?_
  · intro o
    cases o with
    | none => exact hnone
    | some a => exact hsome a
  · intro o b
    cases o with
    | none => exact hQ b
    | some a => exact hP b
  · intro o b
    exact (one_mul _).le

/-- The next token of the kinds `ks` opens what comes next; without it nothing is taken. -/
theorem ifAccept (ks : List Kind) (h : Plain ks) {f : Option Token → Production (Option α)}
    {P Q : Option α → Language Token} {R : Option α → Language Event}
    (hsome : ∀ t, Tracks (f (some t)) P R) (hnone : f none = Pure.pure none)
    (hP : ∀ o, tok ks * P o ≤ Q o) (hQ : 1 ≤ Q none) (hR : 1 ≤ R none) :
    Tracks (Production.accept ks >>= f) Q R := by
  refine option (Q := either 1 0) (accept ks h) hsome ?_ hP fun o => ?_
  · rw [hnone]
    exact pure Language.nil_mem_one (mem_of_le hR Language.nil_mem_one)
  · cases o <;> simp [hQ]

/-- A match reported without taking more. -/
theorem found {a : α} : Tracks (Pure.pure (some a) : Production (Option α)) (either 0 1) fun _ => 1 :=
  quiet Language.nil_mem_one

/-- A match reported behind what has been fired for it. -/
theorem matched {a : α} :
    Tracks (Pure.pure (some a) : Production (Option α)) (either 0 1) (either 0 1) :=
  pure Language.nil_mem_one Language.nil_mem_one

/-- No match. -/
theorem missed : Tracks (Pure.pure none : Production (Option α)) (either 1 0) fun _ => 1 :=
  quiet Language.nil_mem_one

/-- A token of a known class, reported with what is made of it. -/
theorem classified {f : Kind → Option α} {g : Option (α × Token) → Production (Option β)}
    {ks : List Kind} (h : Plain ks) (hf : ∀ k, (f k).isSome ↔ k ∈ ks)
    (hsome : ∀ o, ∃ b, g (some o) = Pure.pure (some b)) (hnone : g none = Pure.pure none) :
    Tracks (Production.classify f >>= g) (either 1 (tok ks)) fun _ => 1 := by
  refine option (P := either 0 1) (classify h hf) (fun o => ?_) (hnone ▸ missed) ?_ ?_
  · obtain ⟨b, hb⟩ := hsome o
    exact hb ▸ found
  · intro o
    cases o <;> simp
  · intro o
    cases o <;> simp

theorem orElse_at {p q : Production (Option α)} {K L : Language Token} {x : List Token}
    (hp : TracksAt x p (either 1 K) fun _ => 1) (hq : TracksAt x q (either 1 L) fun _ => 1) :
    TracksAt x (Production.orElse p q) (either 1 (K + L)) fun _ => 1 := by
  refine .option (Q := either 1 L) hp (fun _ hr _ => found.reads _ hr) (fun {w r} hx hr hw => ?_)
    (fun a => (found (a := a)).completable)
    ⟨none, (Trace.nil Language.nil_mem_one Language.nil_mem_one).viable⟩ ?_ ?_
  · obtain rfl : w = [] := hw
    subst hx
    exact hq
  all_goals
    intro o
    cases o <;> simp

theorem orElse {p q : Production (Option α)} {K L : Language Token}
    (hp : Tracks p (either 1 K) fun _ => 1) (hq : Tracks q (either 1 L) fun _ => 1) :
    Tracks (Production.orElse p q) (either 1 (K + L)) fun _ => 1 where
  reads x hx := orElse_at (hp.reads x hx) (hq.reads x hx)
  completable := ⟨none, (Trace.nil Language.nil_mem_one Language.nil_mem_one).viable⟩

/-- A brace, and the event that stands for it. -/
theorem bracket {k : Kind} {e : Event} (hk : k.brace? ≠ none) (he : e.brace? = k.brace?) :
    Tracks (Production.expect [k] >>= fun _ => Production.fire e) (fun _ => tok [k])
      fun _ => EventWords.only e := by
  have hend : k ≠ .eof := by
    rintro rfl
    exact hk rfl
  have hc : Completes (tok [k]) [] := by
    refine ⟨[k.sample], ?_, mem_tok (s := []) (by simp) (by simp [Kind.sample])⟩
    intro t ht
    obtain rfl := List.mem_singleton.mp ht
    exact ⟨k.sample_regular, hend⟩
  refine ⟨fun x hx => ?_, ⟨(), hc, ⟨[e], rfl⟩, rfl⟩⟩
  refine Reads.bind (T := fun t w _ es => w ∈ tok [k] ∧ es = [] ∧
    w.filterMap Token.brace? = [e].filterMap Event.brace?) (F := fun w es =>
      (∀ b ∈ w, b.isSpace) ∧ es = []) (.expect hx (by simp [hend.symm]) ?_ ?_) ?_ ?_
  · intro s t r _ hs _ ht
    obtain rfl := List.mem_singleton.mp ht
    refine ⟨mem_tok hs ht, rfl, ?_⟩
    rw [List.filterMap_append, braces_blanks hs]
    simp [Token.brace?, he, List.filterMap_cons]
  · intro s hs
    exact ⟨hs, rfl⟩
  · rintro t w r _ _ hr ⟨hw, rfl, hb⟩
    exact .fire hr (by simpa using ⟨hw, rfl, hb.symm⟩)
  · rintro w _ ⟨hs, rfl⟩
    exact ⟨(), hc.blanks hs (by simp), ⟨[e], rfl⟩, (braces_blanks hs).symm⟩

/-- A brace with its event, and what comes behind them. -/
theorem bracketThen {k : Kind} {e : Event} {f : Unit → Production α} (hk : k.brace? ≠ none)
    (he : e.brace? = k.brace?) (hf : Tracks (f ()) K M) :
    Tracks (Production.expect [k] >>= fun _ => Production.fire e >>= f)
      (fun a => tok [k] * K a) fun a => EventWords.only e * M a := by
  rw [← bind_assoc]
  exact seq (bracket hk he) fun _ => hf

theorem many {p : Production (Option α)} {K Z : Language Token} {M : Language Event}
    (hp : Tracks p (either Z K) (either 1 M)) (hK : [] ∉ K) (hZ : [] ∈ Z) :
    Tracks (many p) (fun _ => K∗ * Z) (fun _ => M∗) where
  reads := by
    have hnil : Trace K∗ M∗ [] [] := .nil (Language.nil_mem_kstar K) (Language.nil_mem_kstar M)
    have hKZ : K * (K∗ * Z) ≤ K∗ * Z := by
      rw [← mul_assoc]
      exact mul_le_mul_left mul_kstar_le_kstar Z
    refine .many hp.reads (fun {a w r es} ht hw => hK (hw ▸ ht.tokens)) ?_ ?_ ?_ ?_
    · intro w r es ht
      simpa using hnil.append ht
    · intro a w v r es fs ht hS
      exact (ht.append hS).mono hKZ mul_kstar_le_kstar
    · intro w es hv
      obtain ⟨o, ho⟩ := hv
      refine ⟨[], ?_⟩
      cases o with
      | none => simpa using hnil.append_viable ho
      | some a =>
        have hz := (hnil.append (.nil hZ Language.nil_mem_one)).viable
        exact (ho.mul_right hz).mono hKZ (by simp [mul_kstar_le_kstar])
    · intro a w v r es fs ht hv
      obtain ⟨as, has⟩ := hv
      exact ⟨as, (ht.append_viable has).mono hKZ mul_kstar_le_kstar⟩
  completable := ⟨[], (Trace.nil (Language.append_mem_mul (Language.nil_mem_kstar K) hZ)
    (Language.nil_mem_kstar M)).viable⟩

theorem manyQuiet {p : Production (Option α)} {K Z : Language Token}
    (hp : Tracks p (either Z K) fun _ => 1) (hK : [] ∉ K) (hZ : [] ∈ Z) :
    Tracks (Production.many p) (fun _ => K∗ * Z) fun _ => 1 := by
  have hquiet : Tracks p (either Z K) (either 1 1) := hp.mono (fun _ => le_rfl) fun o => by
    cases o <;> exact le_rfl
  exact (hquiet.many hK hZ).mono (fun _ => le_rfl) fun _ => (kstar_one).le

end Tracks
end Stylesheet
