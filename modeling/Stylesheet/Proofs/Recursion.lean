import Stylesheet.Proofs.Tracks

/-! Where a production refers to itself only behind a token it has passed, the check that ends the
recursion never fails; agreement before a limited number of tokens is how to show it. -/
namespace Stylesheet.Production
variable {α β : Type} {n : Nat}

/-- Before at most `n` tokens `p` and `q` do the same, and where they return `a` they have passed
at least `δ a` tokens. -/
def Agree (n : Nat) (δ : α → Nat) (p q : Production α) : Prop :=
  ∀ x, Terminated x → x.length ≤ n → ∀ c : Cursor, c.Before x → p c = q c ∧
    ∀ {es d a}, p c = ⟨es, d, .ok a⟩ → ∃ y, Terminated y ∧ d.Before y ∧ y.length + δ a ≤ x.length

/-- The tokens that a match has passed at least. -/
def passed : Option α → Nat
  | none => 0
  | some _ => 1

namespace Agree

theorem mono {m : Nat} {δ : α → Nat} {p q : Production α} (h : Agree n δ p q) (hm : m ≤ n) :
    Agree m δ p q :=
  fun x hx hl => h x hx (hl.trans hm)

theorem of_tracks {p : Production α} {K : α → Language Token} {M : α → Language Event}
    (h : Tracks p K M) {δ : α → Nat} (hd : ∀ a w, w ∈ K a → δ a ≤ w.length) : Agree n δ p p := by
  intro x hx _ c hc
  refine ⟨rfl, fun {es d a} hp => ?_⟩
  obtain ⟨w, r, rfl, hr, hb, htrace⟩ := (h.reads x hx).of_ok hx hc hp
  have := hd a w htrace.tokens
  exact ⟨r, hr, hb, by rw [List.length_append]; omega⟩

theorem pure {δ : α → Nat} {a : α} (h : δ a = 0) :
    Agree n δ (Pure.pure a : Production α) (Pure.pure a) := by
  intro x hx _ c hc
  refine ⟨rfl, fun {es d b} hp => ?_⟩
  obtain ⟨-, rfl, hb⟩ := Outcome.mk.inj hp
  obtain rfl := Except.ok.inj hb
  exact ⟨x, hx, hc, by simp [h]⟩

theorem bind {δ : α → Nat} {ε : β → Nat} {p q : Production α} {f g : α → Production β}
    (h : Agree n δ p q) (hf : ∀ a, Agree (n - δ a) (fun b => ε b - δ a) (f a) (g a)) :
    Agree n ε (p >>= f) (q >>= g) := by
  intro x hx hl c hc
  obtain ⟨heq, hrun⟩ := h x hx hl c hc
  constructor
  · rw [bind_congr_left heq]
    refine bind_congr_right fun hq => ?_
    obtain ⟨y, hy, hd, hyl⟩ := hrun (heq.trans hq)
    exact (hf _ y hy (by omega) _ hd).1
  · intro es d b hb
    rcases hp : p c with ⟨es', d', e | a⟩
    · rw [bind_error hp] at hb
      simp at hb
    · obtain ⟨y, hy, hd, hyl⟩ := hrun hp
      rcases hfa : f a d' with ⟨fs, d'', r⟩
      rw [bind_ok hp hfa] at hb
      obtain ⟨-, rfl, rfl⟩ := Outcome.mk.inj hb
      obtain ⟨z, hz, hd', hzl⟩ := (hf a y hy (by omega) d' hd).2 hfa
      have hl' : z.length + (ε b - δ a) ≤ y.length := hzl
      exact ⟨z, hz, hd', by omega⟩

/-- References that agree make recursions that agree. -/
theorem recursive {f g : Production α → Production α}
    (h : ∀ m ≤ n, ∀ p q, Agree m (fun _ => 0) p q → Agree m (fun _ => 0) (f p) (g q)) :
    Agree n (fun _ => 0) (recursive f) (recursive g) := by
  intro x
  induction hk : x.length using Nat.strongRecOn generalizing x with
  | ind k ih =>
    subst hk
    intro hx hl c hc
    rw [recursive_eq, recursive_eq]
    refine h x.length hl _ _ (fun y hy hyl d hd => ?_) x hx le_rfl c hc
    by_cases hlt : d.ahead.length < c.ahead.length
    · rw [below_eq hlt, below_eq hlt]
      have h₁ := hd.length
      have h₂ := hc.length
      exact ih y.length (by omega) y rfl hy (by omega) d hd
    · have hf : below c (Production.recursive f) d = Production.reject d := if_neg hlt
      have hg : below c (Production.recursive g) d = Production.reject d := if_neg hlt
      rw [hf, hg]
      exact ⟨rfl, fun hr => by simp [Production.reject] at hr⟩

end Agree
end Stylesheet.Production
