import Stylesheet.Proofs.Tracing

/-! What may follow inside a value while some of its calls are open. Whatever a call cannot take
ends it, and is taken by the one around it; so the more calls are open, the more may follow. -/
namespace Stylesheet.Syntax
open Computability

/-- A term that is no call, without its sign. -/
def word : Language Token := tok valueKinds + color

/-- What may follow, down to a word of `Y`, where `k` calls are open and the next term, if there is
one, has no sign of its own. -/
inductive Pending (Y : Language Token) : Nat → List Token → Prop
  | stop {k : Nat} {x : List Token} (hx : x ∈ Y) : Pending Y k x
  | word {k : Nat} {u v x : List Token} (hu : u ∈ word) (hv : v ∈ opt operator * opt sign)
      (hx : Pending Y k x) : Pending Y k (u ++ (v ++ x))
  | call {k : Nat} {u v x : List Token} (hu : u ∈ tok [.function]) (hv : v ∈ opt sign)
      (hx : Pending Y (k + 1) x) : Pending Y k (u ++ (v ++ x))
  | close {k : Nat} {u v x : List Token} (hu : u ∈ tok [.rparen]) (hv : v ∈ opt operator * opt sign)
      (hx : Pending Y k x) : Pending Y (k + 1) (u ++ (v ++ x))
  | sign {k : Nat} {u x : List Token} (hu : u ∈ sign) (hx : Pending Y k x) : Pending Y (k + 1) (u ++ x)
  | operator {k : Nat} {u v x : List Token} (hu : u ∈ operator) (hv : v ∈ opt sign)
      (hx : Pending Y k x) : Pending Y (k + 1) (u ++ (v ++ x))

variable (Y : Language Token) (k : Nat)

/-- Behind a sign. -/
def afterSign : Language Token := {x | Pending Y k x}

/-- Behind an operator, or at the start of a call. -/
def afterOperator : Language Token := opt sign * afterSign Y k

/-- Behind a term. -/
def afterTerm : Language Token := opt operator * afterOperator Y k

/-- Before a term without its sign. -/
def beforeTerm : Language Token := word * afterTerm Y k + tok [.function] * afterOperator Y (k + 1)

/-- What the innermost call leaves to what is around it. -/
def left : Nat → Language Token
  | 0 => Y
  | k + 1 => Y + tok [.rparen] * afterTerm Y k + sign * afterSign Y k + operator * afterOperator Y k

variable {Y k}

theorem afterTerm_eq : afterTerm Y k = opt operator * opt sign * afterSign Y k := by
  rw [afterTerm, afterOperator, mul_assoc]

theorem afterSign_le_afterOperator : afterSign Y k ≤ afterOperator Y k := by
  have := mul_le_mul_left (one_le_opt sign) (afterSign Y k)
  rwa [one_mul] at this

theorem afterOperator_le_afterTerm : afterOperator Y k ≤ afterTerm Y k := by
  have := mul_le_mul_left (one_le_opt operator) (afterOperator Y k)
  rwa [one_mul] at this

theorem beforeTerm_le : beforeTerm Y k ≤ afterSign Y k := by
  refine add_le ?_ ?_
  · intro x hx
    rw [afterTerm_eq] at hx
    obtain ⟨u, hu, z, hz, rfl⟩ := Language.mem_mul.mp hx
    obtain ⟨v, hv, y, hy, rfl⟩ := Language.mem_mul.mp hz
    exact .word hu hv hy
  · intro x hx
    obtain ⟨u, hu, z, hz, rfl⟩ := Language.mem_mul.mp hx
    obtain ⟨v, hv, y, hy, rfl⟩ := Language.mem_mul.mp hz
    exact .call hu hv hy

theorem stop_le : Y ≤ afterSign Y k := fun _ hx => .stop hx

theorem close_le : tok [.rparen] * afterTerm Y k ≤ afterSign Y (k + 1) := by
  intro x hx
  rw [afterTerm_eq] at hx
  obtain ⟨u, hu, z, hz, rfl⟩ := Language.mem_mul.mp hx
  obtain ⟨v, hv, y, hy, rfl⟩ := Language.mem_mul.mp hz
  exact .close hu hv hy

theorem sign_le : sign * afterSign Y k ≤ afterSign Y (k + 1) := by
  intro x hx
  obtain ⟨u, hu, y, hy, rfl⟩ := Language.mem_mul.mp hx
  exact .sign hu hy

theorem operator_le : operator * afterOperator Y k ≤ afterSign Y (k + 1) := by
  intro x hx
  obtain ⟨u, hu, z, hz, rfl⟩ := Language.mem_mul.mp hx
  obtain ⟨v, hv, y, hy, rfl⟩ := Language.mem_mul.mp hz
  exact .operator hu hv hy

/-- Either a term comes next, or the innermost call ends here. -/
theorem afterSign_le : afterSign Y k ≤ beforeTerm Y k + left Y k := by
  intro x hx
  cases hx with
  | stop hx =>
    cases k with
    | zero => exact .inr hx
    | succ k => exact .inr (.inl (.inl (.inl hx)))
  | word hu hv hx =>
    refine .inl (.inl (Language.append_mem_mul hu ?_))
    rw [afterTerm_eq]
    exact Language.append_mem_mul hv hx
  | call hu hv hx =>
    exact .inl (.inr (Language.append_mem_mul hu (Language.append_mem_mul hv hx)))
  | close hu hv hx =>
    refine .inr (.inl (.inl (.inr (Language.append_mem_mul hu ?_))))
    rw [afterTerm_eq]
    exact Language.append_mem_mul hv hx
  | sign hu hx => exact .inr (.inl (.inr (Language.append_mem_mul hu hx)))
  | operator hu hv hx =>
    exact .inr (.inr (Language.append_mem_mul hu (Language.append_mem_mul hv hx)))

/-- One more open call does no harm. -/
theorem afterSign_mono : afterSign Y k ≤ afterSign Y (k + 1) := by
  intro x hx
  induction hx with
  | stop hx => exact .stop hx
  | word hu hv _ ih => exact .word hu hv ih
  | call hu hv _ ih => exact .call hu hv ih
  | close hu hv _ ih => exact .close hu hv ih
  | sign hu _ ih => exact .sign hu ih
  | operator hu hv _ ih => exact .operator hu hv ih

theorem afterOperator_mono : afterOperator Y k ≤ afterOperator Y (k + 1) :=
  mul_le_mul_right afterSign_mono (opt sign)

/-- With one more open call, what may follow a term may follow a sign. -/
theorem afterTerm_le_afterSign : afterTerm Y k ≤ afterSign Y (k + 1) := by
  have hopened : afterOperator Y k ≤ afterSign Y (k + 1) := by
    rw [afterOperator, opt, add_mul, one_mul]
    exact add_le afterSign_mono sign_le
  rw [afterTerm, opt, add_mul, one_mul]
  exact add_le hopened operator_le

theorem sign_beforeTerm_le : opt sign * beforeTerm Y k ≤ afterOperator Y k :=
  mul_le_mul_right beforeTerm_le (opt sign)

variable {K : Language Token}

/-- Terms that may stand before whatever follows a term make chains that may stand before whatever
follows an operator. -/
theorem chain_mul_le (hK : K * afterTerm Y k ≤ opt sign * beforeTerm Y k) :
    chain K * afterOperator Y k ≤ opt sign * beforeTerm Y k := by
  have hstep : opt operator * K * afterTerm Y k ≤ afterTerm Y k := by
    have := mul_le_mul_right (hK.trans sign_beforeTerm_le) (opt operator)
    rwa [← mul_assoc] at this
  have hloop : (opt operator * K)∗ * afterTerm Y k ≤ afterTerm Y k := kstar_mul_le_self hstep
  have := (mul_le_mul_right hloop K).trans hK
  rwa [afterTerm, ← mul_assoc, ← mul_assoc] at this

/-- The arguments of a call, its missing parts included, may stand before whatever follows it. -/
theorem arguments_mul_le (hK : ∀ k, K * afterTerm Y k ≤ opt sign * beforeTerm Y k) :
    opt (chain K) * opt sign * opt (tok [.rparen]) * afterTerm Y k ≤ afterOperator Y (k + 1) := by
  have hclose : opt (tok [.rparen]) * afterTerm Y k ≤ afterSign Y (k + 1) := by
    rw [opt, add_mul, one_mul]
    exact add_le afterTerm_le_afterSign close_le
  have hsign : opt sign * (opt (tok [.rparen]) * afterTerm Y k) ≤ afterOperator Y (k + 1) :=
    mul_le_mul_right hclose (opt sign)
  have hchain : opt (chain K) * afterOperator Y (k + 1) ≤ afterOperator Y (k + 1) := by
    rw [opt, add_mul, one_mul]
    exact add_le le_rfl ((chain_mul_le (hK (k + 1))).trans sign_beforeTerm_le)
  have := (mul_le_mul_right hsign (opt (chain K))).trans hchain
  rwa [← mul_assoc, ← mul_assoc] at this

/-- However a term was derived, whatever follows it still follows where reading it from the left
leaves off, with perhaps more calls open. -/
theorem term_mul_le (k : Nat) : term * afterTerm Y k ≤ opt sign * beforeTerm Y k := by
  let K : Language Token := {w | ∀ k, ∀ x ∈ afterTerm Y k, w ++ x ∈ opt sign * beforeTerm Y k}
  have hK : ∀ k, K * afterTerm Y k ≤ opt sign * beforeTerm Y k := by
    intro k w hw
    obtain ⟨u, hu, x, hx, rfl⟩ := Language.mem_mul.mp hw
    exact hu k x hx
  have hover : ∀ k, termOver K * afterTerm Y k ≤ opt sign * beforeTerm Y k := by
    intro k
    have hcall := mul_le_mul_right (arguments_mul_le (k := k) hK) (tok [.function])
    have hword : word * afterTerm Y k ≤ beforeTerm Y k := le_sup_left
    have hbefore : (word + tok [.function] * opt (chain K) * opt sign * opt (tok [.rparen])) *
        afterTerm Y k ≤ beforeTerm Y k := by
      rw [add_mul]
      refine add_le hword (le_trans ?_ le_sup_right)
      simpa only [mul_assoc] using hcall
    have := mul_le_mul_right hbefore (opt sign)
    rwa [← mul_assoc] at this
  have hterm : term ≤ K := term_le fun w hw k x hx =>
    mem_of_le (hover k) (Language.append_mem_mul hw hx)
  exact (mul_le_mul_left hterm _).trans (hK k)

/-- A whole value before `Y`. -/
theorem value_mul_le : chain term * opt sign * Y ≤ opt sign * beforeTerm Y 0 := by
  have hsign : opt sign * Y ≤ afterOperator Y 0 := mul_le_mul_right stop_le (opt sign)
  have := (mul_le_mul_right hsign (chain term)).trans (chain_mul_le (term_mul_le 0))
  rwa [← mul_assoc] at this

end Stylesheet.Syntax
