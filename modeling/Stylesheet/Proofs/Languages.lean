import Mathlib
import Stylesheet.Token

/-! Languages: what may be left out, beginnings of words, and words of tokens with blanks between
them. -/
namespace Stylesheet
open Computability
variable {α β : Type}

theorem mem_of_le {K L : Language α} (h : K ≤ L) {w : List α} (hw : w ∈ K) : w ∈ L :=
  Set.mem_of_mem_of_subset hw h

/-- A word of `K` or nothing. -/
def opt (K : Language α) : Language α := 1 + K

@[simp] theorem nil_mem_opt (K : Language α) : [] ∈ opt K := .inl rfl

theorem one_le_opt (K : Language α) : 1 ≤ opt K := le_sup_left

theorem le_opt (K : Language α) : K ≤ opt K := le_sup_right

theorem opt_mono {K L : Language α} (h : K ≤ L) : opt K ≤ opt L := add_le_add_right h 1

@[simp] theorem nil_mem_mul {K L : Language α} : [] ∈ K * L ↔ [] ∈ K ∧ [] ∈ L := by
  simp [Language.mem_mul]

@[simp] theorem nil_mem_sup {K L : Language α} : [] ∈ K ⊔ L ↔ [] ∈ K ∨ [] ∈ L := Iff.rfl

/-- The language of an optional production: `K` where it matches, and `Z` where it does not. -/
def either (Z K : Language α) : Option β → Language α
  | none => Z
  | some _ => K

@[simp] theorem either_none (Z K : Language α) : either Z K (none : Option β) = Z := rfl

@[simp] theorem either_some (Z K : Language α) (b : β) : either Z K (some b) = K := rfl

theorem either_le_opt (K : Language α) (o : Option β) : either 1 K o ≤ opt K := by
  cases o with
  | none => exact one_le_opt K
  | some b => exact le_opt K

theorem kstar_induction {K : Language α} {P : List α → Prop} (nil : P [])
    (append : ∀ u v, u ∈ K → v ∈ K∗ → P v → P (u ++ v)) {w : List α} (h : w ∈ K∗) : P w := by
  obtain ⟨us, rfl, hu⟩ := h
  induction us with
  | nil => exact nil
  | cons u us ih =>
    have hs : ∀ v ∈ us, v ∈ K := fun v hv => hu v (List.mem_cons_of_mem u hv)
    exact append u us.flatten (hu u (by simp)) (Language.join_mem_kstar hs) (ih hs)

theorem kstar_mul_eq (K Z : Language α) : K∗ * Z = Z + K * (K∗ * Z) := by
  nth_rewrite 1 [← Language.one_add_self_mul_kstar_eq_kstar]
  rw [add_mul, one_mul, mul_assoc]

/-- The beginnings of the words of `K`. -/
def prefixes (K : Language α) : Language α := {w | ∃ x, w ++ x ∈ K}

/-- The words without `a`. -/
def without (a : α) : Language α := {w | a ∉ w}

theorem mul_le_without {K L : Language α} {a : α} (hK : K ≤ without a) (hL : L ≤ without a) :
    K * L ≤ without a := by
  intro w hw hm
  obtain ⟨u, hu, v, hv, rfl⟩ := Language.mem_mul.mp hw
  exact (List.mem_append.mp hm).elim (mem_of_le hK hu) (mem_of_le hL hv)

theorem kstar_le_without {K : Language α} {a : α} (hK : K ≤ without a) : K∗ ≤ without a := by
  intro w hw
  refine kstar_induction (P := fun w => a ∉ w) (List.not_mem_nil) (fun u v hu _ hv hm => ?_) hw
  exact (List.mem_append.mp hm).elim (mem_of_le hK hu) hv

theorem opt_le_without {K : Language α} {a : α} (hK : K ≤ without a) : opt K ≤ without a := by
  intro w hw
  cases hw with
  | inl hn => exact (show w = [] from hn) ▸ List.not_mem_nil
  | inr hw => exact mem_of_le hK hw

/-- Every word of `X` begins with one of `F`. -/
def Starts (F X : Language α) : Prop := X ≤ F * ⊤

namespace Starts
variable {F G X Z K : Language α}

theorem mono (h : Starts F X) (hF : F ≤ G) : Starts G X := h.trans (mul_le_mul_left hF ⊤)

theorem anti (h : Starts F X) (hZ : Z ≤ X) : Starts F Z := hZ.trans h

theorem add (hX : Starts F X) (hZ : Starts F Z) : Starts F (X + Z) := add_le hX hZ

theorem mul (h : Starts F K) : Starts F (K * Z) := by
  have := mul_le_mul' h (le_top (a := Z))
  rw [mul_assoc] at this
  exact this.trans (mul_le_mul_right le_top F)

theorem refl : Starts F (F * Z) := mul_le_mul_right le_top F

theorem opt_mul (hK : Starts F K) (hZ : Starts F Z) : Starts F (opt K * Z) := by
  rw [opt, add_mul, one_mul]
  exact hZ.add hK.mul

theorem kstar_mul (hK : Starts F K) (hZ : Starts F Z) : Starts F (K∗ * Z) := by
  rw [kstar_mul_eq]
  exact hZ.add hK.mul

end Starts

end Stylesheet
