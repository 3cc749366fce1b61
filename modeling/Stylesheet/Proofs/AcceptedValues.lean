import Stylesheet.Proofs.Leaves
import Stylesheet.Proofs.Nesting
import Stylesheet.Proofs.Values

/-! Every value of the grammar is accepted: from the left, each token goes to the innermost call
that can take it. -/
namespace Stylesheet.Grammar
open Computability Syntax Production

/-- The kinds behind a value. -/
def stopKinds : List Kind := [.importantSym, .semicolon, .rbrace]

/-- The kinds behind the arguments of a call. -/
def leftKinds : List Kind := [.rparen, .minus, .plus, .slash, .comma] ++ stopKinds

/-- The kinds a term starts with, its sign left out. -/
def bareKinds : List Kind := .hash :: .function :: valueKinds

variable {X Z : Language Token} {ls : List Kind}

theorem operator_takes : Leaves (Syntax.operator * Z) operator (either 0 Z) :=
  .classified (by decide) isSome_operator fun _ => ⟨_, rfl⟩

theorem operator_declines (hX : Begins ls X) (hl : Apart ls [.slash, .comma]) :
    Leaves X operator (either X 0) :=
  .unclassified hX hl (by decide) isSome_operator rfl

theorem sign_takes : Leaves (Syntax.sign * Z) sign (either 0 Z) :=
  .classified (by decide) isSome_sign fun _ => ⟨_, rfl⟩

theorem sign_declines (hX : Begins ls X) (hl : Apart ls [.minus, .plus]) :
    Leaves X sign (either X 0) :=
  .unclassified hX hl (by decide) isSome_sign rfl

theorem plainTerm_takes : Leaves (tok valueKinds * Z) plainTerm (either 0 Z) :=
  .classified (by decide) isSome_plainTerm fun _ => ⟨_, rfl⟩

theorem plainTerm_declines (hX : Begins ls X) (hl : Apart ls valueKinds) :
    Leaves X plainTerm (either X 0) :=
  .unclassified hX hl (by decide) isSome_plainTerm rfl

theorem hexColor_takes : Leaves (color * Z) hexColor (either 0 Z) := by
  intro x hx hm
  obtain ⟨u, hu, z, hz, rfl⟩ := Language.mem_mul.mp hm
  obtain ⟨s, hs, v, ⟨t, rfl, hk, hl, hd⟩, rfl⟩ := Language.mem_mul.mp hu
  have ht : t.isSpace = false := by simp [Token.isSpace, hk]
  have hcolor : isHexColor (t.text.drop 1) := (isHexColor_iff _).mpr ⟨hl, hd⟩
  have heq : s ++ [t] ++ z = s ++ t :: z := by simp
  refine Reads.bind (T := fun o _ r _ => o = some t ∧ r ∈ Z) (F := fun _ _ => False)
    (.accept hx (by decide) ?_ ?_) ?_ id
  · intro s' t' r' hr hs' ht' _
    obtain ⟨rfl, rfl⟩ := split_unique (heq ▸ hr) (mem_blanks.mp hs) ht hs' ht'
    exact ⟨rfl, hz⟩
  · intro s' t' r' hr hs' ht' hk'
    obtain ⟨rfl, -⟩ := split_unique (heq ▸ hr) (mem_blanks.mp hs) ht hs' ht'
    exact absurd (by simp [hk]) hk'
  · rintro o w r es - hr ⟨rfl, hr'⟩
    simp only [hcolor, if_true]
    exact .pure hr hr'

/-! What the productions of values find before them, with `k` calls open down to `Y`. -/

variable {Y : Language Token} {k : Nat}

theorem color_begins : Begins [.hash] color := by
  have hhere : hereColor ≤ here [.hash] := by
    intro w ⟨t, hw, ht, _⟩
    exact ⟨t, by simp [ht], hw⟩
  exact ((Starts.refl (Z := 1)).anti (mul_one _).ge).anti (mul_le_mul_right hhere blanks)

theorem beforeTerm_begins : Begins bareKinds (beforeTerm Y k) := by
  have hplain : Begins bareKinds (tok valueKinds) :=
    ((Starts.refl (Z := 1)).anti (mul_one _).ge).mono (tok_mono (by decide))
  have hcolor : Begins bareKinds color := color_begins.mono (tok_mono (by decide))
  exact (hplain.add hcolor).mul.add (Starts.refl.mono (tok_mono (by decide)))

theorem left_begins (hY : Begins stopKinds Y) (k : Nat) : Begins leftKinds (left Y k) := by
  have hstop : Begins leftKinds Y := hY.mono (tok_mono (by decide))
  cases k with
  | zero => exact hstop
  | succ k =>
    exact ((hstop.add (Starts.refl.mono (tok_mono (by decide)))).add
      (Starts.refl.mono (tok_mono (by decide)))).add (Starts.refl.mono (tok_mono (by decide)))

/-- An operator that its call cannot take is left to the call around it. -/
theorem operator_leaves (hY : Begins stopKinds Y) (k : Nat) :
    Leaves (afterTerm Y k) operator fun _ => afterOperator Y k := by
  have htaken : ∀ j, afterOperator Y j ≤ afterOperator Y k →
      Leaves (Syntax.operator * afterOperator Y j) operator fun _ => afterOperator Y k := by
    intro j hj
    refine operator_takes.mono le_rfl fun o => ?_
    cases o with
    | none => exact bot_le
    | some o => exact hj
  have hother : ∀ X, Begins (.rparen :: .minus :: .plus :: stopKinds ++ bareKinds) X →
      X ≤ afterOperator Y k → Leaves X operator fun _ => afterOperator Y k := by
    intro X hX hle
    refine (operator_declines hX (by decide)).mono le_rfl fun o => ?_
    cases o with
    | none => exact hle
    | some o => exact bot_le
  have hbefore := hother _ (beforeTerm_begins.mono (tok_mono (by decide)))
    (beforeTerm_le.trans afterSign_le_afterOperator)
  have hstop := hother Y (hY.mono (tok_mono (by decide))) (stop_le.trans afterSign_le_afterOperator)
  have hsign := hother (Syntax.sign * afterSign Y k) (Starts.refl.mono (tok_mono (by decide)))
    (mul_le_mul_left (le_opt Syntax.sign) _)
  have hleft : Leaves (left Y k) operator fun _ => afterOperator Y k := by
    cases k with
    | zero => exact hstop
    | succ k =>
      have hclose := hother (tok [.rparen] * afterTerm Y k) (Starts.refl.mono (tok_mono (by decide)))
        (close_le.trans afterSign_le_afterOperator)
      have hout := hother (Syntax.sign * afterSign Y k) (Starts.refl.mono (tok_mono (by decide)))
        (sign_le.trans afterSign_le_afterOperator)
      exact ((hstop.add hclose).add hout).add (htaken k afterOperator_mono)
  have hafter : Leaves (afterSign Y k) operator fun _ => afterOperator Y k :=
    (hbefore.add hleft).mono afterSign_le fun _ => le_rfl
  have hoperand : Leaves (afterOperator Y k) operator fun _ => afterOperator Y k := by
    rw [afterOperator, opt, add_mul, one_mul] at hafter hsign ⊢
    exact hafter.add hsign
  rw [afterTerm, opt, add_mul, one_mul]
  exact hoperand.add (htaken k le_rfl)

/-- A sign that its call cannot take is left to the call around it. -/
theorem sign_leaves (hY : Begins stopKinds Y) (k : Nat) :
    Leaves (afterOperator Y k) sign fun _ => afterSign Y k := by
  have htaken : ∀ j, afterSign Y j ≤ afterSign Y k →
      Leaves (Syntax.sign * afterSign Y j) sign fun _ => afterSign Y k := by
    intro j hj
    refine sign_takes.mono le_rfl fun o => ?_
    cases o with
    | none => exact bot_le
    | some s => exact hj
  have hother : ∀ X, Begins (.rparen :: .slash :: .comma :: stopKinds ++ bareKinds) X →
      X ≤ afterSign Y k → Leaves X sign fun _ => afterSign Y k := by
    intro X hX hle
    refine (sign_declines hX (by decide)).mono le_rfl fun o => ?_
    cases o with
    | none => exact hle
    | some s => exact bot_le
  have hbefore := hother _ (beforeTerm_begins.mono (tok_mono (by decide))) beforeTerm_le
  have hstop := hother Y (hY.mono (tok_mono (by decide))) stop_le
  have hleft : Leaves (left Y k) sign fun _ => afterSign Y k := by
    cases k with
    | zero => exact hstop
    | succ k =>
      have hclose := hother (tok [.rparen] * afterTerm Y k) (Starts.refl.mono (tok_mono (by decide)))
        close_le
      have hout := hother (Syntax.operator * afterOperator Y k)
        (Starts.refl.mono (tok_mono (by decide))) operator_le
      exact ((hstop.add hclose).add (htaken k afterSign_mono)).add hout
  have hafter : Leaves (afterSign Y k) sign fun _ => afterSign Y k :=
    (hbefore.add hleft).mono afterSign_le fun _ => le_rfl
  rw [afterOperator, opt, add_mul, one_mul]
  exact hafter.add (htaken k le_rfl)

/-- Values shorter than `n` tokens that stand in a call leave what the call leaves. -/
def LeavesBelow (Y : Language Token) (n : Nat) : Prop :=
  ∀ k x, Terminated x → x.length < n → x ∈ afterOperator Y k → LeavesAt x value fun _ => left Y k

variable {x : List Token}

theorem function_takes (hY : Begins stopKinds Y) (h : LeavesBelow Y x.length) (hx : Terminated x)
    (hm : x ∈ tok [.function] * afterOperator Y (k + 1)) :
    LeavesAt x (function value) (either 0 (afterTerm Y k)) := by
  have hclosing : ∀ s : Text, Leaves (left Y (k + 1)) (accept [.rparen] >>= fun _ =>
      pure (some (TermKind.function, s))) (either 0 (afterTerm Y k)) := by
    intro s
    have hother : ∀ X, Begins (.minus :: .plus :: .slash :: .comma :: stopKinds) X →
        X ≤ afterTerm Y k → Leaves X (accept [.rparen] >>= fun _ =>
          pure (some (TermKind.function, s))) (either 0 (afterTerm Y k)) :=
      fun X hX hle => .declined hX (by decide) (by decide) (.pure hle)
    have hstop := hother Y (hY.mono (tok_mono (by decide)))
      ((stop_le.trans afterSign_le_afterOperator).trans afterOperator_le_afterTerm)
    have hclose : Leaves (tok [.rparen] * afterTerm Y k) (accept [.rparen] >>= fun _ =>
        pure (some (TermKind.function, s))) (either 0 (afterTerm Y k)) :=
      .opened (by decide) fun _ => .pure le_rfl
    have hsign := hother (Syntax.sign * afterSign Y k) (Starts.refl.mono (tok_mono (by decide)))
      ((mul_le_mul_left (le_opt Syntax.sign) _).trans afterOperator_le_afterTerm)
    have hoperator := hother (Syntax.operator * afterOperator Y k)
      (Starts.refl.mono (tok_mono (by decide))) (mul_le_mul_left (le_opt Syntax.operator) _)
    exact ((hstop.add hclose).add hsign).add hoperator
  refine (Leaves.accept (by decide) _ x hx hm).bindTracks
    ((Tracks.accept [.function] (by decide)).reads x hx) hx fun {o w r} hw hr hz ht => ?_
  cases o with
  | none => exact hz.elim
  | some t =>
    have hlt := length_lt (by simp [tok]) hw ht
    exact (h (k + 1) r hr hlt hz).bind fun _ hq hl => hclosing _ _ hq hl

theorem bare_takes (hY : Begins stopKinds Y) (h : LeavesBelow Y x.length) (hx : Terminated x)
    (hm : x ∈ beforeTerm Y k) :
    LeavesAt x (orElse plainTerm (orElse hexColor (function value))) (either 0 (afterTerm Y k)) := by
  have hplain : Leaves (tok valueKinds * afterTerm Y k)
      (orElse plainTerm (orElse hexColor (function value))) (either 0 (afterTerm Y k)) :=
    .orElse_left plainTerm_takes
  have hcolor : Leaves (color * afterTerm Y k)
      (orElse plainTerm (orElse hexColor (function value))) (either 0 (afterTerm Y k)) :=
    .orElse_right (plainTerm_declines color_begins.mul (by decide)) (.orElse_left hexColor_takes)
  rw [beforeTerm, Syntax.word, add_mul] at hm
  cases hm with
  | inl hm => exact (hplain.add hcolor) x hx hm
  | inr hm =>
    have hbegins : Begins [.function] {x} := Starts.refl.anti (Set.singleton_subset_iff.mpr hm)
    have hfunction : Leaves {x} (function value) (either 0 (afterTerm Y k)) := by
      intro y hy hyx
      obtain rfl : y = x := hyx
      exact function_takes hY h hy hm
    have hother : Leaves {x} (orElse hexColor (function value)) (either 0 (afterTerm Y k)) :=
      .orElse_right (.missed hbegins (by decide) (by decide) rfl) hfunction
    exact (Leaves.orElse_right (plainTerm_declines hbegins (by decide)) hother) x hx rfl

theorem bare_declines (hY : Begins stopKinds Y) (k : Nat) :
    Leaves (left Y k) (orElse plainTerm (orElse hexColor (function value)))
      (either (left Y k) 0) := by
  have hbegins := left_begins hY k
  exact .orElse_right (plainTerm_declines hbegins (by decide))
    (.orElse_right (.missed hbegins (by decide) (by decide) rfl)
      (.missed hbegins (by decide) (by decide) rfl))

/-- A term, by what is found behind its sign. -/
theorem term_leavesAt {X' A B : Language Token} (hsign : Leaves X sign fun _ => X')
    (hbare : ∀ r, Terminated r → r.length ≤ x.length → r ∈ X' →
      LeavesAt r (orElse plainTerm (orElse hexColor (function value))) (either A B))
    (hx : Terminated x) (hm : x ∈ X) : LeavesAt x (term value) (either A B) := by
  refine (Leaves.peek x hx hm).bind fun {start w r} hw hr hm => ?_
  refine (hsign r hr hm).bind fun {s v q} hv hq hm => ?_
  have hle : q.length ≤ x.length := by
    rw [hw, hv, List.length_append, List.length_append]
    omega
  refine (hbare q hq hle hm).bind fun {o _ _} _ hz hm => ?_
  cases o with
  | none => exact Reads.pure hz hm
  | some a => exact Reads.pure hz hm

theorem term_leaves (hY : Begins stopKinds Y) (h : LeavesBelow Y x.length) (hx : Terminated x)
    (hm : x ∈ afterOperator Y k) :
    LeavesAt x (term value) (either (left Y k) (afterTerm Y k)) := by
  refine term_leavesAt (sign_leaves hY k) (fun r hr hl hm => ?_) hx hm
  have hbelow : LeavesBelow Y r.length := fun j y hy hly => h j y hy (hly.trans_le hl)
  cases mem_of_le afterSign_le hm with
  | inl hm =>
    refine (bare_takes hY hbelow hr hm).mono fun o => ?_
    cases o with
    | none => exact bot_le
    | some a => exact le_rfl
  | inr hm =>
    refine (bare_declines hY k r hr hm).mono fun o => ?_
    cases o with
    | none => exact le_rfl
    | some a => exact bot_le

theorem moreParts_leaves (hY : Begins stopKinds Y) {n : Nat} (h : LeavesBelow Y n) :
    ∀ x, Terminated x → x.length ≤ n → x ∈ afterTerm Y k →
      LeavesAt x (moreParts value) fun _ => left Y k := by
  intro x
  induction hl : x.length using Nat.strongRecOn generalizing x with
  | ind m ih =>
    subst hl
    intro hx hl hm
    refine Reads.congr ?_ fun y hy c hc => moreParts_eq hy hc
    refine (operator_leaves hY k x hx hm).bind fun {o w r} hw hr hm => ?_
    have hle : r.length ≤ x.length := by simp [hw]
    have hbelow : LeavesBelow Y r.length := fun j y hy hly =>
      h j y hy (hly.trans_le (hle.trans hl))
    refine (term_leaves hY hbelow hr hm).bindTracks
      (term_at (fun y hy _ => value_tracks.reads y hy) hr) hr fun {t v q} hv hq hm ht => ?_
    cases t with
    | none => exact Reads.pure hq hm
    | some t =>
      have hlt := length_lt nil_notMem_term hv ht
      exact (ih q.length (by omega) q rfl hq (by omega) hm).bind fun _ hz hm => Reads.pure hz hm

/-- The arguments of a call, as they are read from the left. -/
theorem value_leavesBelow (hY : Begins stopKinds Y) (n : Nat) : LeavesBelow Y n := by
  induction n with
  | zero => exact fun k x _ hl => absurd hl (Nat.not_lt_zero _)
  | succ n ih =>
    intro k x hx hl hm
    have hbelow : LeavesBelow Y x.length := fun j y hy hly => ih j y hy (by omega)
    refine Reads.congr ?_ fun y hy c hc => value_eq hy hc
    refine (term_leaves hY hbelow hx hm).bind fun {t w r} hw hr hm => ?_
    cases t with
    | none => exact Reads.pure hr hm
    | some t =>
      have hle : r.length ≤ x.length := by simp [hw]
      exact (moreParts_leaves hY hbelow r hr hle hm).bind fun _ hq hm => Reads.pure hq hm

theorem value_leaves (hY : Begins stopKinds Y) :
    Leaves (chain Syntax.term * opt Syntax.sign * Y) value fun v => if v = [] then 0 else Y := by
  intro x hx hm
  have hbelow : ∀ n, LeavesBelow Y n := value_leavesBelow hY
  have hnone : Leaves (beforeTerm Y 0) sign fun _ => beforeTerm Y 0 := by
    refine (sign_declines beforeTerm_begins (by decide)).mono le_rfl fun o => ?_
    cases o with
    | none => exact le_rfl
    | some s => exact bot_le
  have hsome : Leaves (Syntax.sign * beforeTerm Y 0) sign fun _ => beforeTerm Y 0 := by
    refine sign_takes.mono le_rfl fun o => ?_
    cases o with
    | none => exact bot_le
    | some s => exact le_rfl
  have hsign : Leaves (opt Syntax.sign * beforeTerm Y 0) sign fun _ => beforeTerm Y 0 := by
    rw [opt, add_mul, one_mul]
    exact hnone.add hsome
  refine Reads.congr ?_ fun y hy c hc => value_eq hy hc
  refine (term_leavesAt hsign (fun r hr _ hm => bare_takes hY (hbelow _) hr hm) hx
    (mem_of_le value_mul_le hm)).bind fun {t w r} hw hr hm => ?_
  cases t with
  | none => exact hm.elim
  | some t =>
    refine (moreParts_leaves hY (hbelow _) r hr le_rfl hm).bind fun _ hq hm => Reads.pure hq ?_
    simpa [left] using hm

end Stylesheet.Grammar
