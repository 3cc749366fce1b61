import Stylesheet.Grammar.Values
import Stylesheet.Proofs.Recursion

/-! The productions of values track the grammar of values. -/
namespace Stylesheet.Grammar
open Computability Syntax Production

theorem isSome_operator (k : Kind) : (Operator.ofKind? k).isSome ↔ k ∈ [Kind.slash, .comma] := by
  cases k <;> simp [Operator.ofKind?]

theorem operator_tracks : Tracks operator (either 1 Syntax.operator) fun _ => 1 :=
  .classified (by decide) isSome_operator (fun _ => ⟨_, rfl⟩) rfl

theorem isSome_sign (k : Kind) : (Sign.ofKind? k).isSome ↔ k ∈ [Kind.minus, .plus] := by
  cases k <;> simp [Sign.ofKind?]

theorem sign_tracks : Tracks sign (either 1 Syntax.sign) fun _ => 1 :=
  .classified (by decide) isSome_sign (fun _ => ⟨_, rfl⟩) rfl

theorem isSome_plainTerm (k : Kind) : (TermKind.ofKind? k).isSome ↔ k ∈ valueKinds := by
  cases k <;> simp [TermKind.ofKind?, valueKinds]

theorem plainTerm_tracks : Tracks plainTerm (either 1 (tok valueKinds)) fun _ => 1 :=
  .classified (by decide) isSome_plainTerm (fun _ => ⟨_, rfl⟩) rfl

theorem isHexColor_iff (s : Text) :
    isHexColor s ↔ (s.length = 3 ∨ s.length = 6) ∧ ∀ c ∈ s, isHexDigit c := by
  simp [isHexColor]

theorem mem_color {s : List Token} {t : Token} (hs : ∀ b ∈ s, b.isSpace) (ht : t.kind = .hash)
    (hc : isHexColor (t.text.drop 1)) : s ++ [t] ∈ color := by
  obtain ⟨hl, hd⟩ := (isHexColor_iff _).mp hc
  exact Language.append_mem_mul (mem_blanks.mpr hs) ⟨t, rfl, ht, hl, hd⟩

theorem viable_color {s : List Token} (hs : ∀ b ∈ s, b.isSpace) : Viable color 1 s [] := by
  refine ⟨⟨[Kind.hash.sample], ?_, mem_color hs rfl (by decide)⟩, ⟨[], Language.nil_mem_one⟩,
    (braces_blanks hs).symm⟩
  intro t ht
  obtain rfl := List.mem_singleton.mp ht
  exact ⟨Kind.hash.sample_regular, by decide⟩

/-- A hash that is no color is itself the token that does not fit, though it has been passed. -/
theorem hexColor_tracks : Tracks hexColor (either 1 color) fun _ => 1 where
  reads x hx := by
    obtain ⟨s, t, r, rfl, hs, ht⟩ := hx.split
    have haccept : ∀ {q} {c : Cursor}, c.Before (s ++ t :: q) → accept [.hash] c =
        if t.kind = .hash then ⟨[], c.advance, .ok (some t)⟩ else ⟨[], c, .ok none⟩ := by
      intro q c hc
      simp [accept, hc.next_eq hs ht]
    by_cases hk : t.kind = .hash
    · simp only [hk, if_true] at haccept
      have he : t.kind ≠ .eof := by simp [hk]
      by_cases hcolor : isHexColor (t.text.drop 1)
      · have hspec : Trace color 1 (s ++ [t]) [] := by
          refine ⟨mem_color hs hk hcolor, rfl, ?_⟩
          rw [List.filterMap_append, braces_blanks hs]
          simp [Token.brace?, hk, Kind.brace?]
        have hrun : hexColor.Succeeds (s ++ [t]) r [] (some (.hexColor, t.text)) := by
          intro r' _ hr c hc
          rw [List.append_assoc, List.singleton_append] at hr hc
          exact ⟨c.advance, bind_ok (haccept hc) (congrFun (if_pos hcolor) c.advance),
            hc.advance hs ht (hr.drop (by simp)) he⟩
        exact .success (by simp) ((hx.drop (by simp)).tail he) hrun hspec
      · have hrun : hexColor.Fails s t [] := fun _ _ c hc =>
          ⟨c.advance, bind_ok (haccept hc) (congrFun (if_neg hcolor) c.advance)⟩
        exact .failure rfl ht hrun ⟨some (.hexColor, []), viable_color hs⟩
    · simp only [hk, if_false] at haccept
      have hrun : hexColor.Succeeds [] (s ++ t :: r) [] none := by
        intro r' hr _ c hc
        obtain ⟨q, rfl⟩ := hr.split hs ht
        exact ⟨c, bind_ok (haccept hc) rfl, hc⟩
      exact .success (w := []) rfl hx hrun (.nil Language.nil_mem_one Language.nil_mem_one)
  completable := ⟨none, (Trace.nil Language.nil_mem_one Language.nil_mem_one).viable⟩

/-! Values inside values. -/

variable {n : Nat} {p q : Production Value}

theorem passed_le {K : Language Token} (hK : [] ∉ K) {α : Type} (o : Option α) {w : List Token}
    (hw : w ∈ either 1 K o) : passed o ≤ w.length := by
  cases o with
  | none => exact Nat.zero_le _
  | some a => exact List.length_pos_iff.mpr fun he => hK (he ▸ hw)

theorem function_agree (h : Agree n (fun _ => 0) p q) :
    Agree (n + 1) passed (function p) (function q) := by
  refine .bind (.of_tracks (.accept [.function] (by decide)) (passed_le (by simp [tok]))) fun o => ?_
  cases o with
  | none => exact .pure rfl
  | some t =>
    refine .bind h fun v => .bind (.of_tracks (.accept [.rparen] (by decide)) fun _ _ _ => Nat.zero_le _) ?_
    exact fun _ => .pure rfl

theorem term_agree (h : Agree n (fun _ => 0) p q) : Agree (n + 1) passed (term p) (term q) := by
  have hcolor : [] ∉ color := by simp [color]
  have hbody : Agree (n + 1) passed (orElse plainTerm (orElse hexColor (function p)))
      (orElse plainTerm (orElse hexColor (function q))) := by
    refine .bind (.of_tracks plainTerm_tracks (passed_le (by simp [tok]))) fun o => ?_
    cases o with
    | some a => exact .pure rfl
    | none =>
      refine .bind (.of_tracks hexColor_tracks (passed_le hcolor)) fun o => ?_
      cases o with
      | some a => exact .pure rfl
      | none => exact function_agree h
  refine .bind (.of_tracks .peek fun _ _ _ => Nat.zero_le _) fun _ =>
    .bind (.of_tracks sign_tracks fun _ _ _ => Nat.zero_le _) fun _ => .bind hbody fun o => ?_
  cases o with
  | none => exact .pure rfl
  | some _ => exact .pure rfl

theorem moreParts_agree (h : Agree n (fun _ => 0) p q) :
    Agree (n + 1) (fun _ => 0) (moreParts p) (moreParts q) := by
  refine .recursive fun m hm r s hr => ?_
  refine .bind (.of_tracks operator_tracks fun _ _ _ => Nat.zero_le _) fun _ =>
    .bind ((term_agree h).mono hm) fun o => ?_
  cases o with
  | none => exact .pure rfl
  | some _ => exact .bind (hr.mono (by omega)) fun _ => .pure (by simp)

theorem parts_agree (h : Agree n (fun _ => 0) p q) :
    Agree (n + 1) (fun _ => 0) (parts p) (parts q) := by
  refine .bind (term_agree h) fun o => ?_
  cases o with
  | none => exact .pure rfl
  | some _ => exact .bind ((moreParts_agree h).mono (by omega)) fun _ => .pure (by simp)

theorem value_agree (n : Nat) : Agree n (fun _ => 0) value (parts value) := by
  induction n with
  | zero => exact fun x hx hl => absurd (List.eq_nil_of_length_eq_zero (by omega)) hx.ne_nil
  | succ n ih =>
    intro x hx hl c hc
    have hlen := hc.length
    have hbelow : Agree c.ahead.length (fun _ => 0) (below c value) value := by
      intro y hy hyl d hd
      have := hd.length
      rw [below_eq (by omega)]
      exact ⟨rfl, (ih y hy (by omega) d hd).2⟩
    have heq : value c = parts (below c value) c := recursive_eq parts c
    rw [heq]
    exact parts_agree hbelow x hx (by omega) c hc

variable {x : List Token} {c : Cursor}

theorem value_eq (hx : Terminated x) (hc : c.Before x) : value c = parts value c :=
  (value_agree x.length x hx le_rfl c hc).1

theorem moreParts_eq (hx : Terminated x) (hc : c.Before x) : moreParts value c =
    (operator >>= fun o => term value >>= fun
      | some t => moreParts value >>= fun ps =>
          pure ((o.map Value.Part.operator).toList ++ .term t :: ps)
      | none => pure (o.map Value.Part.operator).toList) c := by
  have hvalue : Agree x.length (fun _ => 0) value value := fun y hy hl d hd =>
    ⟨rfl, (value_agree x.length y hy hl d hd).2⟩
  have hoperator : Agree x.length (fun _ => 0) operator operator :=
    .of_tracks operator_tracks fun _ _ _ => Nat.zero_le _
  refine (recursive_eq _ c).trans (bind_congr_right fun {es d o} ho => ?_)
  obtain ⟨y, hy, hd, hyl⟩ := (hoperator x hx le_rfl c hc).2 ho
  refine bind_congr_right fun {fs d' a} ha => ?_
  obtain ⟨z, hz, hd', hzl⟩ := (term_agree hvalue y hy (by omega) d hd).2 ha
  cases a with
  | none => rfl
  | some t =>
    have h₁ := hc.length
    have h₂ := hd'.length
    simp only [passed] at hzl
    exact bind_congr_left (below_eq (by omega))

/-- What a call takes. -/
def callWords : Language Token :=
  tok [.function] * opt (chain Syntax.term) * opt Syntax.sign * opt (tok [.rparen])

/-- What is left of a value behind its first term. -/
def moreWords : Language Token :=
  (opt Syntax.operator * Syntax.term)∗ * opt Syntax.operator * opt Syntax.sign

/-- The words of the value `v`: a sign without a term is passed too. -/
def valueWords (v : Value) : Language Token :=
  if v = [] then opt Syntax.sign else chain Syntax.term * opt Syntax.sign

theorem valueWords_le (v : Value) :
    valueWords v ≤ opt (chain Syntax.term) * opt Syntax.sign := by
  by_cases h : v = []
  · simpa [valueWords, h] using mul_le_mul' (one_le_opt _) (le_refl (opt Syntax.sign))
  · simpa [valueWords, h] using mul_le_mul' (le_opt _) (le_refl (opt Syntax.sign))

theorem function_at (h : ∀ y, Terminated y → y.length < x.length →
    TracksAt y value valueWords fun _ => 1) (hx : Terminated x) :
    TracksAt x (function value) (either 1 callWords) fun _ => 1 := by
  have hclosing : ∀ s : Text, Tracks (accept [.rparen] >>= fun _ => pure (some (TermKind.function, s)))
      (either 0 (opt (tok [.rparen]))) fun _ => 1 := by
    intro s
    refine .option (.accept [.rparen] (by decide)) (fun _ => .found) .found ?_ ?_
    all_goals
      intro o
      cases o <;> simp [opt]
  refine .option (P := either 0 (opt (chain Syntax.term) * opt Syntax.sign * opt (tok [.rparen])))
    ((Tracks.accept [.function] (by decide)).reads x hx) (fun {t w r} hw hr ht => ?_)
    (fun _ hr _ => Tracks.missed.reads _ hr) ?_ Tracks.missed.completable ?_ ?_
  · have hlt := length_lt (by simp [tok]) hw ht
    refine .bind (h r hr hlt) (fun _ hr _ => (hclosing _).reads _ hr)
      (fun _ => (hclosing []).completable) (fun v o => ?_) fun _ _ => (one_mul _).le
    cases o with
    | none => simp
    | some a => exact mul_le_mul' (valueWords_le v) le_rfl
  · exact fun _ => ⟨some (.function, []), (Trace.nil (by simp) Language.nil_mem_one).viable⟩
  · intro o
    cases o <;> simp [callWords, mul_assoc]
  · intro o
    cases o <;> simp

/-- What a term may be behind its sign. -/
def bareWords : Language Token := tok valueKinds + (color + callWords)

theorem bare_at (h : ∀ y, Terminated y → y.length < x.length →
    TracksAt y value valueWords fun _ => 1) (hx : Terminated x) :
    TracksAt x (orElse plainTerm (orElse hexColor (function value))) (either 1 bareWords)
      fun _ => 1 := by
  have hcolor := Tracks.orElse_at (hexColor_tracks.reads x hx) (function_at h hx)
  exact Tracks.orElse_at (plainTerm_tracks.reads x hx) hcolor

theorem sign_bare_le : opt Syntax.sign * bareWords ≤ Syntax.term := by
  have := termOver_term_le
  rwa [termOver, add_assoc] at this

theorem term_at (h : ∀ y, Terminated y → y.length < x.length →
    TracksAt y value valueWords fun _ => 1) (hx : Terminated x) :
    TracksAt x (term value) (either (opt Syntax.sign) Syntax.term) fun _ => 1 := by
  have hsign : Tracks sign (fun _ => opt Syntax.sign) fun _ => 1 :=
    sign_tracks.mono (either_le_opt _) fun _ => le_rfl
  have hnone : ∃ o : Option Term, Viable (either 1 bareWords o) 1 [] [] :=
    ⟨none, (Trace.nil Language.nil_mem_one Language.nil_mem_one).viable⟩
  refine TracksAt.bind (P := fun _ => either (opt Syntax.sign) Syntax.term) (Q := fun _ _ => 1)
    (Tracks.peek.reads x hx) (fun {start w r} hw hr ht => ?_)
    (fun _ => ⟨none, (Trace.nil (by simp) Language.nil_mem_one).viable⟩) (fun _ _ => (one_mul _).le)
    fun _ _ => (one_mul _).le
  obtain rfl : w = [] := ht
  subst hw
  refine TracksAt.bind (P := fun _ => either 1 bareWords) (Q := fun _ _ => 1)
    (hsign.reads _ hr) (fun {s w q} hw hq _ => ?_) (fun _ => hnone) (fun _ o => ?_)
    fun _ _ => (one_mul _).le
  · have hle : q.length ≤ x.length := by simp_all
    refine .option (bare_at (fun y hy hl => h y hy (hl.trans_le hle)) hq)
      (fun {a _ _} _ hr _ => (Tracks.found.reads _ hr)) (fun _ hr _ => Tracks.missed.reads _ hr)
      (fun a => (Tracks.found (a := Term.ofSigned s a.2 a.1 start.position)).completable)
      Tracks.missed.completable ?_ ?_
    all_goals
      intro o
      cases o <;> simp
  · cases o with
    | none => simp
    | some t => exact sign_bare_le

theorem moreWords_cons : opt Syntax.operator * (Syntax.term * moreWords) ≤ moreWords := by
  have := mul_le_mul_left (mul_kstar_le_kstar (a := opt Syntax.operator * Syntax.term))
    (opt Syntax.operator * opt Syntax.sign)
  simpa [moreWords, mul_assoc] using this

theorem moreWords_nil : opt Syntax.operator * opt Syntax.sign ≤ moreWords := by
  have := mul_le_mul_left (one_le_kstar (a := opt Syntax.operator * Syntax.term))
    (opt Syntax.operator * opt Syntax.sign)
  simpa [moreWords, mul_assoc] using this

theorem moreParts_at {n : Nat} (h : ∀ y, Terminated y → y.length < n →
    TracksAt y value valueWords fun _ => 1) :
    ∀ x, Terminated x → x.length ≤ n → TracksAt x (moreParts value) (fun _ => moreWords)
      fun _ => 1 := by
  have hnil : [] ∈ moreWords := by simp [moreWords, Language.nil_mem_kstar]
  have hoperator : Tracks operator (fun _ => opt Syntax.operator) fun _ => 1 :=
    operator_tracks.mono (either_le_opt _) fun _ => le_rfl
  intro x
  induction hk : x.length using Nat.strongRecOn generalizing x with
  | ind k ih =>
    subst hk
    intro hx hl
    refine Reads.congr ?_ fun y hy c hc => moreParts_eq hy hc
    refine TracksAt.bind (P := fun _ _ => Syntax.term * moreWords + opt Syntax.sign)
      (Q := fun _ _ => 1) (hoperator.reads x hx) (fun {o w r} hw hr _ => ?_)
      (fun _ => ⟨[], (Trace.nil (by simp) Language.nil_mem_one).viable⟩) (fun _ _ => ?_)
      fun _ _ => (one_mul _).le
    · have hle : r.length ≤ x.length := by simp [hw]
      refine .option (P := fun _ => moreWords * 1) (Q := fun _ => 1)
        (term_at (fun y hy hly => h y hy (hly.trans_le (hle.trans hl))) hr)
        (fun {t v q} hv hq ht => ?_)
        (fun _ hq _ => Tracks.done.reads _ hq)
        (fun _ => ⟨[], (Trace.nil (by simpa using hnil) Language.nil_mem_one).viable⟩)
        ⟨[], (Trace.nil Language.nil_mem_one Language.nil_mem_one).viable⟩ ?_ ?_
      · have hlt := length_lt nil_notMem_term hv ht
        refine .bind (P := fun _ _ => 1) (ih q.length (by omega) q rfl hq (by omega))
          (fun _ hq _ => Tracks.done.reads _ hq)
          (fun _ => ⟨[], (Trace.nil Language.nil_mem_one Language.nil_mem_one).viable⟩)
          (fun _ _ => le_rfl) fun _ _ => (one_mul _).le
      · intro _
        simp
      · intro _
        simp
    · rw [mul_add]
      exact add_le moreWords_cons moreWords_nil

theorem parts_at (h : ∀ y, Terminated y → y.length < x.length →
    TracksAt y value valueWords fun _ => 1) (hx : Terminated x) :
    TracksAt x (parts value) valueWords fun _ => 1 := by
  have hnil : [] ∈ moreWords := by simp [moreWords, Language.nil_mem_kstar]
  refine .option (P := fun v => if v = [] then 0 else moreWords)
    (Q := fun v => if v = [] then 1 else 0) (term_at h hx) (fun {t w r} hw hr ht => ?_)
    (fun _ hr _ => Tracks.reads (.quiet (by simp)) _ hr)
    (fun t => ⟨[.term t], (Trace.nil (by simpa using hnil) Language.nil_mem_one).viable⟩)
    ⟨[], (Trace.nil (by simp) Language.nil_mem_one).viable⟩ ?_ ?_
  · have hlt := length_lt nil_notMem_term hw ht
    refine .bind (P := fun ps v => if v = .term t :: ps then 1 else 0) (moreParts_at h r hr hlt.le)
      (fun _ hq _ => Tracks.reads (.quiet (by simp)) _ hq)
      (fun ps => ⟨.term t :: ps, (Trace.nil (by simp) Language.nil_mem_one).viable⟩)
      (fun ps v => ?_) fun _ _ => (one_mul _).le
    by_cases hv : v = .term t :: ps
    · simp [hv]
    · simp [hv]
  · intro v
    by_cases hv : v = []
    · simp [hv]
    · simp [hv, valueWords, moreWords, chain, mul_assoc]
  · intro v
    by_cases hv : v = []
    · simp [hv, valueWords]
    · simp [hv]

theorem value_tracks : Tracks value valueWords fun _ => 1 where
  reads := by
    intro x
    induction hk : x.length using Nat.strongRecOn generalizing x with
    | ind k ih =>
      subst hk
      intro hx
      refine Reads.congr ?_ fun y hy c hc => value_eq hy hc
      exact parts_at (fun y hy hl => ih y.length hl y rfl hy) hx
  completable := ⟨[], (Trace.nil (by simp [valueWords]) Language.nil_mem_one).viable⟩

end Stylesheet.Grammar
