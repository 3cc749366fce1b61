import Stylesheet.Proofs.Tracks

/-! Productions that succeed: what they find before them decides what they leave. Where a choice is
open, the kind of the next token that is no blank settles it. -/
namespace Stylesheet
open Computability Syntax

/-- Before the tokens `x`, `p` succeeds, and where it returns `a` it leaves a word of `Y a`. -/
def LeavesAt {α : Type} (x : List Token) (p : Production α) (Y : α → Language Token) : Prop :=
  p.Reads (fun a _ r _ => r ∈ Y a) (fun _ _ => False) x

/-- So it does before every word of `X`. -/
def Leaves {α : Type} (X : Language Token) (p : Production α) (Y : α → Language Token) : Prop :=
  ∀ x, Terminated x → x ∈ X → LeavesAt x p Y

/-- Every word of `X` goes on with a token of the kinds `ks`. -/
abbrev Begins (ks : List Kind) (X : Language Token) : Prop := Starts (tok ks) X

/-- The kinds `ls` tell what goes on from what is looked for with `ks`. -/
def Apart (ls ks : List Kind) : Prop := .space ∉ ls ∧ ∀ k ∈ ls, k ∉ ks

instance (ls ks : List Kind) : Decidable (Apart ls ks) := inferInstanceAs (Decidable (_ ∧ _))

theorem Apart.isSpace {ls ks : List Kind} (h : Apart ls ks) {t : Token} (ht : t.kind ∈ ls) :
    t.isSpace = false := by
  have : t.kind ≠ .space := fun he => h.1 (he ▸ ht)
  simpa [Token.isSpace] using this

theorem split_tok {ks : List Kind} {Z : Language Token} {x : List Token} (hx : x ∈ tok ks * Z) :
    ∃ s t z, x = s ++ t :: z ∧ (∀ b ∈ s, b.isSpace) ∧ t.kind ∈ ks ∧ z ∈ Z := by
  obtain ⟨u, hu, z, hz, rfl⟩ := Language.mem_mul.mp hx
  obtain ⟨s, hs, v, ⟨t, ht, rfl⟩, rfl⟩ := Language.mem_mul.mp hu
  exact ⟨s, t, z, by simp, mem_blanks.mp hs, ht, hz⟩

theorem here_mono {ks ls : List Kind} (h : ks ⊆ ls) : here ks ≤ here ls :=
  fun _ ⟨t, ht, hw⟩ => ⟨t, h ht, hw⟩

theorem tok_mono {ks ls : List Kind} (h : ks ⊆ ls) : tok ks ≤ tok ls :=
  mul_le_mul_right (here_mono h) blanks

/-- Blanks before it do not change what a word goes on with. -/
theorem Starts.blanks_mul {ks : List Kind} {K : Language Token} (h : Starts (here ks) K) :
    Begins ks (blanks * K) := by
  have := mul_le_mul_right h blanks
  rwa [← mul_assoc] at this

theorem Begins.split {ks : List Kind} {X : Language Token} (h : Begins ks X) {x : List Token}
    (hx : x ∈ X) : ∃ s t r, x = s ++ t :: r ∧ (∀ b ∈ s, b.isSpace) ∧ t.kind ∈ ks := by
  obtain ⟨s, t, r, hr, hs, ht, -⟩ := split_tok (mem_of_le h hx)
  exact ⟨s, t, r, hr, hs, ht⟩

/-- The words of `Z` go on with the kinds `ks`, with any number of blanks in front. -/
structure Padded (ks : List Kind) (Z : Language Token) : Prop where
  begins : Begins ks Z
  pad : blanks * Z ≤ Z
  trim : ∀ {b : Token} {r : List Token}, b :: r ∈ Z → b.isSpace → r ∈ Z

theorem Padded.tok {ls ks : List Kind} (h : Apart ls []) (hk : ls ⊆ ks) (Z : Language Token) :
    Padded ks (tok ls * Z) := by
  refine ⟨Starts.refl.mono (tok_mono hk), by simp, fun {b r} hm hb => ?_⟩
  obtain ⟨s, t, z, hx, hs, ht, hz⟩ := split_tok hm
  cases s with
  | nil =>
    obtain ⟨rfl, -⟩ := List.cons.inj hx
    simp [h.isSpace ht] at hb
  | cons b' s =>
    obtain ⟨-, rfl⟩ := List.cons.inj hx
    have : s ++ [t] ∈ Syntax.tok ls := mem_tok (fun c hc => hs c (List.mem_cons_of_mem b' hc)) ht
    simpa using Language.append_mem_mul this hz

theorem Padded.add {ks : List Kind} {X Z : Language Token} (hX : Padded ks X) (hZ : Padded ks Z) :
    Padded ks (X + Z) := by
  refine ⟨Starts.add hX.begins hZ.begins, ?_, fun hm hb => ?_⟩
  · rw [mul_add]
    exact add_le_add hX.pad hZ.pad
  · cases hm with
    | inl hm => exact .inl (hX.trim hm hb)
    | inr hm => exact .inr (hZ.trim hm hb)

/-- Repetitions that start with a token of the kinds `ls` each. -/
theorem Padded.kstar_mul {ls ks : List Kind} {K Z : Language Token} (h : Apart ls [])
    (hk : ls ⊆ ks) (hZ : Padded ks Z) : Padded ks ((Syntax.tok ls * K)∗ * Z) := by
  rw [kstar_mul_eq, mul_assoc]
  exact hZ.add (.tok h hk _)

theorem Apart.anti {ls ls' ks ks' : List Kind} (h : Apart ls ks) (hl : ls' ⊆ ls) (hk : ks' ⊆ ks) :
    Apart ls' ks' :=
  ⟨fun he => h.1 (hl he), fun k hm hn => h.2 k (hl hm) (hk hn)⟩

section
variable {α β : Type} {Y : α → Language Token} {V : β → Language Token} {x : List Token}
open Production

theorem LeavesAt.bind {p : Production α} {f : α → Production β} (hp : LeavesAt x p Y)
    (hf : ∀ {a w r}, x = w ++ r → Terminated r → r ∈ Y a → LeavesAt r (f a) V) :
    LeavesAt x (p >>= f) V :=
  Reads.bind hp (fun hx hr hy => Reads.mono (hf hx hr hy) (fun _ hv => hv) fun _ h => h) id

/-- The same with the word that `p` takes. -/
theorem LeavesAt.bindTracks {p : Production α} {f : α → Production β} {K : α → Language Token}
    {M : α → Language Event} (hp : LeavesAt x p Y) (ht : TracksAt x p K M) (hx : Terminated x)
    (hf : ∀ {a w r}, x = w ++ r → Terminated r → r ∈ Y a → w ∈ K a → LeavesAt r (f a) V) :
    LeavesAt x (p >>= f) V :=
  Reads.bind (hp.and ht hx) (fun hw hr h => Reads.mono (hf hw hr h.1 h.2.tokens)
    (fun _ hv => hv) fun _ h => h) id

theorem LeavesAt.mono {p : Production α} {Y' : α → Language Token} (h : LeavesAt x p Y)
    (hY : ∀ a, Y a ≤ Y' a) : LeavesAt x p Y' :=
  Reads.mono h (fun _ hy => mem_of_le (hY _) hy) fun _ h => h

end

/-- Where `p` matches it takes a token. -/
def Advances {α : Type} (p : Production (Option α)) : Prop :=
  ∀ x, Terminated x → p.Reads (fun o w _ _ => o.isSome → w ≠ []) (fun _ _ => True) x

theorem Tracks.advances {α : Type} {p : Production (Option α)} {K Z : Language Token}
    {M : Option α → Language Event} (h : Tracks p (either Z K) M) (hK : [] ∉ K) : Advances p := by
  intro x hx
  refine Production.Reads.mono (h.reads x hx) (fun {o w r es} _ ht hs hw => ?_) fun _ _ => trivial
  cases o with
  | none => simp at hs
  | some a => exact hK (hw ▸ ht.tokens)

namespace Leaves
variable {α β : Type} {X : Language Token} {Y : α → Language Token} {V : β → Language Token}
open Production

theorem mono {p : Production α} {X' : Language Token} {Y' : α → Language Token}
    (h : Leaves X p Y) (hX : X' ≤ X) (hY : ∀ a, Y a ≤ Y' a) : Leaves X' p Y' :=
  fun x hx hm => (h x hx (mem_of_le hX hm)).mono hY

theorem pure {a : α} (h : X ≤ Y a) : Leaves X (Pure.pure a : Production α) Y :=
  fun _ hx hm => Reads.pure hx (mem_of_le h hm)

theorem fire (e : Event) : Leaves X (Production.fire e) fun _ => X := fun _ hx hm => Reads.fire hx hm

theorem peek : Leaves X Production.next fun _ => X := fun _ hx hm => Reads.next hx fun _ _ _ => hm

theorem bind {p : Production α} {f : α → Production β} (hp : Leaves X p Y)
    (hf : ∀ a, Leaves (Y a) (f a) V) : Leaves X (p >>= f) V :=
  fun x hx hm => (hp x hx hm).bind fun _ hr hy => hf _ _ hr hy

theorem add {p : Production α} {X' : Language Token} (h : Leaves X p Y) (h' : Leaves X' p Y) :
    Leaves (X + X') p Y :=
  fun x hx hm => hm.elim (h x hx) (h' x hx)

theorem zero (p : Production α) : Leaves 0 p Y := fun _ _ hm => hm.elim

/-- A look at the next token, which is of one of the kinds that `X` goes on with. -/
theorem peeked {ls : List Kind} (hX : Begins ls X) (hl : Apart ls []) {f : Token → Production β}
    (hf : ∀ t, t.kind ∈ ls → Leaves X (f t) V) : Leaves X (Production.next >>= f) V := by
  intro x hx hm
  obtain ⟨s, t, r, hr, hs, hk⟩ := hX.split hm
  refine Reads.bind (T := fun u w q _ => u.kind ∈ ls ∧ q = x) (F := fun _ _ => False)
    (.next hx fun {s' t' r'} hr' hs' ht' => ?_) (fun {u w q es} _ hq h => ?_) id
  · obtain ⟨rfl, -⟩ := split_unique (hr ▸ hr') hs (hl.isSpace hk) hs' ht'
    exact ⟨hk, rfl⟩
  · exact Reads.mono (hf u h.1 q hq (h.2 ▸ hm)) (fun _ h => h) fun _ h => h

/-- The next token is one of those looked for. -/
theorem accept {ks : List Kind} (h : Apart ks [.eof]) (Z : Language Token) :
    Leaves (tok ks * Z) (Production.accept ks) (either 0 Z) := by
  intro x hx hm
  obtain ⟨s, t, z, rfl, hs, hk, hz⟩ := split_tok hm
  have ht := h.isSpace hk
  refine Reads.accept hx (fun he => h.2 _ he (by simp)) ?_ ?_
  · intro s' t' r' hr hs' ht' _
    exact (split_unique hr hs ht hs' ht').2 ▸ hz
  · intro s' t' r' hr hs' ht' hk'
    exact absurd ((split_unique hr hs ht hs' ht').1 ▸ hk) hk'

/-- The next token is none of those looked for. -/
theorem decline {ls ks : List Kind} (hX : Begins ls X) (hl : Apart ls ks) (he : .eof ∉ ks) :
    Leaves X (Production.accept ks) (either X 0) := by
  intro x hx hm
  obtain ⟨s, t, r, hr, hs, hk⟩ := hX.split hm
  have ht := hl.isSpace hk
  refine Reads.accept hx he ?_ ?_
  · intro s' t' r' hr' hs' ht' hk'
    exact absurd hk' ((split_unique (hr ▸ hr') hs ht hs' ht').1 ▸ hl.2 _ hk)
  · intro s' t' r' _ _ _ _
    exact hm

theorem classify {f : Kind → Option α} {ks : List Kind} (h : Apart ks [.eof])
    (hf : ∀ k, (f k).isSome ↔ k ∈ ks) (Z : Language Token) :
    Leaves (tok ks * Z) (Production.classify f) (either 0 Z) := by
  intro x hx hm
  obtain ⟨s, t, z, rfl, hs, hk, hz⟩ := split_tok hm
  have ht := h.isSpace hk
  refine Reads.classify hx ?_ ?_ ?_
  · rw [← Option.not_isSome_iff_eq_none, hf]
    exact fun he => h.2 _ he (by simp)
  · intro s' t' a r' hr hs' ht' _
    exact (split_unique hr hs ht hs' ht').2 ▸ hz
  · intro s' t' r' hr hs' ht' hn
    have hsome := (hf t'.kind).mpr ((split_unique hr hs ht hs' ht').1 ▸ hk)
    simp [hn] at hsome

theorem declineClass {f : Kind → Option α} {ls ks : List Kind} (hX : Begins ls X)
    (hl : Apart ls ks) (he : .eof ∉ ks) (hf : ∀ k, (f k).isSome ↔ k ∈ ks) :
    Leaves X (Production.classify f) (either X 0) := by
  intro x hx hm
  obtain ⟨s, t, r, hr, hs, hk⟩ := hX.split hm
  have ht := hl.isSpace hk
  refine Reads.classify hx ?_ ?_ ?_
  · rw [← Option.not_isSome_iff_eq_none, hf]
    exact he
  · intro s' t' a r' hr' hs' ht' hsome
    have hk' : t'.kind ∈ ks := (hf _).mp (by simp [hsome])
    exact absurd hk' ((split_unique (hr ▸ hr') hs ht hs' ht').1 ▸ hl.2 _ hk)
  · intro s' t' r' _ _ _ _
    exact hm

theorem expect {ks : List Kind} (h : Apart ks [.eof]) (Z : Language Token) :
    Leaves (tok ks * Z) (Production.expect ks) fun _ => Z := by
  refine (accept h Z).bind fun o => ?_
  cases o with
  | none => exact zero _
  | some t => exact pure le_rfl

theorem opened {ks : List Kind} (h : Apart ks [.eof]) {Z : Language Token}
    {f : Option Token → Production β} (hf : ∀ t, Leaves Z (f (some t)) V) :
    Leaves (tok ks * Z) (Production.accept ks >>= f) V := by
  refine (accept h Z).bind fun o => ?_
  cases o with
  | none => exact zero _
  | some t => exact hf t

theorem declined {ls ks : List Kind} (hX : Begins ls X) (hl : Apart ls ks) (he : .eof ∉ ks)
    {f : Option Token → Production β} (hf : Leaves X (f none) V) :
    Leaves X (Production.accept ks >>= f) V := by
  refine (decline hX hl he).bind fun o => ?_
  cases o with
  | none => exact hf
  | some t => exact zero _

theorem missed {ls ks : List Kind} (hX : Begins ls X) (hl : Apart ls ks) (he : .eof ∉ ks)
    {f : Option Token → Production (Option β)} (hf : f none = Pure.pure none) :
    Leaves X (Production.accept ks >>= f) (either X 0) :=
  declined hX hl he (hf ▸ pure le_rfl)

theorem classified {f : Kind → Option α} {ks : List Kind}
    {g : Option (α × Token) → Production (Option β)} {Z : Language Token} (h : Apart ks [.eof])
    (hf : ∀ k, (f k).isSome ↔ k ∈ ks) (hg : ∀ o, ∃ b, g (some o) = Pure.pure (some b)) :
    Leaves (tok ks * Z) (Production.classify f >>= g) (either 0 Z) := by
  refine (classify h hf Z).bind fun o => ?_
  cases o with
  | none => exact zero _
  | some o =>
    obtain ⟨b, hb⟩ := hg o
    exact hb ▸ pure le_rfl

theorem unclassified {f : Kind → Option α} {ls ks : List Kind}
    {g : Option (α × Token) → Production (Option β)} (hX : Begins ls X) (hl : Apart ls ks)
    (he : .eof ∉ ks) (hf : ∀ k, (f k).isSome ↔ k ∈ ks) (hg : g none = Pure.pure none) :
    Leaves X (Production.classify f >>= g) (either X 0) := by
  refine (declineClass hX hl he hf).bind fun o => ?_
  cases o with
  | none => exact hg ▸ pure le_rfl
  | some o => exact zero _

theorem orElse_left {p q : Production (Option α)} {Z : Language Token}
    (hp : Leaves X p (either 0 Z)) : Leaves X (Production.orElse p q) (either 0 Z) := by
  refine hp.bind fun o => ?_
  cases o with
  | none => exact zero _
  | some a => exact pure le_rfl

theorem orElse_right {p q : Production (Option α)} {Y : Option α → Language Token}
    (hp : Leaves X p (either X 0)) (hq : Leaves X q Y) : Leaves X (Production.orElse p q) Y := by
  refine hp.bind fun o => ?_
  cases o with
  | none => exact hq
  | some a => exact zero _

/-- What every round finds before it, and what the last one leaves. -/
theorem many {p : Production (Option α)} {W : Language Token} (hp : Advances p)
    (h : Leaves X p (either W X)) : Leaves X (Production.many p) fun _ => W := by
  intro x
  induction hk : x.length using Nat.strongRecOn generalizing x with
  | ind n ih =>
    subst hk
    intro hx hm
    refine Reads.congr ?_ fun y hy c hc => many_eq hp (fun ht => ht rfl) hy hc
    refine Reads.bind ((h x hx hm).and (hp x hx) hx) (fun {o w r es} hw hr ht => ?_) id
    cases o with
    | none => exact .pure hr ht.1
    | some a =>
      have hlt : r.length < x.length := by
        have := List.length_pos_iff.mpr (ht.2 rfl)
        rw [hw, List.length_append]
        omega
      exact Reads.bind (ih _ hlt r rfl hr ht.1) (fun _ hq hv => .pure hq hv) id

/-- Repeated while there is a word of `K` to take. -/
theorem star {p : Production (Option α)} {K Z : Language Token} (hp : Advances p)
    (hstop : Leaves Z p (either Z 0)) (hstep : Leaves (K * (K∗ * Z)) p (either 0 (K∗ * Z))) :
    Leaves (K∗ * Z) (Production.many p) fun _ => Z := by
  refine many hp ?_
  have hsum : Leaves (Z + K * (K∗ * Z)) p (either Z (K∗ * Z)) := by
    refine (hstop.mono le_rfl fun o => ?_).add (hstep.mono le_rfl fun o => ?_)
    all_goals cases o <;> simp
  rwa [← kstar_mul_eq] at hsum

end Leaves
end Stylesheet
