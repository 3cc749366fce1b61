import Stylesheet.Proofs.AlikeSelectors
import Stylesheet.Proofs.Values

/-! The productions of values cannot tell tokens apart that are alike. -/
namespace Stylesheet.Grammar
open Computability Production

variable {v : Blur} {before : Bool}

theorem operator_alike : ActAlike v before (behind before false) operator operator :=
  .option (.classify rfl) (fun _ _ h => .pure (congrArg some (Prod.mk.inj h).1) id) (.pure rfl id)

theorem sign_alike : ActAlike v before (behind before false) sign sign :=
  .option (.classify rfl) (fun _ _ h => .pure (congrArg some (Prod.mk.inj h).1) id) (.pure rfl id)

theorem plainTerm_alike : ActAlike v before (behind before false) plainTerm plainTerm := by
  refine .option (.classify rfl) (fun o o' h => .pure ?_ id) (.pure rfl id)
  obtain ⟨hkind, htoken⟩ := Prod.mk.inj h
  exact congrArg₂ (fun k s => some (k, s)) hkind (Token.text_eq htoken)

theorem hexColor_alike : ActAlike v before (behind before false) hexColor hexColor := by
  refine .option (.accept false (by decide) (by decide)) (fun t t' h => ?_) (.pure rfl id)
  obtain ⟨-, htext, hplace⟩ := Token.blur_eq_iff.mp h
  have hdrop : ∀ s : Text, (blur v s).drop 1 = blur v (s.drop 1) := fun s => List.map_drop.symm
  have hcolor : isHexColor (t.text.drop 1) = isHexColor (t'.text.drop 1) := by
    rw [← isHexColor_blur v, ← hdrop, htext, hdrop, isHexColor_blur]
  simp only [hcolor]
  split
  · exact .pure (congrArg (fun s => some (TermKind.hexColor, s)) htext) id
  · exact .fail (congrArg₂ ParseError.mk htext hplace)

theorem partText_blur (p : Value.Part) : blur v p.text = (blur v p).text := by
  cases p with
  | term t => rfl
  | operator o => cases o <;> exact congrArg (fun c => [c]) (letter_eq v (by rfl))

theorem flatMap_text_blur (w : Value) :
    blur v (w.flatMap Value.Part.text) = (blur v w).flatMap Value.Part.text := by
  induction w with
  | nil => rfl
  | cons p w ih =>
    rw [List.flatMap_cons, append_blur, ih, partText_blur]
    rfl

theorem ofSigned_blur {s s' : Option Sign} {a a' : Text} {p p' : Position} (k : TermKind)
    (hs : blur v s = blur v s') (ha : blur v a = blur v a') (hp : blur v p = blur v p') :
    blur v (Term.ofSigned s a k p) = blur v (Term.ofSigned s' a' k p') := by
  obtain rfl : s = s' := by simpa [blur] using hs
  refine congrArg₂ (fun a p => Term.mk a k p) ?_ hp
  show blur v (_ ++ a) = blur v (_ ++ a')
  rw [append_blur, append_blur, ha]

/-- Where a run ends, if what it passes is known. -/
theorem length_of_run {α : Type} {p : Production α} {δ : α → Nat} {x x' : List Token} {c d : Cursor}
    {es : List Event} {a : α} (h : Production.Agree x.length δ p p) (hx : Terminated x)
    (hc : c.Before x) (hrun : p c = ⟨es, d, .ok a⟩) (hd : d.Before x') :
    x'.length + δ a ≤ x.length := by
  obtain ⟨y, -, hb, hl⟩ := (h x hx le_rfl c hc).2 hrun
  exact hd.unique hb ▸ hl

theorem value_measured {n : Nat} : Agree n (fun _ => 0) value value := fun x hx hl c hc =>
  ⟨rfl, (value_agree n x hx hl c hc).2⟩

/-- Values before fewer than `n` tokens cannot tell. -/
def ValueAlikeBelow (v : Blur) (n : Nat) : Prop :=
  ∀ x y, x.length < n → Parallel v false x y → ActAlikeAt v x y (fun _ => false) value value

theorem ValueAlikeBelow.mono {m n : Nat} (h : ValueAlikeBelow v n) (hm : m ≤ n) :
    ValueAlikeBelow v m := fun x y hl => h x y (hl.trans_le hm)

variable {x y : List Token}

theorem function_alikeAt (h : ValueAlikeBelow v x.length) (hxy : Parallel v false x y) :
    ActAlikeAt v x y (behind false false) (function value) (function value) := by
  refine ActAlikeAt.option (ActAlike.accept false (by decide) (by decide) x y hxy)
    (fun {c d es t t' x' y'} hc hrun hd ht hxy' => ?_) fun _ _ _ h => ActAlike.pure rfl id _ _ h
  have hlt := length_of_run (.of_tracks (.accept [.function] (by decide))
    (passed_le (by simp [Syntax.tok]))) hxy.left hc hrun hd
  refine (h x' y' hlt hxy').bind fun {_ _ _ w w' x'' y''} _ _ _ hw h' => ?_
  have htext : blur v (t.text ++ w.flatMap Value.Part.text ++ [')']) =
      blur v (t'.text ++ w'.flatMap Value.Part.text ++ [')']) := by
    simp only [append_blur, flatMap_text_blur, Token.text_eq ht, hw]
  have hclose : ActAlike v false (behind false false) (accept [.rparen]) (accept [.rparen]) :=
    .accept false (by decide) (by decide)
  refine (hclose x'' y'' h').bind fun {_ _ _ o _ _ _} _ _ _ _ h₃ => ?_
  exact ActAlike.pure (congrArg (fun s => some (TermKind.function, s)) htext) id _ _
    (h₃.of_le (by cases o <;> exact id))

theorem bare_alikeAt (h : ValueAlikeBelow v x.length) (hxy : Parallel v false x y) :
    ActAlikeAt v x y (behind false false) (orElse plainTerm (orElse hexColor (function value)))
      (orElse plainTerm (orElse hexColor (function value))) := by
  refine ActAlikeAt.option (plainTerm_alike x y hxy)
    (fun _ _ _ ha h' => ActAlike.pure (congrArg some ha) id _ _ h') fun {c d es x' y'} hc hrun hd hxy' => ?_
  have hle := length_of_run (.of_tracks plainTerm_tracks fun _ _ _ => Nat.zero_le _) hxy.left hc hrun hd
  refine ActAlikeAt.option (hexColor_alike x' y' hxy')
    (fun _ _ _ ha h' => ActAlike.pure (congrArg some ha) id _ _ h') fun {c d es x'' y''} hc hrun hd h' => ?_
  have hle' := length_of_run (.of_tracks hexColor_tracks fun _ _ _ => Nat.zero_le _) hxy'.left hc hrun hd
  exact function_alikeAt (h.mono (hle'.trans hle)) h'

theorem term_alikeAt (h : ValueAlikeBelow v x.length) (hxy : Parallel v false x y) :
    ActAlikeAt v x y (behind false false) (term value) (term value) := by
  refine ActAlikeAt.bind (ActAlike.next x y hxy) fun {c d es start start' x' y'} hc hrun hd ht hxy' => ?_
  have hle := length_of_run (.of_tracks .peek fun _ _ _ => Nat.zero_le _) hxy.left hc hrun hd
  have hplace := (Token.blur_eq_iff.mp ht).2.2
  refine ActAlikeAt.bind (sign_alike x' y' hxy') fun {c d es s s' x'' y''} hc hrun hd hs h' => ?_
  have hle' := length_of_run (.of_tracks sign_tracks fun _ _ _ => Nat.zero_le _) hxy'.left hc hrun hd
  have hbare : Parallel v false x'' y'' := h'.of_le (by cases s <;> exact id)
  refine ActAlikeAt.option (bare_alikeAt (h.mono (hle'.trans hle)) hbare)
    (fun {_ _ _ a a' _ _} _ _ _ ha h'' => ?_) fun _ _ _ h'' => ActAlike.pure rfl id _ _ h''
  obtain ⟨k, text⟩ := a
  obtain ⟨k', text'⟩ := a'
  obtain ⟨hk, htext⟩ := Prod.mk.inj ha
  obtain rfl : k = k' := hk
  exact ActAlike.pure (congrArg some (ofSigned_blur k hs htext hplace)) id _ _ h''

theorem moreParts_alikeAt {n : Nat} (h : ValueAlikeBelow v n) : ∀ x y, x.length ≤ n →
    Parallel v false x y → ActAlikeAt v x y (fun _ => false) (moreParts value) (moreParts value) := by
  intro x
  induction hk : x.length using Nat.strongRecOn generalizing x with
  | ind k ih =>
    subst hk
    intro y hl hxy c d hc hd
    rw [moreParts_eq hxy.left hc, moreParts_eq hxy.right hd]
    refine ActAlikeAt.bind (operator_alike x y hxy) (fun {_ _ _ o o' x' y'} hc hrun hd ho hxy' => ?_)
      c d hc hd
    have hle := length_of_run (.of_tracks operator_tracks fun _ _ _ => Nat.zero_le _) hxy.left hc hrun hd
    obtain rfl : o = o' := by simpa [blur] using ho
    refine ActAlikeAt.option (term_alikeAt (h.mono (hle.trans hl)) (hxy'.of_le (by simp)))
      (fun {_ _ _ t t' x'' y''} hc hrun hd ht h' => ?_) fun _ _ _ h' => ActAlike.pure rfl id _ _ h'
    have hlt := length_of_run ((term_agree value_measured).mono (Nat.le_succ _)) hxy'.left hc hrun hd
    simp only [passed] at hlt
    refine ActAlikeAt.bind (ih _ (by omega) x'' rfl y'' (by omega) h')
      fun {_ _ _ ps ps' x₃ y₃} _ _ _ hps h₃ => ?_
    refine ActAlike.pure ?_ id x₃ y₃ h₃
    show ((o.map Value.Part.operator).toList ++ .term t :: ps).map (blur v) =
      ((o.map Value.Part.operator).toList ++ .term t' :: ps').map (blur v)
    rw [List.map_append, List.map_append, List.map_cons, List.map_cons]
    exact congrArg₂ (fun t ps => _ ++ t :: ps) (congrArg Value.Part.term ht) hps

theorem parts_alikeAt (h : ValueAlikeBelow v x.length) (hxy : Parallel v false x y) :
    ActAlikeAt v x y (fun _ => false) (parts value) (parts value) := by
  refine ActAlikeAt.option (term_alikeAt h hxy) (fun {_ _ _ t t' x' y'} hc hrun hd ht h' => ?_)
    fun _ _ _ h' => ActAlike.pure rfl id _ _ h'
  have hlt := length_of_run ((term_agree value_measured).mono (Nat.le_succ _)) hxy.left hc hrun hd
  simp only [passed] at hlt
  refine ActAlikeAt.bind (moreParts_alikeAt h x' y' (by omega) h') fun {_ _ _ ps ps' _ _} _ _ _ hps h₃ => ?_
  exact ActAlike.pure (congrArg₂ List.cons (congrArg Value.Part.term ht) hps) id _ _ h₃

theorem value_alike : ActAlike v before (fun _ => false) value value := by
  refine ActAlike.anywhere fun x => ?_
  induction hk : x.length using Nat.strongRecOn generalizing x with
  | ind k ih =>
    subst hk
    intro y hxy c d hc hd
    rw [value_eq hxy.left hc, value_eq hxy.right hd]
    exact parts_alikeAt (fun x' y' hl h => ih _ hl x' rfl y' h) hxy c d hc hd

end Stylesheet.Grammar
