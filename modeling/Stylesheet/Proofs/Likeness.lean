import Stylesheet.Proofs.Blur
import Stylesheet.Proofs.AcceptedSelectors

/-! Tokens that are alike but for blanks that do not matter, and productions that cannot tell them
apart. A blank matters at most where one simple selector may end and the next one start. -/
namespace Stylesheet
open Production

/-- The kinds a simple selector can end with. -/
def unitEnds : List Kind := [.ident, .star, .hash, .rbracket, .rparen]

variable (v : Blur)

/-- Tokens that read the same under the blur `v` where no blank counts, but for the question
whether any stands between the end and the start of a simple selector. With `close` such an end
has just been passed. -/
inductive Like : Bool → List Token → List Token → Prop
  | nil {close : Bool} : Like close [] []
  | token {close : Bool} {s s' x y : List Token} {t t' : Token} (hs : ∀ b ∈ s, b.isSpace)
      (hs' : ∀ b ∈ s', b.isSpace) (ht : t.isSpace = false) (h : blur v t = blur v t')
      (hgap : close = true → t.kind ∈ Grammar.unitKinds → (s = [] ↔ s' = []))
      (hx : Like (decide (t.kind ∈ unitEnds)) x y) : Like close (s ++ t :: x) (s' ++ t' :: y)

/-- Terminated tokens that are alike. -/
structure Parallel (close : Bool) (x y : List Token) : Prop where
  left : Terminated x
  right : Terminated y
  like : Like v close x y

variable {v}

theorem Token.blur_eq_iff {t t' : Token} : blur v t = blur v t' ↔
    t.kind = t'.kind ∧ blur v t.text = blur v t'.text ∧ blur v t.position = blur v t'.position :=
  Token.mk.injEq .. ▸ Iff.rfl

theorem Token.kind_eq {t t' : Token} (h : blur v t = blur v t') : t.kind = t'.kind :=
  (blur_eq_iff.mp h).1

theorem Token.text_eq {t t' : Token} (h : blur v t = blur v t') : blur v t.text = blur v t'.text :=
  (blur_eq_iff.mp h).2.1

theorem Like.weaken {close : Bool} {x y : List Token} (h : Like v close x y) : Like v false x y := by
  cases h with
  | nil => exact .nil
  | token hs hs' ht h _ hx => exact .token hs hs' ht h (by simp) hx

theorem Terminated.after_blanks {s x : List Token} (h : Terminated x) (hs : ∀ b ∈ s, b.isSpace) :
    Terminated (s ++ x) := by
  induction s with
  | nil => exact h
  | cons b s ih =>
    have hb : b.kind = .space := by simpa [Token.isSpace] using hs b (by simp)
    exact .cons (by simp [hb]) (ih fun u hu => hs u (List.mem_cons_of_mem b hu))

namespace Parallel
variable {close : Bool} {x y : List Token}

theorem weaken (h : Parallel v close x y) : Parallel v false x y := ⟨h.left, h.right, h.like.weaken⟩

/-- The next tokens, and what is behind them. -/
theorem split (h : Parallel v close x y) : ∃ s t x' s' t' y', x = s ++ t :: x' ∧
    y = s' ++ t' :: y' ∧ (∀ b ∈ s, Token.isSpace b) ∧ (∀ b ∈ s', Token.isSpace b) ∧
    t.isSpace = false ∧ blur v t = blur v t' ∧
    (close = true → t.kind ∈ Grammar.unitKinds → (s = [] ↔ s' = [])) ∧
    (t.kind ≠ .eof → Parallel v (decide (t.kind ∈ unitEnds)) x' y') ∧
    ∀ r r', (∀ b ∈ r, Token.isSpace b) → (∀ b ∈ r', Token.isSpace b) →
      Parallel v false (r ++ t :: x') (r' ++ t' :: y') := by
  obtain ⟨hx, hy, hl⟩ := h
  cases hl with
  | nil => exact absurd rfl hx.ne_nil
  | @token _ s s' x y t t' hs hs' ht h hgap hl =>
    have htx : Terminated (t :: x) := hx.drop (by simp)
    have hty : Terminated (t' :: y) := hy.drop (by simp)
    refine ⟨s, t, x, s', t', y, rfl, rfl, hs, hs', ht, h, hgap, fun he => ⟨?_, ?_, hl⟩,
      fun r r' hr hr' => ⟨htx.after_blanks hr, hty.after_blanks hr', ?_⟩⟩
    · exact htx.tail he
    · exact hty.tail (Token.kind_eq h ▸ he)
    · exact .token hr hr' ht h (by simp) hl

theorem of_le {b k : Bool} (h : Parallel v b x y) (hk : k = true → b = true) :
    Parallel v k x y := by
  cases k with
  | false => exact h.weaken
  | true => exact hk rfl ▸ h

end Parallel

theorem isSpace_eq {t t' : Token} (h : blur v t = blur v t') : t.isSpace = t'.isSpace := by
  simp only [Token.isSpace, Token.kind_eq h]

/-- The next token is the same on both sides; passing it leaves what is alike. -/
theorem Parallel.next {close : Bool} {x y : List Token} {c d : Cursor} (h : Parallel v close x y)
    (hc : c.Before x) (hd : d.Before y) : blur v c.next = blur v d.next ∧ (c.next.kind ≠ .eof →
      ∃ x' y', c.advance.Before x' ∧ d.advance.Before y' ∧
        Parallel v (decide (c.next.kind ∈ unitEnds)) x' y') := by
  obtain ⟨s, t, x', s', t', y', rfl, rfl, hs, hs', ht, hblur, -, hrest, -⟩ := h.split
  have ht' : t'.isSpace = false := isSpace_eq hblur ▸ ht
  rw [hc.next_eq hs ht, hd.next_eq hs' ht']
  refine ⟨hblur, fun he => ⟨x', y', ?_, ?_, hrest he⟩⟩
  · exact hc.advance hs ht (h.left.drop (by simp)) he
  · exact hd.advance hs' ht' (h.right.drop (by simp)) (Token.kind_eq hblur ▸ he)

theorem Advances.length_lt {α : Type} {p : Production (Option α)} {x x' : List Token} {c d : Cursor}
    {es : List Event} {a : α} (h : Advances p) (hx : Terminated x) (hc : c.Before x)
    (hrun : p c = ⟨es, d, .ok (some a)⟩) (hd : d.Before x') : x'.length < x.length := by
  obtain ⟨w, r, rfl, -, hb, hw⟩ := (h x hx).of_ok hx hc hrun
  obtain rfl := hd.unique hb
  have hpos := List.length_pos_iff.mpr (hw rfl)
  rw [List.length_append]
  omega

section
variable {α β : Type} [Blurred α] [Blurred β]

/-- Outcomes of two runs that are alike: they fire the same, and fail in the same way or return
the same and go on before tokens that are alike. -/
inductive Outcome.Alike (v : Blur) (close : α → Bool) : Outcome α → Outcome α → Prop
  | ok {es es' : List Event} {c d : Cursor} {a a' : α} {x y : List Token} (he : blur v es = blur v es')
      (ha : blur v a = blur v a') (h : Parallel v (close a) x y) (hc : c.Before x)
      (hd : d.Before y) : Alike v close ⟨es, c, .ok a⟩ ⟨es', d, .ok a'⟩
  | error {es es' : List Event} {c d : Cursor} {e e' : ParseError} (he : blur v es = blur v es')
      (h : blur v e = blur v e') : Alike v close ⟨es, c, .error e⟩ ⟨es', d, .error e'⟩

/-- Before the tokens `x` and before the tokens `y`, `p` and `q` do alike. -/
def ActAlikeAt (v : Blur) (x y : List Token) (close : α → Bool) (p q : Production α) : Prop :=
  ∀ c d : Cursor, c.Before x → d.Before y → (p c).Alike v close (q d)

/-- Before any tokens that are alike, `p` and `q` do alike. -/
def ActAlike (v : Blur) (before : Bool) (close : α → Bool) (p q : Production α) : Prop :=
  ∀ x y, Parallel v before x y → ActAlikeAt v x y close p q

/-- What is known behind an optional production: `k` without a match, and `m` with one. -/
abbrev behind (k m : Bool) (o : Option α) : Bool := o.elim k fun _ => m

variable {v : Blur} {before : Bool} {close : α → Bool} {close' : β → Bool} {x y : List Token}

theorem ActAlikeAt.bind {p q : Production α} {f g : α → Production β}
    (hp : ActAlikeAt v x y close p q)
    (hf : ∀ {c d es a a' x' y'}, c.Before x → p c = ⟨es, d, .ok a⟩ → d.Before x' →
      blur v a = blur v a' → Parallel v (close a) x' y' → ActAlikeAt v x' y' close' (f a) (g a')) :
    ActAlikeAt v x y close' (p >>= f) (q >>= g) := by
  intro c d hc hd
  have hpq := hp c d hc hd
  rcases hpc : p c with ⟨es, c', r⟩
  rcases hqd : q d with ⟨es', d', r'⟩
  rw [hpc, hqd] at hpq
  cases hpq with
  | error he h =>
    rw [bind_error hpc, bind_error hqd]
    exact .error he h
  | @ok _ _ _ _ a a' x' y' he ha h hc' hd' =>
    have hfg := hf hc hpc hc' ha h c' d' hc' hd'
    rcases hfc : f a c' with ⟨fs, c'', r⟩
    rcases hgd : g a' d' with ⟨fs', d'', r'⟩
    rw [bind_ok hpc hfc, bind_ok hqd hgd]
    rw [hfc, hgd] at hfg
    have happend : ∀ {gs gs' : List Event}, blur v gs = blur v gs' →
        blur v (es ++ gs) = blur v (es' ++ gs') := by
      intro gs gs' hg
      show (es ++ gs).map (blur v) = (es' ++ gs').map (blur v)
      rw [List.map_append, List.map_append]
      exact congrArg₂ (· ++ ·) he hg
    cases hfg with
    | error he' h' => exact .error (happend he') h'
    | ok he' ha' h' hc'' hd'' => exact .ok (happend he') ha' h' hc'' hd''

theorem ActAlikeAt.option {p q : Production (Option α)} {f g : Option α → Production β} {k m : Bool}
    (hp : ActAlikeAt v x y (behind k m) p q)
    (hsome : ∀ {c d es a a' x' y'}, c.Before x → p c = ⟨es, d, .ok (some a)⟩ → d.Before x' →
      blur v a = blur v a' → Parallel v m x' y' →
      ActAlikeAt v x' y' close' (f (some a)) (g (some a')))
    (hnone : ∀ {c d es x' y'}, c.Before x → p c = ⟨es, d, .ok none⟩ → d.Before x' →
      Parallel v k x' y' → ActAlikeAt v x' y' close' (f none) (g none)) :
    ActAlikeAt v x y close' (p >>= f) (q >>= g) := by
  refine hp.bind fun {c d es o o' x' y'} hc hrun hd ho h => ?_
  cases o with
  | none =>
    cases o' with
    | none => exact hnone hc hrun hd h
    | some a' => exact absurd ho (by simp [blur])
  | some a =>
    cases o' with
    | none => exact absurd ho (by simp [blur])
    | some a' => exact hsome hc hrun hd (Option.some.inj ho) h

namespace ActAlike

theorem bind {p q : Production α} {f g : α → Production β} (hp : ActAlike v before close p q)
    (hf : ∀ a a', blur v a = blur v a' → ActAlike v (close a) close' (f a) (g a')) :
    ActAlike v before close' (p >>= f) (q >>= g) :=
  fun x y h => (hp x y h).bind fun _ _ _ ha h => hf _ _ ha _ _ h

/-- Less can be known of what comes before. -/
theorem anywhere {p q : Production α} (h : ActAlike v false close p q) :
    ActAlike v before close p q := fun x y hxy => h x y hxy.weaken

theorem pure {k : α → Bool} {a a' : α} (h : blur v a = blur v a')
    (hk : k a = true → before = true) :
    ActAlike v before k (Pure.pure a : Production α) (Pure.pure a') :=
  fun _ _ hxy _ _ hc hd => .ok rfl h (hxy.of_le hk) hc hd

theorem fire {e e' : Event} (h : blur v e = blur v e') :
    ActAlike v before (fun _ => false) (Production.fire e) (Production.fire e') := by
  intro x y hxy c d hc hd
  refine .ok ?_ rfl hxy.weaken hc hd
  exact congrArg (fun a => [a]) h

theorem fail {e e' : ParseError} (h : blur v e = blur v e') :
    ActAlike v before close (Production.fail e) (Production.fail e') :=
  fun _ _ _ _ _ _ _ => .error rfl h

theorem next : ActAlike v before (fun _ => before) Production.next Production.next :=
  fun _ _ hxy _ _ hc hd => .ok rfl (hxy.next hc hd).1 hxy hc hd

theorem reject : ActAlike v before close (Production.reject) (Production.reject) := by
  intro x y hxy c d hc hd
  obtain ⟨hnext, -⟩ := hxy.next hc hd
  obtain ⟨-, htext, hplace⟩ := Token.blur_eq_iff.mp hnext
  exact .error rfl (congrArg₂ ParseError.mk htext hplace)

/-- Where the kinds `ks` all end a simple selector, a match leaves such an end behind. -/
theorem accept {ks : List Kind} (ends : Bool) (hk : .eof ∉ ks)
    (hend : ends = true → ∀ k ∈ ks, k ∈ unitEnds) :
    ActAlike v before (behind before ends) (Production.accept ks)
      (Production.accept ks) := by
  intro x y hxy c d hc hd
  obtain ⟨hnext, hrest⟩ := hxy.next hc hd
  have hkind := Token.kind_eq hnext
  by_cases hm : c.next.kind ∈ ks
  · obtain ⟨x', y', hc', hd', h⟩ := hrest fun he => hk (he ▸ hm)
    simp only [Production.accept, hm, ← hkind, if_true]
    refine .ok rfl (congrArg some hnext) (h.of_le fun he => ?_) hc' hd'
    exact decide_eq_true (hend he _ hm)
  · simp only [Production.accept, hm, ← hkind, if_false]
    exact .ok rfl rfl hxy hc hd

theorem classify {f : Kind → Option β} (hf : f .eof = none) :
    ActAlike v before (behind before false) (Production.classify f)
      (Production.classify f) := by
  intro x y hxy c d hc hd
  obtain ⟨hnext, hrest⟩ := hxy.next hc hd
  have hkind := Token.kind_eq hnext
  cases hm : f c.next.kind with
  | none =>
    simp only [Production.classify, hm, ← hkind]
    exact .ok rfl rfl hxy hc hd
  | some b =>
    obtain ⟨x', y', hc', hd', h⟩ := hrest fun he => by simp [he, hf] at hm
    simp only [Production.classify, hm, ← hkind]
    exact .ok rfl (congrArg (fun t => some (blur v b, t)) hnext) h.weaken hc' hd'

theorem option {p q : Production (Option α)} {f g : Option α → Production β} {k m : Bool}
    (hp : ActAlike v before (behind k m) p q)
    (hsome : ∀ a a', blur v a = blur v a' → ActAlike v m close' (f (some a)) (g (some a')))
    (hnone : ActAlike v k close' (f none) (g none)) : ActAlike v before close' (p >>= f) (q >>= g) :=
  fun x y hxy => (hp x y hxy).option (fun _ _ _ ha h => hsome _ _ ha _ _ h)
    fun _ _ _ h => hnone _ _ h

theorem expect {ks : List Kind} (ends : Bool) (hk : .eof ∉ ks)
    (hend : ends = true → ∀ k ∈ ks, k ∈ unitEnds) :
    ActAlike v before (fun _ => ends) (Production.expect ks) (Production.expect ks) :=
  option (accept ends hk hend) (fun _ _ h => pure h id) reject

theorem orElse {p q : Production (Option α)} {k : Bool}
    (hp : ActAlike v before (behind before k) p p)
    (hq : ActAlike v before (behind before k) q q) :
    ActAlike v before (behind before k) (Production.orElse p q)
      (Production.orElse p q) :=
  option hp (fun _ _ h => pure (congrArg some h) id) hq

/-- Repetitions stay in step, since every match takes a token. -/
theorem many {p : Production (Option α)} {k : Bool} (hadv : Advances p)
    (hp : ActAlike v before (behind k before) p p) :
    ActAlike v before (fun _ => k) (Production.many p) (Production.many p) := by
  intro x
  induction hl : x.length using Nat.strongRecOn generalizing x with
  | ind n ih =>
    subst hl
    intro y hxy c d hc hd
    have hw : ∀ {a : α} {w : List Token}, ((some a).isSome = true → w ≠ []) → w ≠ [] := fun h => h rfl
    rw [many_eq hadv hw hxy.left hc, many_eq hadv hw hxy.right hd]
    refine ActAlikeAt.bind (hp x y hxy) (fun {c' d' es o o' x' y'} hc' hrun hd' ho h => ?_)
      c d hc hd
    cases o with
    | none =>
      cases o' with
      | some a' => exact absurd ho (by simp [blur])
      | none => exact pure (k := fun _ => k) rfl id x' y' h
    | some a =>
      cases o' with
      | none => exact absurd ho (by simp [blur])
      | some a' =>
        have hlt : x'.length < x.length := hadv.length_lt hxy.left hc' hrun hd'
        refine ActAlikeAt.bind (ih _ hlt x' rfl y' h) fun {_ _ _ as as' x'' y''} _ _ _ has h' => ?_
        exact pure (k := fun _ => k) (congrArg₂ List.cons (Option.some.inj ho) has) id x'' y'' h'

end ActAlike
end
end Stylesheet
