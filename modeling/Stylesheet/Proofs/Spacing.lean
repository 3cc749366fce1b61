import Stylesheet.Proofs.AlikeStatements
import Stylesheet.Proofs.EarliestFailure

/-! The blanks that count in a style sheet are those between the end and the start of a simple
selector, and of a run of them only the first. -/
namespace Stylesheet

/-- Whether a blank that stands between the token `before` and the tokens `rest` counts. -/
def Significant (before : Option Token) (rest : List Token) : Bool :=
  before.any (fun u => u.kind ∈ unitEnds) &&
    (rest.find? fun t => !t.isSpace).any fun t => t.kind ∈ Grammar.unitKinds

/-- `Thinned before x y`: the tokens `y` are those of `x` without some of the blanks that do not
count, where `before` is the token in front of `x`. -/
inductive Thinned : Option Token → List Token → List Token → Prop
  | nil {before : Option Token} : Thinned before [] []
  | keep {before : Option Token} {t : Token} {x y : List Token} (h : Thinned (some t) x y) :
      Thinned before (t :: x) (t :: y)
  | drop {before : Option Token} {t : Token} {x y : List Token} (ht : t.isSpace)
      (hs : Significant before x = false) (h : Thinned (some t) x y) : Thinned before (t :: x) y

/-- The blanks passed since a token that may have ended a simple selector: `s` before the thinning
and `s'` after it. If the first of them counts, it is still there. -/
structure Passed (close : Bool) (before : Option Token) (s s' x : List Token) : Prop where
  blanks : ∀ b ∈ s, b.isSpace
  blanks' : ∀ b ∈ s', b.isSpace
  nil_of_nil : s = [] → s' = []
  close_eq : s = [] → close = before.any fun u => u.kind ∈ unitEnds
  kept : s ≠ [] → close = true →
    (x.find? fun t => !t.isSpace).any (fun t => t.kind ∈ Grammar.unitKinds) → s' ≠ []

variable {close : Bool} {before : Option Token} {s s' x : List Token} {t : Token}

theorem Passed.start (h : close = before.any fun u => u.kind ∈ unitEnds) :
    Passed close before [] [] x :=
  ⟨by simp, by simp, fun _ => rfl, fun _ => h, fun h => absurd rfl h⟩

theorem find_blank (ht : t.isSpace) :
    ((t :: x).find? fun t => !t.isSpace) = x.find? fun t => !t.isSpace := by
  simp [ht]

theorem Passed.keep (h : Passed close before s s' (t :: x)) (ht : t.isSpace) :
    Passed close (some t) (s ++ [t]) (s' ++ [t]) x where
  blanks := by simpa [or_imp, forall_and, ht] using h.blanks
  blanks' := by simpa [or_imp, forall_and, ht] using h.blanks'
  nil_of_nil := by simp
  close_eq := by simp
  kept := by simp

theorem Passed.drop (h : Passed close before s s' (t :: x)) (ht : t.isSpace)
    (hs : Significant before x = false) : Passed close (some t) (s ++ [t]) s' x where
  blanks := by simpa [or_imp, forall_and, ht] using h.blanks
  blanks' := h.blanks'
  nil_of_nil := by simp
  close_eq := by simp
  kept _ hc hx := by
    by_cases hnil : s = []
    · have hstart : Significant before x = true := by
        rw [Significant, ← h.close_eq hnil, hc, hx]
        rfl
      simp [hstart] at hs
    · exact h.kept hnil hc (by rwa [find_blank ht])

theorem Passed.gap (h : Passed close before s s' (t :: x)) (ht : t.isSpace = false)
    (hc : close = true) (hk : t.kind ∈ Grammar.unitKinds) : s = [] ↔ s' = [] := by
  refine ⟨h.nil_of_nil, fun hnil => ?_⟩
  by_contra hne
  exact h.kept hne hc (by simpa [List.find?_cons, ht] using hk) hnil

theorem Thinned.like {y : List Token} (h : Thinned before x y)
    (hx : x = [] → s = []) (ht : x ≠ [] → Terminated x) (hp : Passed close before s s' x) :
    Like Blur.none close (s ++ x) (s' ++ y) := by
  induction h generalizing close s s' with
  | nil =>
    rw [hx rfl, hp.nil_of_nil (hx rfl)]
    exact .nil
  | @keep before t x y h ih =>
    cases hspace : t.isSpace with
    | true =>
      have htail : Terminated x := (ht (by simp)).tail fun he => by simp [Token.isSpace, he] at hspace
      have := ih (fun hn => absurd hn htail.ne_nil) (fun _ => htail) (hp.keep hspace)
      simpa using this
    | false =>
      have htail : x ≠ [] → Terminated x := fun hn =>
        (ht (by simp)).tail ((ht (by simp)).ne_eof_of_cons hn)
      have hlike := ih (fun _ => rfl) htail (.start rfl)
      exact .token hp.blanks hp.blanks' hspace rfl (hp.gap hspace) hlike
  | @drop before t x y hspace hs h ih =>
    have htail : Terminated x := (ht (by simp)).tail fun he => by simp [Token.isSpace, he] at hspace
    have := ih (fun hn => absurd hn htail.ne_nil) (fun _ => htail) (hp.drop hspace hs)
    simpa using this

theorem Thinned.terminated {y : List Token} (h : Thinned before x y) (hx : Terminated x) :
    Terminated y := by
  induction h with
  | nil => exact hx
  | @keep _ t x y h ih =>
    cases hx with
    | eof ht => cases h with
      | nil => exact .eof ht
    | cons ht hx => exact .cons ht (ih hx)
  | @drop _ t x y ht hs h ih =>
    exact ih (hx.tail fun he => by simp [Token.isSpace, he] at ht)

/-- Blanks that do not count can go: what is parsed stays the same. -/
theorem parseFrom_thinned {x y : List Token} (hx : Terminated x) (h : Thinned none x y) :
    parseFrom (.ofTokens x) = parseFrom (.ofTokens y) := by
  have hstart : Passed false none [] [] x := .start rfl
  have hlike : Like Blur.none false x y := h.like (fun _ => rfl) (fun _ => hx) hstart
  have halike := parseFrom_alike ⟨hx, h.terminated hx, hlike⟩
  rwa [blur_none, blur_none] at halike

/-- The tokens of `a b {}` where one blank counts and one does not. -/
def spaced : List Token :=
  [⟨.ident, ['a'], ⟨1, 1⟩⟩, ⟨.space, [' '], ⟨1, 2⟩⟩, ⟨.ident, ['b'], ⟨1, 3⟩⟩,
    ⟨.space, [' '], ⟨1, 4⟩⟩, ⟨.lbrace, ['{'], ⟨1, 5⟩⟩, ⟨.rbrace, ['}'], ⟨1, 6⟩⟩,
    ⟨.eof, [], ⟨1, 7⟩⟩]

theorem spaced_thinned : Terminated spaced ∧ Thinned none spaced (spaced.eraseIdx 3) ∧
    parseFrom (.ofTokens spaced) = parseFrom (.ofTokens (spaced.eraseIdx 3)) := by
  have hends : Terminated spaced := .snoc (w := spaced.dropLast) (by decide) rfl
  have hthinned : Thinned none spaced (spaced.eraseIdx 3) :=
    .keep (.keep (.keep (.drop rfl (by decide) (.keep (.keep (.keep .nil))))))
  exact ⟨hends, hthinned, parseFrom_thinned hends hthinned⟩

end Stylesheet
