import Stylesheet.Proofs.Tape

/-! Which tokens a stream consumes: in order, none twice, and none left out but hidden blanks. At
the first end token consumption stops. -/
namespace Stylesheet
namespace Tape
open Stylesheet.Stream (Step)

/-- What has been consumed and not taken back, newest first. Taking back undoes the consumption
right before it, and does nothing a second time in a row. -/
def taken : List Change → List Take
  | [] => []
  | .took x :: h => x :: taken h
  | .back :: .took _ :: h => taken h
  | .back :: h => taken h

/-- The index `k` is behind the stream: no end token, and consumed or a blank that was hidden when
it was passed over. -/
def Passed (ts : List Token) (xs : List Take) (k : Nat) : Prop :=
  ∃ s, ts[k]? = some s ∧ s.isEof = false ∧ ((∃ x ∈ xs, x.index = k) ∨
    s.isSpace ∧ ∃ x ∈ xs, x.spaceVisible = false ∧ x.start ≤ k ∧ k < x.index)

/-- Tokens consumed, newest first, in the order of the tokens and without gaps but hidden blanks. -/
structure Orderly (ts : List Token) (xs : List Take) : Prop where
  increasing : (xs.filter fun x => ts[x.index]?.any (!·.isEof)).Pairwise
    fun later earlier => earlier.index < later.index
  before : ∀ x ∈ xs, ∀ k < x.index, Passed ts xs k

/-- Tokens consumed one after the other, each from where the one before left the cursor. -/
inductive Tiled (ts : List Token) : List Take → Nat → Prop
  | start : Tiled ts [] 0
  | take {xs : List Take} {c i : Nat} {seen : Bool} {s : Token} (h : Tiled ts xs c) (hle : c ≤ i)
      (hsome : ts[i]? = some s)
      (hhidden : ∀ k, c ≤ k → k < i → seen = false ∧ ∃ r, ts[k]? = some r ∧ r.isSpace) :
      Tiled ts (⟨c, i, seen⟩ :: xs) (if s.isEof then c else i + 1)

variable {ts : List Token} {xs : List Take} {x : Take} {c k : Nat}

theorem Passed.cons (h : Passed ts xs k) (x : Take) : Passed ts (x :: xs) k := by
  obtain ⟨s, hs, hopen, ⟨y, hy, hk⟩ | ⟨hspace, y, hy, hk⟩⟩ := h
  · exact ⟨s, hs, hopen, .inl ⟨y, List.mem_cons_of_mem x hy, hk⟩⟩
  · exact ⟨s, hs, hopen, .inr ⟨hspace, y, List.mem_cons_of_mem x hy, hk⟩⟩

theorem not_isEof_of_isSpace {s : Token} (h : s.isSpace) : s.isEof = false := by
  simp_all [Token.isEof, Token.isSpace]

theorem Tiled.rest (h : Tiled ts (x :: xs) c) : Tiled ts xs x.start := by
  cases h
  assumption

/-- Consumed tokens but the end token lie behind the cursor. -/
theorem Tiled.index_lt (h : Tiled ts xs c) :
    ∀ x ∈ xs, ts[x.index]?.any (!·.isEof) → x.index < c := by
  induction h with
  | start => simp
  | @take xs c i seen s _ hle hsome _ ih =>
    intro x hx hopen
    have hc : c ≤ if s.isEof then c else i + 1 := by split <;> omega
    obtain rfl | hx := List.mem_cons.mp hx
    · have hs : s.isEof = false := by simpa [hsome] using hopen
      simp [hs]
    · exact (ih x hx hopen).trans_le hc

/-- Up to a token consumed nothing is left out if nothing is before the cursor. -/
theorem passed_of_lt {i : Nat} {seen : Bool} (hbehind : ∀ k < c, Passed ts xs k)
    (hhidden : ∀ k, c ≤ k → k < i → seen = false ∧ ∃ r, ts[k]? = some r ∧ r.isSpace) :
    ∀ k < i, Passed ts (⟨c, i, seen⟩ :: xs) k := by
  intro k hk
  by_cases hkc : k < c
  · exact (hbehind k hkc).cons _
  · have hck : c ≤ k := Nat.le_of_not_lt hkc
    obtain ⟨hseen, r, hr, hspace⟩ := hhidden k hck hk
    exact ⟨r, hr, not_isEof_of_isSpace hspace,
      .inr ⟨hspace, _, List.mem_cons_self .., hseen, hck, hk⟩⟩

theorem Tiled.behind (h : Tiled ts xs c) : ∀ k < c, Passed ts xs k := by
  induction h with
  | start => simp
  | @take xs c i seen s h hle hsome hhidden ih =>
    intro k hk
    cases hs : s.isEof with
    | true =>
      rw [hs, if_pos rfl] at hk
      exact (ih k hk).cons _
    | false =>
      rw [hs, if_neg (by simp)] at hk
      obtain hlt | rfl := Nat.lt_or_eq_of_le (Nat.le_of_lt_succ hk)
      · exact passed_of_lt ih hhidden k hlt
      · exact ⟨s, hsome, hs, .inl ⟨_, List.mem_cons_self .., rfl⟩⟩

theorem Tiled.orderly (h : Tiled ts xs c) : Orderly ts xs := by
  induction h with
  | start => exact ⟨.nil, by simp⟩
  | @take xs c i seen s h hle hsome hhidden ih =>
    refine ⟨?_, fun x hx k hk => ?_⟩
    · cases hs : s.isEof with
      | true =>
        rw [List.filter_cons_of_neg (by simp [hsome, hs])]
        exact ih.increasing
      | false =>
        rw [List.filter_cons_of_pos (by simp [hsome, hs])]
        refine List.pairwise_cons.mpr ⟨fun x hx => ?_, ih.increasing⟩
        obtain ⟨hx, hopen⟩ := List.mem_filter.mp hx
        exact (h.index_lt x hx hopen).trans_le hle
    · obtain rfl | hx := List.mem_cons.mp hx
      · exact passed_of_lt h.behind hhidden k hk
      · exact (ih.before x hx k hk).cons _

variable {t u : Tape} {V : Bool → Prop} {seen : Bool} {i j : Nat}

/-- What taking back would restore: where the cursor stood and what was current. -/
def savedBy : List Change → Option (Nat × Option Nat)
  | .took x :: h => some (x.start, (taken h).head?.map Take.index)
  | _ => none

/-- The history tells the state of a tape on `ts`, and what was consumed at any time before. -/
structure Accounted (ts : List Token) (t : Tape) : Prop where
  tokens : t.tokens = ts
  inRange : t.InRange
  current : t.current = (taken t.history).head?.map Take.index
  saved : t.saved = savedBy t.history
  tiled : Tiled ts (taken t.history) t.cursor
  past : ∀ h, h <:+ t.history → ∃ c, Tiled ts (taken h) c

theorem ofTokens_accounted (ts : List Token) : Accounted (Cursor.withEnd ts) (ofTokens ts) where
  tokens := rfl
  inRange := ofTokens_inRange ts
  current := rfl
  saved := rfl
  tiled := .start
  past h hh := by
    obtain rfl := List.suffix_nil.mp hh
    exact ⟨0, .start⟩

theorem past_cons {ch : Change} {h : List Change} (htiled : ∃ c, Tiled ts (taken (ch :: h)) c)
    (hpast : ∀ h', h' <:+ h → ∃ c, Tiled ts (taken h') c) :
    ∀ h', h' <:+ ch :: h → ∃ c, Tiled ts (taken h') c := by
  intro h' hh
  obtain rfl | hh := List.suffix_cons_iff.mp hh
  · exact htiled
  · exact hpast h' hh

theorem Accounted.unget (h : t.Accounted ts) (hrange : t.unget.InRange) : t.unget.Accounted ts := by
  obtain ⟨htokens, -, hcurrent, hsaved, htiled, hpast⟩ := h
  -- With nothing saved only the history grows, and the same tokens count as consumed.
  have hnothing (hnone : savedBy t.history = none)
      (htaken : taken (.back :: t.history) = taken t.history) : t.unget.Accounted ts := by
    have hunget : t.unget = { t with history := .back :: t.history } := by
      rw [Tape.unget, hsaved, hnone]
    rw [hunget] at hrange ⊢
    rw [← htaken] at hcurrent htiled
    exact ⟨htokens, hrange, hcurrent, hsaved.trans hnone, htiled, past_cons ⟨_, htiled⟩ hpast⟩
  cases hh : t.history with
  | nil => exact hnothing (by rw [hh]; rfl) (by rw [hh]; rfl)
  | cons ch rest =>
    cases ch with
    | back => exact hnothing (by rw [hh]; rfl) (by rw [hh]; rfl)
    | took x =>
      rw [hh] at hsaved htiled
      have hunget : t.unget = ⟨t.tokens, x.start, (taken rest).head?.map Take.index, none,
          t.spaceVisible, .back :: t.history⟩ := by
        rw [Tape.unget, hsaved]
        rfl
      have hrest : Tiled ts (taken (.back :: t.history)) x.start := by
        rw [hh]
        exact htiled.rest
      rw [hunget] at hrange ⊢
      exact ⟨htokens, hrange, by rw [hh]; rfl, rfl, hrest, past_cons ⟨_, hrest⟩ hpast⟩

theorem Move.accounted (hm : Move V t u) (h : t.Accounted ts) : u.Accounted ts := by
  have hrange := hm.inRange h.inRange
  cases hm with
  | @take i s hs hsome hnext =>
    have htiled : Tiled ts (⟨t.cursor, i, t.spaceVisible⟩ :: taken t.history)
        (if s.isEof then t.cursor else i + 1) := by
      rw [h.tokens] at hsome
      refine h.tiled.take (hs.le h.inRange.cursor) hsome ?_
      rw [← h.tokens]
      exact hs.hidden
    exact ⟨h.tokens, hrange, rfl, congrArg (fun o => some (t.cursor, o)) h.current, htiled,
      past_cons ⟨_, htiled⟩ h.past⟩
  | unget => exact h.unget hrange
  | setSpace => exact ⟨h.tokens, hrange, h.current, h.saved, h.tiled, h.past⟩

theorem Moves.accounted (hm : Moves V t u) (h : t.Accounted ts) : u.Accounted ts := by
  induction hm with
  | refl => exact h
  | tail _ hm ih => exact hm.accounted ih

/-! At an end token. -/

theorem Sees.le_of_sees (hi : t.Sees j i) {i' : Nat} (hi' : t.Sees j i') : i ≤ i' := by
  have hlt := hi'.lt
  by_cases hj : j < t.tokens.length
  · by_contra hle
    -- The nearer of the two would be a hidden blank, which cannot be seen.
    obtain ⟨hv, s, hs, hspace⟩ := hi.hidden i' (hi'.le hj) (by omega)
    have := hi'.visible hv s hs
    simp [this] at hspace
  · have := hi.past (by omega)
    have := hi'.past (by omega)
    omega

/-- What is seen depends on the tokens and on whether blanks are. -/
theorem Sees.congr (h : t.Sees j i) (htokens : u.tokens = t.tokens)
    (hv : u.spaceVisible = t.spaceVisible) : u.Sees j i := by
  constructor <;> rw [htokens]
  · exact h.lt
  · exact h.le
  · exact h.past
  · exact hv.symm ▸ h.hidden
  · exact hv.symm ▸ h.visible

/-- All that can be consumed is the end token at `i`, also after taking back. -/
structure Stuck (seen : Bool) (i : Nat) (t : Tape) : Prop where
  visible : t.spaceVisible = seen
  eof : ∃ s, t.tokens[i]? = some s ∧ s.isEof
  cursor : t.Sees t.cursor i
  saved : ∀ p ∈ t.saved, t.Sees p.1 i

theorem Move.stuck (hm : Move (· = seen) t u) (h : Stuck seen i t) : Stuck seen i u ∧
    ∃ new, u.history = new ++ t.history ∧ ∀ x, .took x ∈ new → x.index = i := by
  obtain ⟨hv, ⟨e, he, heof⟩, hcursor, hsaved⟩ := h
  cases hm with
  | @take j s hs hsome hnext =>
    obtain rfl : j = i := le_antisymm (hs.le_of_sees hcursor) (hcursor.le_of_sees hs)
    obtain rfl : e = s := Option.some.inj (he.symm.trans hsome)
    have hstay : (t.take j e).cursor = t.cursor := if_pos heof
    refine ⟨⟨hv, ⟨e, he, heof⟩, ?_, fun p hp => ?_⟩, [.took ⟨t.cursor, j, t.spaceVisible⟩], rfl,
      by simp⟩
    · exact hstay.symm ▸ hcursor.congr rfl rfl
    · exact Option.some.inj hp ▸ hcursor.congr rfl rfl
  | unget =>
    unfold Tape.unget
    split
    next c current hc =>
      exact ⟨⟨hv, ⟨e, he, heof⟩, (hsaved _ hc).congr rfl rfl, by simp⟩, [.back], rfl, by simp⟩
    next hc =>
      exact ⟨⟨hv, ⟨e, he, heof⟩, hcursor.congr rfl rfl, by simp [hc]⟩, [.back], rfl, by simp⟩
  | setSpace hseen =>
    have heq : (t.withSpace _).spaceVisible = t.spaceVisible := hseen.trans hv.symm
    exact ⟨⟨hseen, ⟨e, he, heof⟩, hcursor.congr rfl heq, fun p hp => (hsaved p hp).congr rfl heq⟩,
      [], rfl, by simp⟩

theorem Moves.stuck (hm : Moves (· = seen) t u) (h : Stuck seen i t) : Stuck seen i u ∧
    ∃ new, u.history = new ++ t.history ∧ ∀ x, .took x ∈ new → x.index = i := by
  induction hm with
  | refl => exact ⟨h, [], rfl, by simp⟩
  | tail _ hm ih =>
    obtain ⟨hstuck, new, hnew, hindex⟩ := ih
    obtain ⟨hstuck, newer, hnewer, hindex'⟩ := hm.stuck hstuck
    refine ⟨hstuck, newer ++ new, by rw [hnewer, hnew, List.append_assoc], fun x hx => ?_⟩
    exact (List.mem_append.mp hx).elim (hindex' x) (hindex x)

theorem Stuck.get (h : Stuck seen i t) (hrange : t.InRange) :
    ∃ u, t.get = some (.eof, u) ∧ u.current = some i := by
  obtain ⟨j, s, hs, hsome, -, hget⟩ := hrange.get_cases
  obtain ⟨-, ⟨e, he, heof⟩, hcursor, -⟩ := h
  obtain rfl : j = i := le_antisymm (hs.le_of_sees hcursor) (hcursor.le_of_sees hs)
  obtain rfl : e = s := Option.some.inj (he.symm.trans hsome)
  have hkind : e.kind = .eof := of_decide_eq_true heof
  exact ⟨_, hkind ▸ hget, rfl⟩

theorem InRange.stuck (h : t.InRange) (hget : t.get = some (.eof, u)) :
    u.cursor = t.cursor ∧ ∃ i, u.current = some i ∧ Stuck t.spaceVisible i u := by
  obtain ⟨i, s, hs, hsome, -, hcases⟩ := h.get_cases
  obtain ⟨hkind, rfl⟩ := Prod.mk.inj (Option.some.inj (hget.symm.trans hcases))
  have heof : s.isEof := decide_eq_true hkind.symm
  have hstay : (t.take i s).cursor = t.cursor := if_pos heof
  refine ⟨hstay, i, rfl, rfl, ⟨s, hsome, heof⟩, ?_, fun p hp => ?_⟩
  · exact hstay.symm ▸ hs.congr rfl rfl
  · exact Option.some.inj hp ▸ hs.congr rfl rfl

/-- What a tape on `ts` has consumed, now and at any time before. -/
structure Consumes (ts : List Token) (t : Tape) : Prop where
  orderly : ∀ h, h <:+ t.history → Orderly ts (taken h)
  behind : ∀ k < t.cursor, Passed ts (taken t.history) k
  /-- The current token is the last one consumed and not taken back. -/
  current : t.current = (taken t.history).head?.map Take.index
  /-- A get that meets an end token leaves the cursor, and while visibility stays nothing but that
  token is consumed. -/
  ended : ∀ u, t.get = some (.eof, u) → u.cursor = t.cursor ∧ ∃ i, u.current = some i ∧
    ∀ script, Within (· = t.spaceVisible) script → ∃ reports v new,
      u.runScript script = some (reports, v) ∧ v.history = new ++ u.history ∧
      (∀ x, .took x ∈ new → x.index = i) ∧ ∃ w, v.get = some (.eof, w) ∧ w.current = some i

theorem Accounted.consumes (h : t.Accounted ts) : Consumes ts t where
  orderly h' hh := by
    obtain ⟨c, htiled⟩ := h.past h' hh
    exact htiled.orderly
  behind := h.tiled.behind
  current := h.current
  ended u hget := by
    obtain ⟨hcursor, i, hi, hstuck⟩ := h.inRange.stuck hget
    obtain ⟨u', hm, hget', -⟩ := h.inRange.get_eq (· = t.spaceVisible)
    obtain ⟨-, rfl⟩ := Prod.mk.inj (Option.some.inj (hget'.symm.trans hget))
    have hrange := hm.inRange h.inRange
    -- The run goes on from a stuck tape, and each move leaves it stuck.
    refine ⟨hcursor, i, hi, fun script hw => ?_⟩
    obtain ⟨reports, v, hms, hv, -⟩ := runScript_eq script u' hrange hstuck.visible hw
    obtain ⟨hstuck, new, hnew, hindex⟩ := hms.stuck hstuck
    exact ⟨reports, v, new, hv, hnew, hindex, hstuck.get (hms.inRange hrange)⟩

/-- A script never reaches for a token that there is not: the tokens are the ones given, and an end
token if they lack one. What it consumes comes in order, none twice and none left out but hidden
blanks; and a scope leaves visible what was visible before. -/
theorem runScript_consumes (us : List Token) (script : List Step) :
    (∃ reports t, (ofTokens us).runScript script = some (reports, t) ∧
      Stream.runScript (.ofTokens us) script = (reports, t.stream) ∧
      Consumes (Cursor.withEnd us) t) ∧
    WithEnd us (Cursor.withEnd us) ∧
    ∀ (s : Stream) seen inner, ∃ reports after,
      s.runStep (.scope seen inner) = .mk .nothing (some reports) after ∧
        after.spaceVisible = s.spaceVisible := by
  refine ⟨?_, withEnd_spec us, fun s seen inner => ⟨_, _, rfl, rfl⟩⟩
  obtain ⟨reports, t, hm, ht, hs⟩ := runScript_ofTokens us script
  exact ⟨reports, t, ht, hs, (hm.accounted (ofTokens_accounted us)).consumes⟩

end Tape
end Stylesheet
