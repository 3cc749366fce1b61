import Mathlib
import Stylesheet.Stream

/-! A stream as indices into its tokens. Every access is checked, and one outside the tokens ends
the run; none does, and the answers are those of the stream. -/
namespace Stylesheet
open Stylesheet.Stream (Step Report)

/-- A token consumed: where the cursor stood, the index of the token, and whether blanks were
visible. -/
structure Take where
  start : Nat
  index : Nat
  spaceVisible : Bool

/-- A token consumed, or the wish to take that back. -/
inductive Change where
  | took (x : Take)
  | back

/-- The state of a stream in indices. The changes, newest first, are only noted down. -/
structure Tape where
  tokens : List Token
  cursor : Nat
  current : Option Nat
  saved : Option (Nat × Option Nat)
  spaceVisible : Bool
  history : List Change

namespace Tape

def ofTokens (ts : List Token) : Tape := ⟨Cursor.withEnd ts, 0, none, none, false, []⟩

def last? (t : Tape) : Option Nat := if t.tokens.length = 0 then none else some (t.tokens.length - 1)

def skipBlanks (t : Tape) (last i : Nat) : Option Nat :=
  if i < last ∧ t.spaceVisible = false then
    match t.tokens[i]? with
    | some s => if s.isSpace then t.skipBlanks last (i + 1) else some i
    | none => none
  else some i
termination_by last - i

/-- The index of the next visible token from `i` on, and no farther than the last one. -/
def visibleFrom (t : Tape) (i : Nat) : Option Nat := do
  let last ← t.last?
  let j ← t.skipBlanks last i
  return min j last

/-- The index of the `n`-th visible token behind `i`. -/
def skip (t : Tape) : Nat → Nat → Option Nat
  | 0, i => some i
  | n + 1, i => do t.skip n (← t.visibleFrom (i + 1))

/-- Behind the token at `i`, or where it was before an end token. -/
def take (t : Tape) (i : Nat) (s : Token) : Tape where
  tokens := t.tokens
  cursor := if s.isEof then t.cursor else i + 1
  current := some i
  saved := some (t.cursor, t.current)
  spaceVisible := t.spaceVisible
  history := .took ⟨t.cursor, i, t.spaceVisible⟩ :: t.history

def get (t : Tape) : Option (Kind × Tape) := do
  let i ← t.visibleFrom t.cursor
  let s ← t.tokens[i]?
  return (s.kind, t.take i s)

def unget (t : Tape) : Tape :=
  match t.saved with
  | some (cursor, current) => { t with cursor, current, saved := none, history := .back :: t.history }
  | none => { t with history := .back :: t.history }

def token (t : Tape) : Option Token := t.tokens[t.current.getD 0]?

def lookahead (t : Tape) (n : Nat) : Option Token := do
  let i ← t.visibleFrom t.cursor
  let j ← t.skip (n - 1) i
  t.tokens[j]?

def peek (t : Tape) : Option Kind := (t.lookahead 1).map Token.kind

def accept (t : Tape) (ks : List Kind) : Option (Bool × Tape) := do
  if (← t.peek) ∈ ks then return (true, (← t.get).2) else return (false, t)

def expect (t : Tape) (ks : List Kind) : Option (Except ParseError Tape) := do
  let (matched, u) ← t.accept ks
  if matched then return .ok u else return .error (.atToken (← u.lookahead 1))

def withSpace (t : Tape) (seen : Bool) : Tape := { t with spaceVisible := seen }

/-- The tokens ahead of an index, but for the end token behind them all. -/
def ahead (t : Tape) (i : Nat) : List Token := t.tokens.dropLast.drop i

/-- The token that an index of the current one stands for. -/
def tokenAt (t : Tape) (i : Option Nat) : Token := t.tokens.getD (i.getD 0) (Cursor.endAfter [])

/-- The stream that the indices describe. -/
def stream (t : Tape) : Stream where
  cursor := ⟨t.ahead t.cursor, t.tokens.getLastD (Cursor.endAfter []), t.tokenAt t.current,
    t.spaceVisible⟩
  saved := t.saved.map fun (i, j) => ⟨t.ahead i, t.tokenAt j⟩

mutual

def runStep (t : Tape) : Step → Option (Report × Tape)
  | .get => do
    let (k, u) ← t.get
    return (.mk (.kind k) none u.stream, u)
  | .unget => some (.mk .nothing none t.unget.stream, t.unget)
  | .peek => do return (.mk (.kind (← t.peek)) none t.stream, t)
  | .accept ks => do
    let (matched, u) ← t.accept ks
    return (.mk (.matched matched) none u.stream, u)
  | .expect ks => do
    match ← t.expect ks with
    | .ok u => return (.mk (.matched true) none u.stream, u)
    | .error e => return (.mk (.failed e) none t.stream, t)
  | .token => do return (.mk (.token (← t.token)) none t.stream, t)
  | .lookahead n => do return (.mk (.token (← t.lookahead n)) none t.stream, t)
  | .setSpace seen => some (.mk .nothing none (t.withSpace seen).stream, t.withSpace seen)
  | .scope seen script => do
    let (inner, u) ← runScript (t.withSpace seen) script
    let u := u.withSpace t.spaceVisible
    return (.mk .nothing (some inner) u.stream, u)

def runScript (t : Tape) : List Step → Option (List Report × Tape)
  | [] => some ([], t)
  | step :: script => do
    let (report, u) ← runStep t step
    let (reports, v) ← runScript u script
    return (report :: reports, v)

end

/-- No index is outside the tokens, and these end with an end token. -/
structure InRange (t : Tape) : Prop where
  ended : ∃ ts e, t.tokens = ts ++ [e] ∧ e.isEof
  cursor : t.cursor < t.tokens.length
  current : ∀ i ∈ t.current, i < t.tokens.length
  saved : ∀ p ∈ t.saved, p.1 < t.tokens.length ∧ ∀ i ∈ p.2, i < t.tokens.length

/-- From `j` on the next visible token is that at `i`. -/
structure Sees (t : Tape) (j i : Nat) : Prop where
  lt : i < t.tokens.length
  le : j < t.tokens.length → j ≤ i
  past : t.tokens.length ≤ j → i + 1 = t.tokens.length
  hidden : ∀ k, j ≤ k → k < i → t.spaceVisible = false ∧ ∃ s, t.tokens[k]? = some s ∧ s.isSpace
  visible : t.spaceVisible = false → ∀ s, t.tokens[i]? = some s → s.isSpace = false

variable {t : Tape} {ts : List Token} {e : Token} {i j : Nat}

theorem not_isSpace_of_isEof (he : e.isEof) : e.isSpace = false := by
  simp_all [Token.isEof, Token.isSpace]

theorem skipBlanks_spec (h : t.tokens = ts ++ [e]) (j : Nat) :
    ∃ i, t.skipBlanks ts.length j = some i ∧ j ≤ i ∧ i ≤ max j ts.length ∧
      (∀ k, j ≤ k → k < i → t.spaceVisible = false ∧ ∃ s, t.tokens[k]? = some s ∧ s.isSpace) ∧
      (t.spaceVisible = false → i < ts.length →
        ∀ s, t.tokens[i]? = some s → s.isSpace = false) := by
  fun_induction skipBlanks t ts.length j with
  | case1 j hj s hs hspace ih =>
    obtain ⟨i, hi, hle, hmax, hhidden, hvisible⟩ := ih
    refine ⟨i, hi, by omega, by omega, fun k hk hki => ?_, hvisible⟩
    rcases Nat.eq_or_lt_of_le hk with rfl | hk
    · exact ⟨hj.2, s, hs, hspace⟩
    · exact hhidden k hk hki
  | case2 j hj s hs hspace =>
    refine ⟨j, rfl, le_rfl, by omega, fun k _ _ => by omega, fun _ _ r hr => ?_⟩
    rw [hs] at hr
    exact Option.some.inj hr ▸ Bool.of_not_eq_true hspace
  | case3 j hj hnone =>
    have := List.getElem?_eq_none_iff.mp hnone
    rw [h, List.length_append] at this
    omega
  | case4 j hj =>
    exact ⟨j, rfl, le_rfl, by omega, fun k _ _ => by omega, fun hv hlt => absurd ⟨hlt, hv⟩ hj⟩

theorem visibleFrom_spec (h : t.tokens = ts ++ [e]) (he : e.isEof) (j : Nat) :
    ∃ i, t.visibleFrom j = some i ∧ t.Sees j i := by
  obtain ⟨i, hi, hle, hmax, hhidden, hvisible⟩ := skipBlanks_spec h j
  have hlen : t.tokens.length = ts.length + 1 := by rw [h, List.length_append]; rfl
  have hlast : t.last? = some ts.length := by rw [last?, hlen, if_neg (by omega)]; rfl
  refine ⟨min i ts.length, by simp [visibleFrom, hlast, hi], by omega, by omega, by omega,
    fun k hjk hk => hhidden k hjk (by omega), fun hv s hs => ?_⟩
  by_cases hlt : i < ts.length
  · rw [min_eq_left hlt.le] at hs
    exact hvisible hv hlt s hs
  · rw [min_eq_right (by omega), h, List.getElem?_concat_length] at hs
    exact Option.some.inj hs ▸ not_isSpace_of_isEof he

section
variable (h : t.tokens = ts ++ [e])
include h

theorem getElem?_tokens (hi : i < t.tokens.length) : t.tokens[i]? = some ((ts.drop i).headD e) := by
  rw [h, List.length_append, List.length_singleton] at hi
  rw [h, List.headD_eq_head?_getD, List.head?_drop]
  obtain hlt | rfl := Nat.lt_or_eq_of_le (Nat.le_of_lt_succ hi)
  · simp [List.getElem?_append_left hlt, hlt]
  · simp

/-- What is passed over are blanks, and only while they are hidden. -/
theorem Sees.drop_eq (hs : t.Sees j i) : ∃ blanks, ts.drop j = blanks ++ ts.drop i ∧
    ∀ s ∈ blanks, t.spaceVisible = false ∧ s.isSpace := by
  have hlen : t.tokens.length = ts.length + 1 := by rw [h, List.length_append]; rfl
  by_cases hj : j < t.tokens.length
  · refine ⟨(ts.drop j).take (i - j), ?_, fun s hmem => ?_⟩
    · have hdrop : ts.drop i = (ts.drop j).drop (i - j) := by
        rw [List.drop_drop, Nat.add_sub_cancel' (hs.le hj)]
      rw [hdrop, List.take_append_drop]
    · obtain ⟨m, hm, rfl⟩ := List.mem_take_iff_getElem.mp hmem
      rw [List.length_drop] at hm
      obtain ⟨hhidden, s, hsome, hspace⟩ := hs.hidden (j + m) (by omega) (by omega)
      rw [h, List.getElem?_append_left (by omega), List.getElem?_eq_getElem (by omega)] at hsome
      refine ⟨hhidden, ?_⟩
      rw [List.getElem_drop, Option.some.inj hsome]
      exact hspace
  · have := hs.past (by omega)
    refine ⟨[], ?_, by simp⟩
    rw [List.drop_of_length_le (by omega), List.drop_of_length_le (by omega), List.nil_append]

theorem Sees.drop_of_visible (hs : t.Sees j i) (hv : t.spaceVisible = true) :
    ts.drop j = ts.drop i := by
  obtain ⟨blanks, hj, hblanks⟩ := hs.drop_eq h
  have hnil : blanks = [] :=
    List.eq_nil_iff_forall_not_mem.mpr fun s hmem => by simpa [hv] using hblanks s hmem
  rw [hj, hnil, List.nil_append]

theorem Sees.not_isSpace_head (hs : t.Sees j i) (hv : t.spaceVisible = false) :
    ∀ s ∈ (ts.drop i).head?, s.isSpace = false := by
  intro s hmem
  refine hs.visible hv s ?_
  rw [getElem?_tokens h hs.lt, List.headD_eq_head?_getD, hmem, Option.getD_some]

/-- The tokens of a list that can be seen. -/
def shown (seen : Bool) (l : List Token) : List Token :=
  if seen then l else l.filter (!·.isSpace)

theorem Sees.shown_eq (hs : t.Sees j i) : shown t.spaceVisible (ts.drop j) =
    (ts.drop i).take 1 ++ shown t.spaceVisible (ts.drop (i + 1)) := by
  rw [← List.tail_drop]
  cases hv : t.spaceVisible with
  | true =>
    rw [hs.drop_of_visible h hv]
    cases ts.drop i <;> rfl
  | false =>
    obtain ⟨blanks, hj, hblanks⟩ := hs.drop_eq h
    have hfilter : blanks.filter (!·.isSpace) = [] :=
      List.filter_eq_nil_iff.mpr fun s hmem => by simp [(hblanks s hmem).2]
    rw [hj]
    cases hi : ts.drop i with
    | nil => simp [shown, hfilter]
    | cons s r =>
      have hspace : s.isSpace = false := hs.not_isSpace_head h hv s (by rw [hi]; rfl)
      simp [shown, hfilter, hspace]

theorem stream_cursor : t.stream.cursor =
    ⟨ts.drop t.cursor, e, t.tokenAt t.current, t.spaceVisible⟩ := by
  simp [stream, ahead, h]

theorem Sees.visible_eq (hs : t.Sees t.cursor i) : t.stream.cursor.visible = ts.drop i := by
  rw [stream_cursor h, Cursor.visible]
  dsimp only
  cases hv : t.spaceVisible with
  | true => rw [if_pos rfl, hs.drop_of_visible h hv]
  | false =>
    obtain ⟨blanks, hj, hblanks⟩ := hs.drop_eq h
    rw [if_neg (by simp), hj, List.dropWhile_append_of_pos fun s hmem => (hblanks s hmem).2]
    cases hi : ts.drop i with
    | nil => rfl
    | cons s r =>
      have hspace : s.isSpace = false := hs.not_isSpace_head h hv s (by rw [hi]; rfl)
      rw [List.dropWhile_cons_of_neg (by simp [hspace])]

theorem Sees.advance_eq (he : e.isEof) (hs : t.Sees t.cursor i) {s : Token}
    (hsome : t.tokens[i]? = some s) : t.stream.cursor.advance =
      ⟨ts.drop (if s.isEof then t.cursor else i + 1), e, s, t.spaceVisible⟩ := by
  have hvisible := hs.visible_eq h
  have hhead := (getElem?_tokens h hs.lt).symm.trans hsome
  rw [Cursor.advance, hvisible, stream_cursor h]
  cases hi : ts.drop i with
  | nil =>
    obtain rfl : e = s := by simpa [hi] using hhead
    rw [if_pos he]
  | cons r rest =>
    obtain rfl : r = s := by simpa [hi] using hhead
    have hrest : ts.drop (i + 1) = rest := by rw [← List.tail_drop, hi, List.tail_cons]
    cases hr : r.isEof <;> simp [hr, hrest]

theorem skip_eq (he : e.isEof) (n j : Nat) : ∃ i, t.visibleFrom j = some i ∧
    ∃ k, t.skip n i = some k ∧
      t.tokens[k]? = some ((shown t.spaceVisible (ts.drop j)).getD n e) := by
  induction n generalizing j with
  | zero =>
    obtain ⟨i, hi, hs⟩ := visibleFrom_spec h he j
    refine ⟨i, hi, i, rfl, ?_⟩
    rw [getElem?_tokens h hs.lt, hs.shown_eq h, ← List.tail_drop]
    cases ts.drop i <;> simp [shown]
  | succ n ih =>
    obtain ⟨i, hi, hs⟩ := visibleFrom_spec h he j
    obtain ⟨m, hm, k, hk, htoken⟩ := ih (i + 1)
    refine ⟨i, hi, k, by simp [skip, hm, hk], ?_⟩
    rw [htoken, hs.shown_eq h, ← List.tail_drop]
    cases ts.drop i <;> simp [shown]

end

theorem tokenAt_eq {current : Option Nat} {s : Token} (h : t.tokens[current.getD 0]? = some s) :
    t.tokenAt current = s := by
  rw [tokenAt, List.getD_eq_getElem?_getD, h, Option.getD_some]

/-- All that an operation can do to a tape, where `V` holds of what visibility is set to. -/
inductive Move (V : Bool → Prop) (t : Tape) : Tape → Prop
  | take {i : Nat} {s : Token} (hs : t.Sees t.cursor i) (hsome : t.tokens[i]? = some s)
      (hnext : s.isEof = false → i + 1 < t.tokens.length) : Move V t (t.take i s)
  | unget : Move V t t.unget
  | setSpace {seen : Bool} (h : V seen) : Move V t (t.withSpace seen)

variable {V : Bool → Prop} {u : Tape}

theorem Move.inRange (hm : Move V t u) (h : t.InRange) : u.InRange := by
  cases hm with
  | @take i s hs hsome hnext =>
    refine ⟨h.ended, ?_, fun j hj => Option.some.inj hj ▸ hs.lt, fun p hp =>
      Option.some.inj hp ▸ ⟨h.cursor, h.current⟩⟩
    cases hopen : s.isEof with
    | true => simpa [Tape.take, hopen] using h.cursor
    | false => simpa [Tape.take, hopen] using hnext hopen
  | unget =>
    unfold Tape.unget
    split
    next i j hsaved =>
      have hrange := h.saved _ hsaved
      exact ⟨h.ended, hrange.1, hrange.2, by simp⟩
    next => exact ⟨h.ended, h.cursor, h.current, h.saved⟩
  | setSpace => exact ⟨h.ended, h.cursor, h.current, h.saved⟩

theorem Move.spaceVisible (hm : Move V t u) (h : V t.spaceVisible) : V u.spaceVisible := by
  cases hm with
  | take => exact h
  | unget =>
    unfold Tape.unget
    split <;> exact h
  | setSpace hv => exact hv

theorem unget_stream (t : Tape) : t.unget.stream = t.stream.unget := by
  unfold unget
  split
  next i j hsaved => simp [Stream.unget, stream, hsaved, ahead, tokenAt]
  next hsaved => simp [Stream.unget, stream, hsaved, ahead, tokenAt]

theorem withSpace_stream (t : Tape) (seen : Bool) :
    (t.withSpace seen).stream = t.stream.setSpaceVisible seen := rfl

/-! Each operation succeeds, as that of the stream. -/
namespace InRange
variable (h : t.InRange)
include h

theorem lookahead_eq (n : Nat) : t.lookahead n = some (t.stream.lookahead n) := by
  obtain ⟨ts, e, htokens, he⟩ := h.ended
  obtain ⟨i, hi, k, hk, htoken⟩ := skip_eq htokens he (n - 1) t.cursor
  rw [Stream.lookahead, stream_cursor htokens]
  simpa [lookahead, hi, hk, Cursor.lookahead, shown] using htoken

theorem next_eq : t.lookahead 1 = some t.stream.cursor.next := by
  obtain ⟨ts, e, htokens, he⟩ := h.ended
  obtain ⟨i, hi, hs⟩ := visibleFrom_spec htokens he t.cursor
  rw [Cursor.next, hs.visible_eq htokens, stream_cursor htokens]
  simpa [lookahead, hi, skip] using getElem?_tokens htokens hs.lt

theorem peek_eq : t.peek = some t.stream.peek := by
  rw [peek, h.next_eq, Option.map_some, Stream.peek]

theorem token_eq : t.token = some t.stream.current := by
  have hlt : t.current.getD 0 < t.tokens.length := by
    cases hc : t.current with
    | none => exact Nat.zero_lt_of_lt h.cursor
    | some i => exact h.current i hc
  have hsome := List.getElem?_eq_getElem hlt
  exact hsome.trans (congrArg some (tokenAt_eq hsome).symm)

theorem get_cases : ∃ i s, t.Sees t.cursor i ∧ t.tokens[i]? = some s ∧
    (s.isEof = false → i + 1 < t.tokens.length) ∧ t.get = some (s.kind, t.take i s) := by
  obtain ⟨ts, e, htokens, he⟩ := h.ended
  obtain ⟨i, hi, hs⟩ := visibleFrom_spec htokens he t.cursor
  obtain ⟨s, hsome⟩ : ∃ s, t.tokens[i]? = some s := ⟨_, getElem?_tokens htokens hs.lt⟩
  refine ⟨i, s, hs, hsome, fun hopen => ?_, by simp [get, hi, hsome]⟩
  have hlt := hs.lt
  have hlen : t.tokens.length = ts.length + 1 := by rw [htokens, List.length_append]; rfl
  have hne : i ≠ ts.length := by
    rintro rfl
    rw [htokens, List.getElem?_concat_length, Option.some_inj] at hsome
    rw [← hsome, he] at hopen
    exact absurd hopen (by simp)
  omega

theorem get_eq (V : Bool → Prop) : ∃ u, Move V t u ∧
    t.get = some (t.stream.get.current.kind, u) ∧ u.stream = t.stream.get := by
  obtain ⟨ts, e, htokens, he⟩ := h.ended
  obtain ⟨i, s, hs, hsome, hnext, hget⟩ := h.get_cases
  have hadvance := hs.advance_eq htokens he hsome
  have hcursor : (t.take i s).stream.cursor = t.stream.cursor.advance := by
    have htaken : (t.take i s).tokens = ts ++ [e] := htokens
    have hcurrent : (t.take i s).tokenAt (some i) = s := tokenAt_eq hsome
    rw [hadvance, stream_cursor htaken]
    exact congrArg (Cursor.mk _ e · t.spaceVisible) hcurrent
  refine ⟨_, .take hs hsome hnext, ?_, ?_⟩
  · rw [hget, Stream.current, Stream.get, hadvance]
  · exact congrArg (Stream.mk · (some ⟨t.ahead t.cursor, t.tokenAt t.current⟩)) hcursor

theorem accept_eq (V : Bool → Prop) (ks : List Kind) :
    (∃ u, Move V t u ∧ t.accept ks = some (true, u) ∧ t.stream.accept? ks = some u.stream) ∨
      t.accept ks = some (false, t) ∧ t.stream.accept? ks = none := by
  obtain ⟨u, hm, hu, hstream⟩ := h.get_eq V
  by_cases hk : t.stream.peek ∈ ks
  · exact .inl ⟨u, hm, by simp [accept, h.peek_eq, hk, hu], by simp [Stream.accept?, hk, hstream]⟩
  · exact .inr ⟨by simp [accept, h.peek_eq, hk], by simp [Stream.accept?, hk]⟩

theorem expect_eq (V : Bool → Prop) (ks : List Kind) :
    (∃ u, Move V t u ∧ t.expect ks = some (.ok u) ∧ t.stream.expect ks = .ok u.stream) ∨
      ∃ e, t.expect ks = some (.error e) ∧ t.stream.expect ks = .error e := by
  obtain ⟨u, hm, hu, hs⟩ | ⟨hu, hs⟩ := h.accept_eq V ks
  · exact .inl ⟨u, hm, by simp [expect, hu], by simp [Stream.expect, hs]⟩
  · exact .inr ⟨.atToken t.stream.cursor.next, by simp [expect, hu, h.next_eq],
      by simp [Stream.expect, hs]⟩

end InRange

/-! Scripts. -/

mutual

/-- Every visibility that a step sets, also inside a scope, is one that `V` holds of. -/
def StepWithin (V : Bool → Prop) : Step → Prop
  | .setSpace seen => V seen
  | .scope seen script => V seen ∧ Within V script
  | _ => True

def Within (V : Bool → Prop) : List Step → Prop
  | [] => True
  | step :: script => StepWithin V step ∧ Within V script

end

mutual

theorem stepWithin_true : ∀ step, StepWithin (fun _ => True) step
  | .scope _ script => ⟨trivial, within_true script⟩
  | .get | .unget | .peek | .accept _ | .expect _ | .token | .lookahead _ | .setSpace _ => trivial

theorem within_true : ∀ script, Within (fun _ => True) script
  | [] => trivial
  | step :: script => ⟨stepWithin_true step, within_true script⟩

end

/-- One operation after the other. -/
abbrev Moves (V : Bool → Prop) : Tape → Tape → Prop := Relation.ReflTransGen (Move V)

theorem Moves.inRange (hm : Moves V t u) (h : t.InRange) : u.InRange := by
  induction hm with
  | refl => exact h
  | tail _ hm ih => exact hm.inRange ih

theorem Moves.spaceVisible (hm : Moves V t u) (h : V t.spaceVisible) : V u.spaceVisible := by
  induction hm with
  | refl => exact h
  | tail _ hm ih => exact hm.spaceVisible ih

mutual

theorem runStep_eq : ∀ (step : Step) (t : Tape), t.InRange → V t.spaceVisible → StepWithin V step →
    ∃ reply inner u, Moves V t u ∧ t.runStep step = some (.mk reply inner u.stream, u) ∧
      Stream.runStep t.stream step = .mk reply inner u.stream
  | .get, t, h, _, _ => by
    obtain ⟨u, hm, hu, hs⟩ := h.get_eq V
    exact ⟨.kind t.stream.get.current.kind, none, u, .single hm, by simp [runStep, hu],
      by rw [Stream.runStep, hs]⟩
  | .unget, t, _, _, _ =>
    ⟨.nothing, none, t.unget, .single .unget, rfl, by rw [Stream.runStep, unget_stream]⟩
  | .peek, t, h, _, _ => ⟨.kind t.stream.peek, none, t, .refl, by simp [runStep, h.peek_eq], rfl⟩
  | .accept ks, t, h, _, _ => by
    obtain ⟨u, hm, hu, hs⟩ | ⟨hu, hs⟩ := h.accept_eq V ks
    · exact ⟨.matched true, none, u, .single hm, by simp [runStep, hu], by simp [Stream.runStep, hs]⟩
    · exact ⟨.matched false, none, t, .refl, by simp [runStep, hu], by simp [Stream.runStep, hs]⟩
  | .expect ks, t, h, _, _ => by
    obtain ⟨u, hm, hu, hs⟩ | ⟨e, hu, hs⟩ := h.expect_eq V ks
    · exact ⟨.matched true, none, u, .single hm, by simp [runStep, hu], by simp [Stream.runStep, hs]⟩
    · exact ⟨.failed e, none, t, .refl, by simp [runStep, hu], by simp [Stream.runStep, hs]⟩
  | .token, t, h, _, _ =>
    ⟨.token t.stream.current, none, t, .refl, by simp [runStep, h.token_eq], rfl⟩
  | .lookahead n, t, h, _, _ =>
    ⟨.token (t.stream.lookahead n), none, t, .refl, by simp [runStep, h.lookahead_eq], rfl⟩
  | .setSpace seen, t, _, _, hw =>
    ⟨.nothing, none, t.withSpace seen, .single (.setSpace hw), rfl, rfl⟩
  | .scope seen script, t, h, hv, hw => by
    -- The script runs between two settings of visibility, of which the second restores it.
    have hm : Move V t (t.withSpace seen) := .setSpace hw.1
    obtain ⟨inner, u, hmoves, hu, hs⟩ := runScript_eq script _ (hm.inRange h) hw.1 hw.2
    refine ⟨.nothing, some inner, u.withSpace t.spaceVisible,
      (hmoves.head hm).tail (.setSpace hv), by simp [runStep, hu], ?_⟩
    rw [withSpace_stream] at hs
    rw [Stream.runStep, hs]
    rfl

theorem runScript_eq : ∀ (script : List Step) (t : Tape), t.InRange → V t.spaceVisible →
    Within V script → ∃ reports u, Moves V t u ∧ t.runScript script = some (reports, u) ∧
      Stream.runScript t.stream script = (reports, u.stream)
  | [], t, _, _, _ => ⟨[], t, .refl, rfl, rfl⟩
  | step :: script, t, h, hv, hw => by
    obtain ⟨reply, inner, u, hm, hu, hs⟩ := runStep_eq step t h hv hw.1
    obtain ⟨reports, w, hms, hw, hss⟩ :=
      runScript_eq script u (hm.inRange h) (hm.spaceVisible hv) hw.2
    refine ⟨.mk reply inner u.stream :: reports, w, hm.trans hms, by simp [runScript, hu, hw], ?_⟩
    rw [Stream.runScript, hs]
    simp [hss]

end

/-- `ts` are the tokens `us`, with one end token behind them unless the last of them is one. -/
inductive WithEnd (us : List Token) : List Token → Prop
  | kept {e : Token} (h : us.getLast? = some e) (he : e.isEof) : WithEnd us us
  | supplied {e : Token} (h : ∀ t ∈ us.getLast?, t.isEof = false) (he : e.isEof) (ht : e.text = []) :
      WithEnd us (us ++ [e])

theorem withEnd_spec (us : List Token) : WithEnd us (Cursor.withEnd us) := by
  unfold Cursor.withEnd
  split
  next hlast =>
    obtain ⟨e, he, heof⟩ := (Option.any_eq_true _ _).mp hlast
    exact .kept he heof
  next hlast =>
    have hopen : ∀ t ∈ us.getLast?, t.isEof = false := fun t ht =>
      Bool.eq_false_iff.mpr fun heof => hlast ((Option.any_eq_true _ _).mpr ⟨t, ht, heof⟩)
    refine .supplied hopen ?_ ?_
    all_goals
      unfold Cursor.endAfter
      split <;> rfl

theorem WithEnd.ended {us ts : List Token} (h : WithEnd us ts) : ∃ vs e, ts = vs ++ [e] ∧ e.isEof := by
  cases h with
  | kept h he =>
    obtain ⟨vs, rfl⟩ := List.getLast?_eq_some_iff.mp h
    exact ⟨vs, _, rfl, he⟩
  | supplied _ he => exact ⟨us, _, rfl, he⟩

theorem ofTokens_inRange (ts : List Token) : (ofTokens ts).InRange := by
  obtain ⟨us, e, hts, he⟩ := (withEnd_spec ts).ended
  exact ⟨⟨us, e, hts, he⟩, by simp [ofTokens, hts], by simp [ofTokens], by simp [ofTokens]⟩

theorem ofTokens_stream (ts : List Token) : (ofTokens ts).stream = Stream.ofTokens ts := by
  obtain ⟨us, e, hts, -⟩ := (withEnd_spec ts).ended
  have hlast : ∀ d, (us ++ [e]).getLastD d = e := by simp
  have hhead : ∀ d, (us ++ [e]).headD d = (us ++ [e]).getD 0 (Cursor.endAfter []) := by
    cases us <;> simp
  simp only [stream, ofTokens, Stream.ofTokens, Cursor.ofTokens, ahead, tokenAt, hts, hlast, hhead]
  rfl

/-- No script reaches for a token that there is not, and the stream answers it as the indices do. -/
theorem runScript_ofTokens (ts : List Token) (script : List Step) :
    ∃ reports u, Moves (fun _ => True) (ofTokens ts) u ∧
      (ofTokens ts).runScript script = some (reports, u) ∧
      Stream.runScript (.ofTokens ts) script = (reports, u.stream) := by
  obtain ⟨reports, u, hm, hu, hs⟩ :=
    runScript_eq script (ofTokens ts) (ofTokens_inRange ts) trivial (within_true script)
  exact ⟨reports, u, hm, hu, ofTokens_stream ts ▸ hs⟩

end Tape
end Stylesheet
