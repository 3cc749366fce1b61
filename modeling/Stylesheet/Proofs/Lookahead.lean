import Stylesheet.Proofs.Consumption
import Stylesheet.Proofs.Reading

/-! Looking ahead and consuming agree: the `n`-th token ahead is the one that the `n`-th consumption
makes current, and behind the last one both stay at the end token. -/
namespace Stylesheet
open Tape (shown)

namespace Cursor
variable {c : Cursor} {n : Nat}

/-- No end token stands before the last token. -/
def Open (c : Cursor) : Prop := ∀ t ∈ c.ahead, t.isEof = false

/-- The tokens ahead that can be seen. -/
def sight (c : Cursor) : List Token := shown c.spaceVisible c.ahead

theorem mem_ahead_of_mem_sight {t : Token} (h : t ∈ c.sight) : t ∈ c.ahead := by
  unfold sight shown at h
  split at h
  · exact h
  · exact (List.mem_filter.mp h).1

theorem lookahead_eq (c : Cursor) (n : Nat) : c.lookahead n = c.sight.getD (n - 1) c.last := rfl

theorem sight_eq (c : Cursor) : c.sight = c.visible.take 1 ++ shown c.spaceVisible c.visible.tail := by
  cases hv : c.spaceVisible with
  | true =>
    rw [sight, visible, hv]
    cases c.ahead <;> rfl
  | false =>
    have hblanks : (c.ahead.takeWhile Token.isSpace).filter (!·.isSpace) = [] :=
      List.filter_eq_nil_iff.mpr fun t ht => by simp [List.mem_takeWhile_imp ht]
    have hfront : c.sight = (c.ahead.dropWhile Token.isSpace).filter (!·.isSpace) := by
      have hsplit : c.ahead.takeWhile Token.isSpace ++ c.ahead.dropWhile Token.isSpace = c.ahead :=
        List.takeWhile_append_dropWhile
      rw [sight, hv, shown, if_neg (by simp), ← hsplit, List.filter_append, hblanks,
        List.nil_append, hsplit]
    rw [hfront, visible, hv, if_neg (by simp)]
    cases hd : c.ahead.dropWhile Token.isSpace with
    | nil => rfl
    | cons t ts =>
      have ht : t.isSpace = false := by
        have := List.head?_dropWhile_not Token.isSpace c.ahead
        rw [hd] at this
        simpa using this
      simp [shown, ht]

theorem advance_current (c : Cursor) : c.advance.current = c.next := by
  unfold advance next
  cases c.visible with
  | nil => rfl
  | cons t ts => cases ht : t.isEof <;> simp [ht]

theorem advance_spec (h : c.Open) : c.advance.Open ∧ c.advance.last = c.last ∧
    c.advance.sight = c.sight.tail ∧ c.advance.current = c.sight.headD c.last := by
  have hsight := c.sight_eq
  unfold advance
  cases hv : c.visible with
  | nil =>
    rw [hv] at hsight
    have hnil : c.sight = [] := by simpa [shown] using hsight
    exact ⟨h, rfl, by rw [hnil]; exact hnil, by rw [hnil]; rfl⟩
  | cons t ts =>
    rw [hv] at hsight
    have hsub : ∀ u ∈ t :: ts, u ∈ c.ahead := fun u hu => c.visible_suffix.subset (hv ▸ hu)
    have ht : t.isEof = false := h t (hsub t (List.mem_cons_self ..))
    rw [hsight]
    dsimp only
    rw [if_neg (by simp [ht])]
    exact ⟨fun u hu => h u (hsub u (List.mem_cons_of_mem t hu)), rfl, rfl, rfl⟩

/-- Consuming takes what can be seen from the front, one token at a time. -/
theorem iterate_advance (h : c.Open) (n : Nat) : (advance^[n] c).Open ∧
    (advance^[n] c).last = c.last ∧ (advance^[n] c).sight = c.sight.drop n := by
  induction n with
  | zero => exact ⟨h, rfl, rfl⟩
  | succ n ih =>
    obtain ⟨hopen, hlast, hsight⟩ := ih
    obtain ⟨hopen', hlast', hsight', -⟩ := advance_spec hopen
    rw [Function.iterate_succ_apply']
    exact ⟨hopen', hlast'.trans hlast, by rw [hsight', hsight, List.tail_drop]⟩

theorem lookahead_eq_current (h : c.Open) (n : Nat) :
    c.lookahead (n + 1) = (advance^[n + 1] c).current := by
  obtain ⟨hopen, hlast, hsight⟩ := iterate_advance h n
  rw [Function.iterate_succ_apply', (advance_spec hopen).2.2.2, hsight, hlast, lookahead_eq,
    List.headD_eq_head?_getD, List.head?_drop, List.getD_eq_getElem?_getD, Nat.add_sub_cancel]

end Cursor

theorem Stream.iterate_get_cursor (s : Stream) (n : Nat) :
    (get^[n] s).cursor = Cursor.advance^[n] s.cursor := by
  induction n with
  | zero => rfl
  | succ n ih => rw [Function.iterate_succ_apply', Function.iterate_succ_apply', ← ih]; rfl

namespace Tape
variable {t u : Tape} {ts : List Token}

/-- Consumes `n` tokens. -/
def gets : Nat → Tape → Option Tape
  | 0, t => some t
  | n + 1, t => do gets n (← t.get).2

theorem InRange.gets_eq (h : t.InRange) (n : Nat) :
    ∃ u, t.gets n = some u ∧ u.InRange ∧ u.stream = Stream.get^[n] t.stream := by
  induction n generalizing t with
  | zero => exact ⟨t, rfl, h, rfl⟩
  | succ n ih =>
    obtain ⟨v, hm, hget, hv⟩ := h.get_eq fun _ => True
    obtain ⟨u, hu, hrange, hstream⟩ := ih (hm.inRange h)
    exact ⟨u, by simp [gets, hget, hu], hrange, by rw [hstream, hv, Function.iterate_succ_apply]⟩

/-- What can be seen ahead is what will be consumed. -/
structure Foresees (t : Tape) : Prop where
  lookahead : ∀ n, 1 ≤ n → ∃ u s, t.gets n = some u ∧ u.token = some s ∧ t.lookahead n = some s
  peek : ∃ k u, t.get = some (k, u) ∧ t.peek = some k
  /-- From some number on, all that is seen and consumed is the last token. -/
  past : ∃ m, ∀ n, 1 ≤ n → ∃ s, t.lookahead n = some s ∧ (s.isEof ↔ m < n) ∧
    (m < n → t.tokens.getLast? = some s)
  stream : ∀ n, 1 ≤ n → t.stream.lookahead n = (Stream.get^[n] t.stream).current

theorem InRange.past (h : t.InRange) (hopen : t.stream.cursor.Open) : ∃ m, ∀ n, 1 ≤ n →
    ∃ s, t.lookahead n = some s ∧ (s.isEof ↔ m < n) ∧ (m < n → t.tokens.getLast? = some s) := by
  obtain ⟨ts, e, htokens, he⟩ := h.ended
  have hlast : t.stream.cursor.last = e := by rw [stream_cursor htokens]
  refine ⟨t.stream.cursor.sight.length, fun n hn => ⟨_, h.lookahead_eq n, ?_⟩⟩
  rw [Stream.lookahead, Cursor.lookahead_eq, hlast, List.getD_eq_getElem?_getD]
  obtain hlt | hge := Nat.lt_or_ge (n - 1) t.stream.cursor.sight.length
  · have hmem : t.stream.cursor.sight[n - 1] ∈ t.stream.cursor.ahead :=
      Cursor.mem_ahead_of_mem_sight (List.getElem_mem hlt)
    rw [List.getElem?_eq_getElem hlt, Option.getD_some, hopen _ hmem]
    exact ⟨by simp; omega, fun hm => absurd hm (by omega)⟩
  · rw [List.getElem?_eq_none hge, Option.getD_none, he, htokens]
    exact ⟨by simp; omega, fun _ => by simp⟩

theorem InRange.foresees (h : t.InRange) (hopen : t.stream.cursor.Open) : t.Foresees := by
  have hagree (n : Nat) : t.stream.lookahead (n + 1) = (Stream.get^[n + 1] t.stream).current := by
    rw [Stream.lookahead, Cursor.lookahead_eq_current hopen, Stream.current, Stream.iterate_get_cursor]
  refine ⟨fun n hn => ?_, ?_, ?_, fun n hn => ?_⟩
  · obtain ⟨m, rfl⟩ := Nat.exists_eq_add_of_le' hn
    obtain ⟨u, hu, hrange, hstream⟩ := h.gets_eq (m + 1)
    refine ⟨u, _, hu, hrange.token_eq, ?_⟩
    rw [h.lookahead_eq, hagree, hstream]
  · obtain ⟨u, -, hget, -⟩ := h.get_eq fun _ => True
    refine ⟨_, u, hget, ?_⟩
    rw [h.peek_eq, Stream.peek, Stream.current, Stream.get, Cursor.advance_current]
  · exact h.past hopen
  · obtain ⟨m, rfl⟩ := Nat.exists_eq_add_of_le' hn
    exact hagree m

/-- Over tokens with an end token at their end and nowhere else, each reachable tape foresees. -/
theorem moves_foresee (hts : Terminated ts) (hm : Moves (fun _ => True) (ofTokens ts) t) :
    t.Foresees := by
  have htokens : t.tokens = ts := (hm.accounted (ofTokens_accounted ts)).tokens.trans hts.withEnd
  refine (hm.inRange (ofTokens_inRange ts)).foresees fun s hs => ?_
  obtain ⟨q, e, rfl, -⟩ := hts.exists_append
  rw [stream_cursor htokens] at hs
  simpa [Token.isEof] using hts.ne_eof_of_mem (by simp) (List.mem_of_mem_drop hs)

/-- A name, a blank and a comma. -/
def spacedComma : List Token :=
  [⟨.ident, ['a'], ⟨1, 1⟩⟩, ⟨.space, [' '], ⟨1, 2⟩⟩, ⟨.comma, [','], ⟨1, 3⟩⟩, ⟨.eof, [], ⟨1, 4⟩⟩]

/-- Behind the name, and with blanks visible. -/
theorem spacedComma_foresees : Terminated spacedComma ∧ ∃ reports t,
    (ofTokens spacedComma).runScript [.get, .setSpace true, .peek] = some (reports, t) ∧
      Moves (fun _ => True) (ofTokens spacedComma) t ∧ t.Foresees := by
  have hts : Terminated spacedComma :=
    .cons (by decide) (.cons (by decide) (.cons (by decide) (.eof rfl)))
  obtain ⟨reports, t, hm, ht, -⟩ := runScript_ofTokens spacedComma [.get, .setSpace true, .peek]
  exact ⟨hts, reports, t, ht, hm, moves_foresee hts hm⟩

end Tape
end Stylesheet
