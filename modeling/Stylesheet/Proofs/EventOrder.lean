import Stylesheet.Listeners
import Stylesheet.Proofs.Parsing

/-! The events of every parse, complete or broken off, in the order that the blocks of the text
give them. -/
namespace Stylesheet
open Computability

/-- Events in order for the tokens `ts`, and where they end. -/
structure EventsInOrder (ts : List Token) (p : Parse) : Prop where
  first : p.events.head? = some .startStylesheet
  beginning : p.events ∈ prefixes EventWords.stylesheet
  ended : .endStylesheet ∈ p.events ↔ p.error = none
  whole : p.error = none → p.events ∈ EventWords.stylesheet ∧
    p.events.getLast? = some .endStylesheet ∧
    p.events.filterMap Event.brace? = ts.filterMap Token.brace?
  /-- All that follows the token that does not fit has no part in what is fired. -/
  broken : ∀ e, p.error = some e → ∃ k t, ts[k]? = some t ∧ e = .atToken t ∧
    p.events.filterMap Event.brace? = (ts.take k).filterMap Token.brace? ∧
    ∀ us, Terminated us → us.take (k + 1) = ts.take (k + 1) → parseFrom (.ofTokens us) = p

theorem parseFrom_head (c : Cursor) : (parseFrom c).events.head? = some .startStylesheet := rfl

theorem AtEnd.braces {r : List Token} (h : Grammar.AtEnd r) : r.filterMap Token.brace? = [] := by
  obtain ⟨s, t, rfl, hs, ht⟩ := h
  rw [List.filterMap_append, braces_blanks hs]
  simp [Token.brace?, ht, Kind.brace?]

/-- Terminated tokens that agree up to a token of each other go on somehow behind it. -/
theorem eq_append_of_take {w r us : List Token} {t : Token}
    (h : us.take (w.length + 1) = (w ++ t :: r).take (w.length + 1)) :
    us = w ++ t :: us.drop (w.length + 1) := by
  have htake : (w ++ t :: r).take (w.length + 1) = w ++ [t] := by
    simp [List.take_append]
  calc us = us.take (w.length + 1) ++ us.drop (w.length + 1) := (List.take_append_drop _ _).symm
    _ = w ++ t :: us.drop (w.length + 1) := by rw [h, htake]; simp

theorem parseFrom_inOrder {ts : List Token} (h : Terminated ts) :
    EventsInOrder ts (parseFrom (.ofTokens ts)) := by
  obtain ⟨w, r, es, rfl, hend, htrace, hp⟩ | ⟨w, t, r, es, rfl, -, hv, hp⟩ := parseFrom_cases h
  · have hwhole : es ++ [.endStylesheet] ∈ EventWords.stylesheet :=
      Language.append_mem_mul htrace.events rfl
    refine ⟨parseFrom_head _, ?_, ?_, ?_, ?_⟩ <;> rw [hp]
    · exact ⟨[], by simpa using hwhole⟩
    · simp
    · intro _
      refine ⟨hwhole, by simp, ?_⟩
      simp [List.filterMap_append, htrace.braces, AtEnd.braces hend, Event.brace?]
    · intro e he
      simp at he
  · have hrun := hp r h
    refine ⟨parseFrom_head _, ?_, ?_, ?_, ?_⟩
    · rw [hrun]
      obtain ⟨x, hx⟩ := hv.events
      refine ⟨x ++ [.endStylesheet], ?_⟩
      rw [← List.append_assoc]
      exact Language.append_mem_mul hx rfl
    · rw [hrun]
      obtain ⟨x, hx⟩ := hv.events
      have hnot := mem_of_le EventWords.content_le_without hx
      simp only [reduceCtorEq, iff_false]
      exact fun hm => hnot (List.mem_append_left x hm)
    · rw [hrun]
      intro he
      simp at he
    · intro e he
      rw [hrun] at he
      obtain rfl := Option.some.inj he
      refine ⟨w.length, t, by simp, rfl, ?_, fun us hus htake => ?_⟩
      · rw [hrun]
        simpa using hv.braces
      · have hus' := eq_append_of_take htake
        rw [hus'] at hus ⊢
        rw [hp _ hus, hrun]

theorem events_in_order (css : Text) :
    EventsInOrder (tokens css) (parse css) ∧
    (Listeners.empty.onAny.reply (.parse css)).calls.map Call.event = (parse css).events ∧
    (∀ es, (parse css).complete = .ok es ↔ (parse css).error = none ∧ es = (parse css).events) ∧
    ∀ e, (parse css).complete = .error e ↔ (parse css).error = some e := by
  refine ⟨parseFrom_inOrder (tokens_terminated css), ?_, fun es => ?_, fun e => ?_⟩
  · have hcalls : ∀ es : List Event,
        (es.flatMap Listeners.empty.onAny.fire).map Call.event = es := by
      intro es
      induction es with
      | nil => rfl
      | cons e es ih => simpa [Listeners.fire, Listeners.wants, Listeners.onAny, Listeners.empty] using ih
    exact hcalls (parse css).events
  · cases he : (parse css).error with
    | none => simp [Parse.complete, he, eq_comm]
    | some e => simp [Parse.complete, he]
  · cases he : (parse css).error with
    | none => simp [Parse.complete, he]
    | some e' => simp [Parse.complete, he]

end Stylesheet
