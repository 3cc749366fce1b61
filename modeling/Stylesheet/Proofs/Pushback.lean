import Mathlib
import Stylesheet.Stream

/-! Taking back. What was consumed last is ahead again, whatever has been looked at since, and no
later operation can tell that it was ever consumed. -/
namespace Stylesheet

/-- What an operation does to the place in the tokens. -/
inductive Deed where
  | consumed
  | takenBack
deriving DecidableEq

namespace Stream

def Report.after : Report → Stream
  | .mk _ _ after => after

mutual

/-- The tokens that an operation consumes or takes back, in order. One that only looks, a match that
fails among them, does neither. -/
def deedsOf (s : Stream) : Step → List Deed
  | .get => [.consumed]
  | .unget => [.takenBack]
  | .accept ks | .expect ks => if s.peek ∈ ks then [.consumed] else []
  | .scope seen script => deeds (s.setSpaceVisible seen) script
  | .peek | .token | .lookahead _ | .setSpace _ => []

def deeds (s : Stream) : List Step → List Deed
  | [] => []
  | step :: script => deedsOf s step ++ deeds (s.runStep step).after script

end

mutual

/-- What can be seen of a report: all but what the stream has saved. -/
def Report.shown : Report → Report
  | .mk reply inner after => .mk reply (shownInner inner) ⟨after.cursor, none⟩

def Report.shownInner : Option (List Report) → Option (List Report)
  | none => none
  | some reports => some (Report.shownAll reports)

def Report.shownAll : List Report → List Report
  | [] => []
  | report :: reports => report.shown :: Report.shownAll reports

end

/-- The answers of a script, each with the place and the visibility behind it. -/
def answers (s : Stream) (script : List Step) : List Report := Report.shownAll (s.runScript script).1

variable {s t : Stream}

theorem runScript_cons (s : Stream) (step : Step) (script : List Step) :
    s.runScript (step :: script) = (s.runStep step :: ((s.runStep step).after.runScript script).1,
      ((s.runStep step).after.runScript script).2) := by
  rw [runScript]
  cases s.runStep step
  rfl

theorem setSpaceVisible_setSpaceVisible (s : Stream) (seen seen' : Bool) :
    (s.setSpaceVisible seen).setSpaceVisible seen' = s.setSpaceVisible seen' := rfl

/-! Matches. -/

theorem lookahead_one (s : Stream) : s.lookahead 1 = s.cursor.next := by
  rw [Stream.lookahead, Cursor.lookahead, Cursor.next, Cursor.visible, List.headD_eq_head?_getD,
    List.getD_eq_getElem?_getD, ← List.head?_eq_getElem?]
  cases s.cursor.spaceVisible with
  | true => rfl
  | false => simp [List.find?_eq_head?_dropWhile_not]

theorem runStep_accept (s : Stream) (ks : List Kind) : s.runStep (.accept ks) =
    if s.peek ∈ ks then .mk (.matched true) none s.get else .mk (.matched false) none s := by
  by_cases hk : s.peek ∈ ks <;> simp [runStep, accept?, hk]

theorem runStep_expect (s : Stream) (ks : List Kind) : s.runStep (.expect ks) =
    if s.peek ∈ ks then .mk (.matched true) none s.get
    else .mk (.failed (.atToken (s.lookahead 1))) none s := by
  by_cases hk : s.peek ∈ ks <;> simp [runStep, expect, accept?, lookahead_one, hk]

/-! Looking. -/

mutual

/-- What neither consumes nor takes back can change the visibility of blanks at most. -/
theorem runStep_idle : ∀ (step : Step) (s : Stream), deedsOf s step = [] →
    ∃ seen, (s.runStep step).after = s.setSpaceVisible seen
  | .get, _, h | .unget, _, h => by simp [deedsOf] at h
  | .peek, s, _ | .token, s, _ | .lookahead _, s, _ => ⟨s.spaceVisible, rfl⟩
  | .setSpace seen, _, _ => ⟨seen, rfl⟩
  | .accept ks, s, h => by
    have hk : s.peek ∉ ks := by simpa [deedsOf] using h
    exact ⟨s.spaceVisible, by rw [runStep_accept, if_neg hk]; rfl⟩
  | .expect ks, s, h => by
    have hk : s.peek ∉ ks := by simpa [deedsOf] using h
    exact ⟨s.spaceVisible, by rw [runStep_expect, if_neg hk]; rfl⟩
  | .scope seen script, s, h => by
    obtain ⟨seen', hinner⟩ := runScript_idle script (s.setSpaceVisible seen) h
    refine ⟨s.spaceVisible, ?_⟩
    rw [runStep, Report.after, hinner]
    rfl

theorem runScript_idle : ∀ (script : List Step) (s : Stream), deeds s script = [] →
    ∃ seen, (s.runScript script).2 = s.setSpaceVisible seen
  | [], s, _ => ⟨s.spaceVisible, rfl⟩
  | step :: script, s, h => by
    obtain ⟨hstep, hscript⟩ := List.append_eq_nil_iff.mp h
    obtain ⟨seen, hs⟩ := runStep_idle step s hstep
    obtain ⟨seen', hs'⟩ := runScript_idle script _ hscript
    refine ⟨seen', ?_⟩
    rw [runScript_cons, hs', hs, setSpaceVisible_setSpaceVisible]

end

/-! Consuming once. -/

/-- What the stream `t` would restore is what was ahead of `s`, and its current token. -/
structure Holds (s t : Stream) : Prop where
  saved : t.saved = some ⟨s.cursor.ahead, s.cursor.current⟩
  last : t.cursor.last = s.cursor.last

theorem get_holds (s : Stream) : Holds s s.get := by
  refine ⟨rfl, ?_⟩
  rw [get, Cursor.advance]
  split
  · rfl
  · split <;> rfl

theorem Holds.unget (h : Holds s t) : t.unget = ⟨s.cursor.withSpace t.spaceVisible, none⟩ := by
  obtain ⟨⟨ahead, last, current, seen⟩, saved⟩ := t
  obtain ⟨rfl, rfl⟩ := h
  rfl

mutual

theorem runStep_once : ∀ (step : Step) (s : Stream), deedsOf s step = [.consumed] →
    Holds s (s.runStep step).after
  | .unget, _, h | .peek, _, h | .token, _, h | .lookahead _, _, h | .setSpace _, _, h => by
    simp [deedsOf] at h
  | .get, s, _ => s.get_holds
  | .accept ks, s, h => by
    have hk : s.peek ∈ ks := by simpa [deedsOf] using h
    rw [runStep_accept, if_pos hk]
    exact s.get_holds
  | .expect ks, s, h => by
    have hk : s.peek ∈ ks := by simpa [deedsOf] using h
    rw [runStep_expect, if_pos hk]
    exact s.get_holds
  | .scope seen script, s, h => by
    have hinner := runScript_once script (s.setSpaceVisible seen) h
    exact ⟨hinner.saved, hinner.last⟩

theorem runScript_once : ∀ (script : List Step) (s : Stream), deeds s script = [.consumed] →
    Holds s (s.runScript script).2
  | [], _, h => by simp [deeds] at h
  | step :: script, s, h => by
    rw [runScript_cons]
    obtain ⟨hstep, hscript⟩ | ⟨hstep, hscript⟩ := List.append_eq_singleton_iff.mp h
    · obtain ⟨seen, hs⟩ := runStep_idle step s hstep
      have hrest := runScript_once script _ hscript
      rw [hs] at hrest ⊢
      exact ⟨hrest.saved, hrest.last⟩
    · have hfirst := runStep_once step s hstep
      obtain ⟨seen, hs⟩ := runScript_idle script _ hscript
      rw [hs]
      exact ⟨hfirst.saved, hfirst.last⟩

end

/-! Streams that differ in what they have saved. -/

mutual

/-- Until something is taken back, what is saved decides nothing; and what is consumed replaces it. -/
theorem runStep_saved : ∀ (step : Step) (c : Cursor) (x y : Option Saved),
    (deedsOf ⟨c, x⟩ step).head? ≠ some .takenBack →
      (runStep ⟨c, y⟩ step).shown = (runStep ⟨c, x⟩ step).shown ∧
      (runStep ⟨c, y⟩ step).after.cursor = (runStep ⟨c, x⟩ step).after.cursor ∧
      (deedsOf ⟨c, x⟩ step ≠ [] → (runStep ⟨c, y⟩ step).after = (runStep ⟨c, x⟩ step).after)
  | .unget, _, _, _, h => by simp [deedsOf] at h
  | .get, _, _, _, _ => ⟨rfl, rfl, fun _ => rfl⟩
  | .peek, _, _, _, _ | .token, _, _, _, _ | .lookahead _, _, _, _, _ | .setSpace _, _, _, _, _ =>
    ⟨rfl, rfl, fun h => absurd rfl h⟩
  | .accept ks, c, x, y, _ => by
    have hpeek : peek ⟨c, y⟩ = peek ⟨c, x⟩ := rfl
    rw [runStep_accept, runStep_accept, hpeek]
    by_cases hk : peek ⟨c, x⟩ ∈ ks
    · rw [if_pos hk, if_pos hk]
      exact ⟨rfl, rfl, fun _ => rfl⟩
    · rw [if_neg hk, if_neg hk]
      exact ⟨rfl, rfl, fun h => absurd (by simp [deedsOf, hk]) h⟩
  | .expect ks, c, x, y, _ => by
    have hpeek : peek ⟨c, y⟩ = peek ⟨c, x⟩ := rfl
    rw [runStep_expect, runStep_expect, hpeek]
    by_cases hk : peek ⟨c, x⟩ ∈ ks
    · rw [if_pos hk, if_pos hk]
      exact ⟨rfl, rfl, fun _ => rfl⟩
    · rw [if_neg hk, if_neg hk]
      exact ⟨rfl, rfl, fun h => absurd (by simp [deedsOf, hk]) h⟩
  | .scope seen script, c, x, y, h => by
    obtain ⟨hshown, hcursor, heq⟩ := runScript_saved script (c.withSpace seen) x y h
    refine ⟨?_, congrArg (·.withSpace c.spaceVisible) hcursor, fun hne =>
      congrArg (·.setSpaceVisible c.spaceVisible) (heq hne)⟩
    exact congrArg₂ (fun reports cursor => Report.mk .nothing (some reports) ⟨cursor, none⟩) hshown
      (congrArg (·.withSpace c.spaceVisible) hcursor)

theorem runScript_saved : ∀ (script : List Step) (c : Cursor) (x y : Option Saved),
    (deeds ⟨c, x⟩ script).head? ≠ some .takenBack →
      answers ⟨c, y⟩ script = answers ⟨c, x⟩ script ∧
      (runScript ⟨c, y⟩ script).2.cursor = (runScript ⟨c, x⟩ script).2.cursor ∧
      (deeds ⟨c, x⟩ script ≠ [] → (runScript ⟨c, y⟩ script).2 = (runScript ⟨c, x⟩ script).2)
  | [], _, _, _, _ => ⟨rfl, rfl, fun h => absurd rfl h⟩
  | step :: script, c, x, y, h => by
    rw [answers, answers, runScript_cons, runScript_cons, deeds]
    rw [deeds] at h
    cases hd : deedsOf ⟨c, x⟩ step with
    | nil =>
      -- Only looked at: the rest runs on streams that still differ in what they have saved.
      obtain ⟨hshown, hcursor, -⟩ := runStep_saved step c x y (by simp [hd])
      have hafter : (runStep ⟨c, y⟩ step).after =
          ⟨(runStep ⟨c, x⟩ step).after.cursor, (runStep ⟨c, y⟩ step).after.saved⟩ := by rw [← hcursor]
      rw [hd, List.nil_append] at h
      rw [hafter]
      obtain ⟨hrest, hend, heq⟩ := runScript_saved script _ (runStep ⟨c, x⟩ step).after.saved
        (runStep ⟨c, y⟩ step).after.saved h
      exact ⟨congrArg₂ List.cons hshown hrest, hend, heq⟩
    | cons deed rest =>
      -- Something is consumed first, and from there on both are one stream.
      rw [hd] at h
      obtain ⟨hshown, -, heq⟩ := runStep_saved step c x y (by rw [hd]; exact h)
      rw [heq (by simp [hd])]
      exact ⟨congrArg (List.cons · _) hshown, rfl, fun _ => rfl⟩

end

/-- The stream `t`, which comes out of `s` by consuming one token, takes that back exactly. -/
structure TakesBack (s t : Stream) : Prop where
  /-- The place and the current token are those of `s`; visibility stays. -/
  place : t.unget.cursor = s.cursor.withSpace t.spaceVisible
  /-- With the same visibility, whatever consumes before it takes back runs as on `s`. -/
  later : ∀ seen script, (deeds (s.setSpaceVisible seen) script).head? ≠ some .takenBack →
    answers (t.unget.setSpaceVisible seen) script = answers (s.setSpaceVisible seen) script
  /-- Until something is consumed there is nothing more to take back. -/
  once : ∀ script, deeds t.unget script = [] →
    (t.unget.runScript script).2.unget = (t.unget.runScript script).2

/-- A match succeeds and consumes, or it leaves the stream as it is, and a demanded one then fails at
the next token. What has been consumed is taken back exactly, whatever was looked at before and after. -/
theorem unget_exact (s : Stream) :
    (∀ ks, s.runStep (.accept ks) = .mk (.matched true) none s.get ∧
        s.runStep (.expect ks) = .mk (.matched true) none s.get ∨
      s.runStep (.accept ks) = .mk (.matched false) none s ∧
        s.runStep (.expect ks) = .mk (.failed (.atToken (s.lookahead 1))) none s) ∧
    ∀ script, deeds s script = [.consumed] → TakesBack s (s.runScript script).2 := by
  refine ⟨fun ks => ?_, fun script h => ?_⟩
  · rw [runStep_accept, runStep_expect]
    by_cases hk : s.peek ∈ ks
    · rw [if_pos hk, if_pos hk]
      exact .inl ⟨rfl, rfl⟩
    · rw [if_neg hk, if_neg hk]
      exact .inr ⟨rfl, rfl⟩
  · have hunget := (runScript_once script s h).unget
    constructor
    · rw [hunget]
    · intro seen later hlater
      rw [hunget]
      exact (runScript_saved later _ s.saved none hlater).1
    · intro idle hidle
      obtain ⟨seen, hs⟩ := runScript_idle idle _ hidle
      rw [hs, hunget]
      rfl

/-- A probe for a blank behind a name, and some looking around. -/
def probe : List Step := [.scope true [.peek, .accept [.space], .expect [.comma]], .setSpace true, .lookahead 2]

theorem probe_takesBack : deeds (ofText "a b".toList).get probe = [.consumed] ∧
    TakesBack (ofText "a b".toList).get ((ofText "a b".toList).get.runScript probe).2 := by
  have h : deeds (ofText "a b".toList).get probe = [.consumed] := by cbv
  exact ⟨h, (unget_exact _).2 probe h⟩

end Stream
end Stylesheet
