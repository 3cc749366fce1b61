import Stylesheet.Listeners
import Mathlib.Data.List.Sort

/-! Who is called, for what and in which order, over any history of registrations, events fired
and texts parsed. What a listener hears of a text depends on that text and its own filter only. -/
namespace Stylesheet
namespace Listeners

/-- What a step registers. -/
def Step.registers? : Step → Option (Option EventKind)
  | .on k => some (some k)
  | .onAny => some none
  | .fire _ | .parse _ => none

/-- The events a step fires, in order. -/
def Step.fired : Step → List Event
  | .on _ | .onAny => []
  | .fire e => [e]
  | .parse css => (Stylesheet.parse css).events

/-- The filters of all listeners registered during a script, numbered as the listeners are. -/
def registered (script : List Step) : List (Option EventKind) := script.filterMap Step.registers?

/-- The filter is absent or is the kind of the event. -/
def Admits (filter : Option EventKind) (e : Event) : Prop := filter = none ∨ filter = some e.kind

instance (filter : Option EventKind) (e : Event) : Decidable (Admits filter e) :=
  inferInstanceAs (Decidable (_ ∨ _))

/-- One call, in the order of registration, to each listener that admits the event. -/
structure Delivers (filters : List (Option EventKind)) (e : Event) (calls : List Call) : Prop where
  ordered : calls.Pairwise fun c d => c.listener < d.listener
  called : ∀ c, c ∈ calls ↔ c.event = e ∧ ∃ f, filters[c.listener]? = some f ∧ Admits f e

/-- The events a listener is called with. -/
def heardIn (listener : Nat) (calls : List Call) : List Event :=
  (calls.filter (·.listener = listener)).map Call.event

/-- What a listener hears during the `i`-th step of a script. -/
def heard (script : List Step) (i listener : Nat) : List Event :=
  match (empty.run script)[i]? with
  | some (reply, _) => heardIn listener reply.calls
  | none => []

theorem wants_iff {f : Option EventKind} {e : Event} : wants f e = true ↔ Admits f e := by
  cases f <;> simp [wants, Admits]

theorem fire_delivers (l : Listeners) (e : Event) : Delivers l.filters e (l.fire e) where
  ordered := by
    have hindices : (l.filters.zipIdx.map Prod.snd).Pairwise (· < ·) := by
      rw [List.zipIdx_map_snd]
      exact List.pairwise_lt_range'
    exact List.pairwise_map.mpr ((List.pairwise_map.mp hindices).filter _)
  called c := by
    simp only [fire, List.mem_map, List.mem_filter, List.mem_zipIdx_iff_getElem?, wants_iff]
    constructor
    · rintro ⟨⟨f, i⟩, ⟨hf, hadmits⟩, rfl⟩
      exact ⟨rfl, f, hf, hadmits⟩
    · rintro ⟨rfl, f, hf, hadmits⟩
      exact ⟨(f, c.listener), ⟨hf, hadmits⟩, rfl⟩

/-- Of one event a listener hears once or not at all. -/
theorem Delivers.heardIn_eq {filters : List (Option EventKind)} {e : Event} {calls : List Call}
    (h : Delivers filters e calls) {j : Nat} {f : Option EventKind} (hf : filters[j]? = some f) :
    heardIn j calls = [e].filter fun e => decide (Admits f e) := by
  let before (c d : Call) : Prop := c.listener < d.listener
  have : Std.Irrefl before := ⟨fun c => Nat.lt_irrefl c.listener⟩
  have : Std.Asymm before := ⟨fun c d => Nat.lt_asymm⟩
  have hmem : ∀ c, c ∈ calls ∧ c.listener = j ↔ c = ⟨j, e⟩ ∧ Admits f e := by
    rintro ⟨i, e'⟩
    rw [h.called]
    constructor
    · rintro ⟨⟨rfl, g, hg, hadmits⟩, rfl⟩
      obtain rfl := Option.some.inj (hg.symm.trans hf)
      exact ⟨rfl, hadmits⟩
    · rintro ⟨heq, hadmits⟩
      obtain ⟨rfl, rfl⟩ := Call.mk.inj heq
      exact ⟨⟨rfl, f, hf, hadmits⟩, rfl⟩
  have hcalls : calls.filter (·.listener = j) =
      ([⟨j, e⟩] : List Call).filter fun _ => decide (Admits f e) := by
    refine List.Pairwise.eq_of_mem_iff (r := before) (h.ordered.filter _)
      ((List.pairwise_singleton _ _).filter _) fun c => ?_
    simpa using hmem c
  rw [heardIn, hcalls]
  by_cases hadmits : Admits f e <;> simp [hadmits]

theorem reply_calls (l : Listeners) (s : Step) : (l.reply s).calls = s.fired.flatMap l.fire := by
  cases s <;> simp [reply, Step.fired]

/-- One block of calls for each event that the step fires. -/
theorem reply_delivers (l : Listeners) (s : Step) :
    ∃ blocks, (l.reply s).calls = blocks.flatten ∧
      List.Forall₂ (Delivers l.filters) s.fired blocks := by
  refine ⟨s.fired.map l.fire, ?_, ?_⟩
  · rw [reply_calls, List.flatMap_def]
  · exact List.forall₂_map_right_iff.mpr
      (List.forall₂_same.mpr fun e _ => fire_delivers l e)

theorem heardIn_reply (l : Listeners) (s : Step) {j : Nat} {f : Option EventKind}
    (hf : l.filters[j]? = some f) :
    heardIn j (l.reply s).calls = s.fired.filter fun e => decide (Admits f e) := by
  rw [reply_calls]
  induction s.fired with
  | nil => rfl
  | cons e es ih =>
    calc heardIn j ((e :: es).flatMap l.fire)
        = heardIn j (l.fire e) ++ heardIn j (es.flatMap l.fire) := by simp [heardIn]
      _ = ([e].filter fun e => decide (Admits f e)) ++ es.filter fun e => decide (Admits f e) := by
          rw [(fire_delivers l e).heardIn_eq hf, ih]
      _ = (e :: es).filter fun e => decide (Admits f e) := by
          rw [← List.filter_append, List.singleton_append]

theorem after_filters (l : Listeners) (s : Step) :
    (l.after s).filters = l.filters ++ s.registers?.toList := by
  cases s <;> simp [after, on, onAny, Step.registers?]

theorem foldl_after_filters (l : Listeners) (script : List Step) :
    (script.foldl after l).filters = l.filters ++ registered script := by
  induction script generalizing l with
  | nil => simp [registered]
  | cons s script ih =>
    rw [List.foldl_cons, ih, after_filters]
    cases hs : s.registers? <;> simp [registered, hs]

/-- Nothing of the steps before but their registrations has a part in a reply. -/
theorem run_getElem (l : Listeners) (past : List Step) (s : Step) (future : List Step) :
    (l.run (past ++ s :: future))[past.length]? =
      some ((past.foldl after l).reply s, (past.foldl after l).after s) := by
  induction past generalizing l with
  | nil => rfl
  | cons t past ih => simpa [run] using ih (l.after t)

theorem heard_eq (past : List Step) (s : Step) (future : List Step) {j : Nat}
    {f : Option EventKind} (hf : (registered past)[j]? = some f) :
    heard (past ++ s :: future) past.length j = s.fired.filter fun e => decide (Admits f e) := by
  simp only [heard, run_getElem]
  refine heardIn_reply _ s ?_
  rw [foldl_after_filters]
  simpa [empty] using hf

theorem heard_parse_fresh (css : Text) : heard [.onAny, .parse css] 1 0 = (parse css).events := by
  have h := heard_eq [.onAny] (.parse css) [] (j := 0) (f := none) rfl
  simpa [Admits, Step.fired] using h

/-- At any step, for each event fired in order one call to each listener registered by then that
admits it; so of a text parsed a listener hears what it admits of the events that a listener to
all hears of the text alone. -/
theorem run_delivers (past : List Step) (s : Step) (future : List Step) :
    ∃ reply l, (empty.run (past ++ s :: future))[past.length]? = some (reply, l) ∧
      (∃ blocks, reply.calls = blocks.flatten ∧
        List.Forall₂ (Delivers (registered past)) s.fired blocks) ∧
      ∀ css, s = .parse css → reply.error = (parse css).error ∧
        heard [.onAny, .parse css] 1 0 = (parse css).events ∧
        ∀ j f, (registered past)[j]? = some f →
          heard (past ++ s :: future) past.length j =
            (heard [.onAny, .parse css] 1 0).filter fun e => decide (Admits f e) := by
  have hfilters : (past.foldl after empty).filters = registered past := by
    simp [foldl_after_filters, empty]
  refine ⟨_, _, run_getElem empty past s future, ?_, ?_⟩
  · simpa only [hfilters] using reply_delivers (past.foldl after empty) s
  · rintro css rfl
    refine ⟨rfl, heard_parse_fresh css, fun j f hf => ?_⟩
    rw [heard_eq past _ future hf, heard_parse_fresh, Step.fired]

end Listeners
end Stylesheet
