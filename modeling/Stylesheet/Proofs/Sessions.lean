import Stylesheet.Command
import Stylesheet.Listeners
import Stylesheet.Record
import Stylesheet.Proofs.Places

/-! The listing of a text as it comes about: warning by warning, each printed when it is new to the
record, and then event by event. -/
namespace Stylesheet

/-! A text never warns twice with the same words: its faults stand at different places. -/

theorem decimal_injective : Function.Injective decimal := by
  intro m n h
  have heq := congrArg (Nat.ofDigitChars 10 · 0) h
  simpa only [decimal, Nat.ofDigitChars_ten_toDigits] using heq

/-- A number at the end of a text is told apart from what stands before it. -/
theorem append_decimal_inj {s t : Text} {c : Char} {m n : Nat} (hc : c.isDigit = false)
    (h : s ++ c :: decimal m = t ++ c :: decimal n) : s = t ∧ m = n := by
  have hrun : ∀ (u : Text) (k : Nat),
      (u ++ c :: decimal k).reverse.takeWhile Char.isDigit = (decimal k).reverse := by
    intro u k
    rw [List.reverse_append, List.reverse_cons, List.append_assoc, List.singleton_append]
    refine takeWhile_eq (fun d hd => ?_) (by simpa using hc)
    exact Nat.isDigit_of_mem_toDigits (by decide) (by decide) (List.mem_reverse.mp hd)
  have hmn : m = n := by
    have heq := congrArg (fun u => u.reverse.takeWhile Char.isDigit) h
    simp only [hrun] at heq
    exact decimal_injective (List.reverse_injective heq)
  subst hmn
  exact ⟨List.append_cancel_right h, rfl⟩

namespace Fault

def position : Fault → Position
  | brokenString p | unclosedString p | unclosedComment p => p

/-- What is told of a fault before its place. -/
def kindText : Fault → Text
  | brokenString _ => "[CSS] string broken by a newline at ".toList
  | unclosedString _ => "[CSS] unterminated string at ".toList
  | unclosedComment _ => "[CSS] unterminated comment at ".toList

theorem warning_text (f : Fault) : f.warning.text = ((f.kindText ++ "line".toList) ++
    ' ' :: decimal f.position.row ++ ", char".toList) ++ ' ' :: decimal f.position.column := by
  have hsplit : ∀ s t u v w : Text,
      s ++ (t ++ [' '] ++ u ++ (v ++ [' ']) ++ w) = ((s ++ t) ++ ' ' :: u ++ v) ++ ' ' :: w := by simp
  have htext : f.warning.text = f.kindText ++ f.position.describe := by cases f <;> rfl
  exact htext.trans (hsplit f.kindText "line".toList _ ", char".toList _)

theorem position_of_text {f g : Fault} (h : f.warning.text = g.warning.text) :
    f.position = g.position := by
  have hblank : ' '.isDigit = false := rfl
  have heq := (warning_text f).symm.trans (h.trans (warning_text g))
  obtain ⟨hfront, hcolumn⟩ := append_decimal_inj hblank heq
  obtain ⟨-, hrow⟩ := append_decimal_inj hblank (List.append_cancel_right hfront)
  exact Position.ext hrow hcolumn

end Fault

theorem Placed.fault?_position {l : Placed} {f : Fault} (h : l.fault? = some f) :
    f.position = l.position := by
  unfold fault? at h
  split at h
  · split at h
    · cases h
    · exact Option.some.inj h ▸ rfl
  · exact Option.some.inj h ▸ rfl
  · split at h
    · cases h
    · exact Option.some.inj h ▸ rfl
  · cases h

theorem warnings_nodup (css : Text) : ((warnings css).map Warning.text).Nodup := by
  have hordered : (faults css).Pairwise (·.position.Before ·.position) := by
    refine List.pairwise_filterMap.mpr ((placed_ordered css).imp fun {l m} hlm f hf g hg => ?_)
    rw [Placed.fault?_position hf, Placed.fault?_position hg]
    exact hlm
  rw [warnings, List.map_map]
  refine List.pairwise_map.mpr (hordered.imp fun hfg htext => ?_)
  exact hfg.ne (Fault.position_of_text htext)

/-! The session. -/

/-- The warnings recorded, and what has been written to the two outputs. -/
structure Session where
  record : Record
  out : Text
  err : Text

namespace Session
open Command

def start : Session := ⟨.empty, [], []⟩

/-- What can happen: a warning, or an event that the listener is called with. -/
inductive Step where
  | warn (w : Warning)
  | hear (e : Event)

/-- A warning on record is passed over; a new one is recorded, and printed unless that is turned
off. The listener prints the events it is to show. -/
def step (o : Options) (s : Session) : Step → Session
  | .warn w =>
    if s.record.texts.contains w.text then s
    else ⟨s.record.note w, s.out, if o.quiet then s.err else s.err ++ warningLine w⟩
  | .hear e => ⟨s.record, if shows o e then s.out ++ eventLine o e else s.out, s.err⟩

def run (o : Options) (s : Session) (steps : List Step) : Session := steps.foldl (step o) s

/-- A parse as it is heard by one listener to all events. -/
def heard (css : Text) : Listeners.Reply := Listeners.empty.onAny.reply (.parse css)

/-- All of a text is scanned before the first event is fired. -/
def steps (css : Text) : List Step :=
  (warnings css).map .warn ++ (heard css).calls.map fun call => .hear call.event

/-- What the session leaves behind when the text came from `source`. -/
def output (o : Options) (source css : Text) : Output :=
  let s := run o start (steps css)
  match (heard css).error with
  | none => ⟨0, s.out, s.err⟩
  | some e => ⟨1, s.out, s.err ++ report ("failed to parse ".toList ++ source) e.message⟩

variable {o : Options} {s : Session}

theorem run_warn (ws : List Warning) (h : (s.record.texts ++ ws.map Warning.text).Nodup) :
    run o s (ws.map .warn) = ⟨s.record.noteAll ws, s.out,
      s.err ++ if o.quiet then [] else ws.flatMap warningLine⟩ := by
  induction ws generalizing s with
  | nil => simp [run, Record.noteAll]
  | cons w ws ih =>
    have hnew : w.text ∉ s.record.texts := by
      intro hm
      exact (List.nodup_append.mp h).2.2 _ hm _ (by simp) rfl
    have hnote : (s.record.note w).texts = s.record.texts ++ [w.text] := by
      simp [Record.note, hnew]
    have hrest := @ih ⟨s.record.note w, s.out, if o.quiet then s.err else s.err ++ warningLine w⟩
      (by rw [hnote]; simpa using h)
    rw [List.map_cons, run, List.foldl_cons, step, if_neg (by simpa using hnew)]
    refine hrest.trans ?_
    cases o.quiet <;> simp [Record.noteAll]

theorem run_hear (es : List Event) :
    run o s (es.map .hear) = ⟨s.record, s.out ++ listing o es, s.err⟩ := by
  induction es generalizing s with
  | nil => simp [run, listing]
  | cons e es ih =>
    rw [List.map_cons, run, List.foldl_cons]
    refine ih.trans ?_
    cases he : shows o e <;> simp [step, he, listing]

theorem heard_calls (css : Text) : (heard css).calls.map Call.event = (parse css).events := by
  have hfire : ∀ e, Listeners.empty.onAny.fire e = [⟨0, e⟩] := fun _ => rfl
  have hcalls : (heard css).calls = (parse css).events.flatMap fun e => [⟨0, e⟩] :=
    List.flatMap_congr fun e _ => hfire e
  rw [hcalls, List.map_flatMap]
  simp

/-- The session comes to what the command writes. -/
theorem output_eq (o : Options) (source css : Text) : output o source css = list o source css := by
  have hhear : (heard css).calls.map (fun call => Step.hear call.event) = (parse css).events.map .hear := by
    rw [← heard_calls, List.map_map]
    rfl
  have hwarn := run_warn (o := o) (s := start) (warnings css) (warnings_nodup css)
  have hrun : run o start (steps css) =
      ⟨Record.empty.noteAll (warnings css), listing o (parse css).events, notices o css⟩ := by
    rw [steps, hhear, run, List.foldl_append]
    exact (congrArg (run o · _) hwarn).trans (run_hear _)
  rw [output, hrun, list]
  rfl

end Session

/-! What the command writes, output by output. -/

namespace Command

/-- What is reported of a parse that failed. -/
def failure (source : Text) (e : Option ParseError) : Text :=
  e.elim [] fun e => report ("failed to parse ".toList ++ source) e.message

theorem list_eq (o : Options) (source css : Text) : list o source css =
    ⟨if (parse css).error = none then 0 else 1, listing o (parse css).events,
      notices o css ++ failure source (parse css).error⟩ := by
  unfold list
  dsimp only
  split
  next h => simp [h, failure]
  next e h => simp [h, failure]

theorem list_out (o : Options) (source css : Text) :
    (list o source css).out = listing o (parse css).events := by
  rw [list_eq]

/-- Where no kind is asked for, every event is listed. -/
theorem filter_shows {o : Options} (h : o.only = []) (es : List Event) : es.filter (shows o) = es :=
  List.filter_eq_self.mpr fun e _ => by simp [shows, h]

end Command
end Stylesheet
