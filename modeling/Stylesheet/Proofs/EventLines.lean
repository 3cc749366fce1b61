import Stylesheet.Proofs.JsonLines

/-! The lines that the command writes: how the line of an event reads, in color or as JSON, and that of
a warning, and the report of a failure. Each of them brings the line feed that ends it. -/
namespace Stylesheet.Command

/-- What is shown of the data of an event that is no declaration. -/
inductive Detail : Event → Text → Prop
  | charset (name : Text) : Detail (.charset name) (quoted name)
  | importSheet (uri : Text) : Detail (.importSheet uri none) (quoted uri)
  | importFor (uri : Text) (l : MediaList) :
      Detail (.importSheet uri (some l)) (quoted uri ++ ' ' :: ", ".toList.intercalate l.toList)
  | startMedia (l : MediaList) : Detail (.startMedia l) (", ".toList.intercalate l.toList)
  | endMedia (l : MediaList) : Detail (.endMedia l) (", ".toList.intercalate l.toList)
  | startPage : Detail (.startPage none) []
  | startPageOf (pseudo : Text) : Detail (.startPage (some pseudo)) (':' :: pseudo)
  | endPage : Detail (.endPage none) []
  | endPageOf (pseudo : Text) : Detail (.endPage (some pseudo)) (':' :: pseudo)
  | startRule (ss : List Selector) : Detail (.startRule ss) (", ".toList.intercalate (ss.map Selector.text))
  | endRule (ss : List Selector) : Detail (.endRule ss) (", ".toList.intercalate (ss.map Selector.text))

/-- The line of an event, with the line feed that ends it: the JSON text that is read back as the event,
or the name of its kind in color and its data. -/
inductive EventLine : Bool → Event → Text → Prop
  | object {e : Event} (hread : Event.ofText? e.json.text = some e)
      (hflat : ∀ c ∈ e.json.text, 32 ≤ c.toNat) : EventLine true e (e.json.text ++ "\n".toList)
  | edge {e : Event} (he : e = .startStylesheet ∨ e = .endStylesheet) :
      EventLine false e ("\x1b[2m".toList ++ e.kind.name ++ "\x1b[0m\n".toList)
  | declaration (name : Text) (v : Value) (important : Bool) :
      EventLine false (.property name v important) ("  \x1b[36mproperty\x1b[39m ".toList ++ name ++
        ": ".toList ++ v.render ++ (if important then " !important".toList else []) ++ "\n".toList)
  | other {e : Event} {s : Text} (h : Detail e s) : EventLine false e
      ("\x1b[1m\x1b[32m".toList ++ e.kind.name ++ "\x1b[39m\x1b[0m ".toList ++ s ++ "\n".toList)

theorem Detail.listed {e : Event} {s : Text} (h : Detail e s) :
    e.listed = Style.boldGreen.apply e.kind.name ++ ' ' :: s := by
  cases h <;> rfl

theorem EventLine.of_detail {e : Event} {s : Text} (h : Detail e s) :
    EventLine false e (e.listed ++ ['\n']) := by
  have heq : ∀ name s : Text, Style.boldGreen.apply name ++ ' ' :: s ++ ['\n'] =
      "\x1b[1m\x1b[32m".toList ++ name ++ "\x1b[39m\x1b[0m ".toList ++ s ++ "\n".toList := by
    intro name s
    simp only [Style.apply, List.append_assoc, List.cons_append]
    rfl
  rw [Detail.listed h, heq]
  exact .other h

theorem EventLine.of_property (name : Text) (v : Value) (important : Bool) :
    EventLine false (.property name v important) ((Event.property name v important).listed ++ ['\n']) := by
  have heq : (Event.property name v important).listed ++ ['\n'] =
      "  \x1b[36mproperty\x1b[39m ".toList ++ name ++ ": ".toList ++ v.render ++
        (if important then " !important".toList else []) ++ "\n".toList := by
    simp only [Event.listed, Event.detail, Style.apply, List.append_assoc, List.cons_append]
    rfl
  exact heq ▸ .declaration name v important

/-- What the command prints for an event is its line. -/
theorem eventLine_eq (o : Options) (e : Event) : EventLine o.json e (eventLine o e) := by
  unfold eventLine
  cases o.json with
  | true => exact .object e.ofText?_text (Json.uncontrolled_text e.json)
  | false =>
    cases e with
    | startStylesheet => exact .edge (.inl rfl)
    | endStylesheet => exact .edge (.inr rfl)
    | property name v important => exact .of_property name v important
    | charset name => exact .of_detail (.charset name)
    | importSheet uri l =>
      cases l with
      | none => exact .of_detail (.importSheet uri)
      | some l => exact .of_detail (.importFor uri l)
    | startMedia l => exact .of_detail (.startMedia l)
    | endMedia l => exact .of_detail (.endMedia l)
    | startPage p =>
      cases p with
      | none => exact .of_detail .startPage
      | some p => exact .of_detail (.startPageOf p)
    | endPage p =>
      cases p with
      | none => exact .of_detail .endPage
      | some p => exact .of_detail (.endPageOf p)
    | startRule ss => exact .of_detail (.startRule ss)
    | endRule ss => exact .of_detail (.endRule ss)

theorem warningLine_eq {css : Text} {w : Warning} (hw : w ∈ warnings css) :
    warningLine w = "\x1b[33m[Cascara CSS] ⚠ ".toList ++ w.message ++ "\x1b[39m\n".toList := by
  obtain ⟨f, -, rfl⟩ := List.mem_map.mp hw
  show Style.yellow.apply ("[Cascara ".toList ++ "CSS".toList ++ "] ⚠ ".toList ++ f.message) ++ ['\n'] = _
  simp only [Style.apply, List.append_assoc]
  rfl

/-- What is reported of the end of a parse of `source`: the cause of a failure, its rows behind the first
one indented. -/
inductive Reported (source : Text) : Option ParseError → Text → Prop
  | passed : Reported source none []
  | failed (e : ParseError) : Reported source (some e) ("Error: failed to parse ".toList ++ source ++
      "\n\nCaused by:\n    ".toList ++ indentRows e.message ++ ['\n'])

theorem failure_reported (source : Text) (e : Option ParseError) :
    Reported source e (failure source e) := by
  cases e with
  | none => exact .passed
  | some e =>
    have hfront : "Error: ".toList ++ ("failed to parse ".toList ++ source) =
        "Error: failed to parse ".toList ++ source := by
      rw [← List.append_assoc]
      rfl
    have hreport : failure source (some e) = "Error: ".toList ++ ("failed to parse ".toList ++ source) ++
        "\n\nCaused by:\n    ".toList ++ indentRows e.message ++ ['\n'] := rfl
    rw [hreport, hfront]
    exact .failed e

end Stylesheet.Command
