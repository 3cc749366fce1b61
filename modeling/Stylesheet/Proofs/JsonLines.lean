import Stylesheet.Proofs.JsonReading
import Stylesheet.Proofs.Sessions

/-! Events read back from their JSON texts, and the events of a listing from its lines. -/
namespace Stylesheet

namespace Json

def member? (name : Text) : Json → Option Json
  | obj ms => ms.lookup name
  | _ => none

/-- The name and the value of the only member. -/
def tagged? : Json → Option (Text × Json)
  | obj [m] => some m
  | _ => none

def string? : Json → Option Text
  | str s => some s
  | _ => none

def number? : Json → Option Nat
  | num n => some n
  | _ => none

def bool? : Json → Option Bool
  | bool b => some b
  | _ => none

variable {α : Type}

def items? (f : Json → Option α) : Json → Option (List α)
  | arr xs => xs.mapM f
  | _ => none

def option? (f : Json → Option α) : Json → Option (Option α)
  | null => some none
  | x => (f x).map some

theorem items?_map {f : Json → Option α} {g : α → Json} (h : ∀ a, f (g a) = some a) (l : List α) :
    items? f (arr (l.map g)) = some l := by
  have hg : f ∘ g = fun a => pure a := funext h
  rw [items?, List.mapM_map, hg, List.mapM_pure]
  simp

theorem option?_ofOption {f : Json → Option α} {g : α → Json} (h : ∀ a, f (g a) = some a)
    (hnull : ∀ a, g a ≠ null) (o : Option α) : option? f (ofOption g o) = some o := by
  cases o with
  | none => rfl
  | some a =>
    rw [ofOption, option?]
    · rw [h, Option.map_some]
    · exact hnull a

end Json

/-! Selectors. -/

def ElementName.ofJson? : Json → Option ElementName
  | .str s => if s = "Universal".toList then some .universal else none
  | x => do
    let name ← (← x.member? "Named".toList).string?
    return .named name

def Modifier.ofJson? (x : Json) : Option Modifier := do
  let (tag, y) ← x.tagged?
  let s ← y.string?
  if tag = "Id".toList then return .id s
  else if tag = "Class".toList then return .className s
  else if tag = "Attribute".toList then return .attrib s
  else if tag = "Pseudo".toList then return .pseudo s
  else none

/-- The text that goes with the parts must be theirs. -/
def SimpleSelector.ofJson? (x : Json) : Option SimpleSelector := do
  let element ← (← x.member? "element_name".toList).option? ElementName.ofJson?
  let modifiers ← (← x.member? "modifiers".toList).items? Modifier.ofJson?
  let text ← (← x.member? "text".toList).string?
  let u ← ofParts? element modifiers
  if u.text = text then return u else none

def Combinator.all : List Combinator := [descendant, child, adjacentSibling]

def Combinator.ofName? (s : Text) : Option Combinator := all.find? (·.name = s)

def Selector.Part.ofJson? (x : Json) : Option Selector.Part := do
  let (tag, y) ← x.tagged?
  if tag = "Unit".toList then return .unit (← SimpleSelector.ofJson? y)
  else if tag = "Combinator".toList then return .combinator (← Combinator.ofName? (← y.string?))
  else none

/-- Combinators with the simple selectors they lead to, in turn. -/
def Selector.links? : List Selector.Part → Option (List (Combinator × SimpleSelector))
  | [] => some []
  | .combinator c :: .unit u :: ps => (links? ps).map ((c, u) :: ·)
  | _ => none

def Selector.ofParts? : List Selector.Part → Option Selector
  | .unit u :: ps => (links? ps).map (⟨u, ·⟩)
  | _ => none

def Selector.ofJson? (x : Json) : Option Selector := do
  ofParts? (← x.items? Selector.Part.ofJson?)

theorem ElementName.ofJson?_json (e : ElementName) : ofJson? e.json = some e := by
  cases e <;> rfl

theorem Modifier.ofJson?_json (m : Modifier) : ofJson? m.json = some m := by
  cases m <;> rfl

theorem SimpleSelector.ofParts?_parts (u : SimpleSelector) : ofParts? u.element u.modifiers = some u := by
  rw [ofParts?, dif_pos u.nonempty]

theorem SimpleSelector.ofJson?_json (u : SimpleSelector) : ofJson? u.json = some u := by
  have helement := Json.option?_ofOption ElementName.ofJson?_json (by rintro (_ | _) <;> nofun) u.element
  have hmodifiers := Json.items?_map Modifier.ofJson?_json u.modifiers
  show (do
    let element ← (Json.ofOption ElementName.json u.element).option? ElementName.ofJson?
    let modifiers ← (Json.arr (u.modifiers.map Modifier.json)).items? Modifier.ofJson?
    let v ← ofParts? element modifiers
    if v.text = u.text then return v else none) = some u
  rw [helement, hmodifiers]
  simp [ofParts?_parts]

theorem Selector.Part.ofJson?_json (p : Selector.Part) : ofJson? p.json = some p := by
  cases p with
  | unit u =>
    show (do return .unit (← SimpleSelector.ofJson? u.json)) = some (unit u)
    rw [SimpleSelector.ofJson?_json]
    rfl
  | combinator c => cases c <;> rfl

theorem Selector.links?_flatMap (l : List (Combinator × SimpleSelector)) :
    links? (l.flatMap fun (c, u) => [.combinator c, .unit u]) = some l := by
  induction l with
  | nil => rfl
  | cons p l ih =>
    rw [List.flatMap_cons, List.cons_append, List.cons_append, List.nil_append, links?, ih, Option.map_some]

theorem Selector.ofParts?_parts (s : Selector) : ofParts? s.parts = some s := by
  rw [parts, ofParts?, links?_flatMap, Option.map_some]

theorem Selector.ofJson?_json (s : Selector) : ofJson? s.json = some s := by
  rw [ofJson?, json, Json.items?_map Selector.Part.ofJson?_json]
  exact ofParts?_parts s

/-! Values and media. -/

def Term.ofJson? (x : Json) : Option Term := do
  let text ← (← x.member? "text".toList).string?
  let kind ← TermKind.ofName? (← (← x.member? "kind".toList).string?)
  let row ← (← x.member? "line".toList).number?
  let column ← (← x.member? "column".toList).number?
  return ⟨text, kind, ⟨row, column⟩⟩

def Operator.ofName? (s : Text) : Option Operator :=
  if s = "Slash".toList then some .slash else if s = "Comma".toList then some .comma else none

def Value.Part.ofJson? (x : Json) : Option Value.Part := do
  let (tag, y) ← x.tagged?
  if tag = "Term".toList then return .term (← Term.ofJson? y)
  else if tag = "Operator".toList then return .operator (← Operator.ofName? (← y.string?))
  else none

def MediaList.ofJson? (x : Json) : Option MediaList := do
  ofList? (← x.items? Json.string?)

theorem TermKind.ofName?_name (k : TermKind) : ofName? k.name = some k := by
  cases k <;> rfl

theorem Term.ofJson?_json (t : Term) : ofJson? t.json = some t := by
  show (do
    let kind ← TermKind.ofName? t.kind.name
    return ⟨t.text, kind, t.position⟩) = some t
  rw [TermKind.ofName?_name]
  rfl

theorem Value.Part.ofJson?_json (p : Value.Part) : ofJson? p.json = some p := by
  cases p with
  | term t =>
    show (do return .term (← Term.ofJson? t.json)) = some (term t)
    rw [Term.ofJson?_json]
    rfl
  | operator o => cases o <;> rfl

theorem Value.items?_json (v : Value) : v.json.items? Part.ofJson? = some v :=
  Json.items?_map Part.ofJson?_json v

theorem MediaList.ofJson?_json (l : MediaList) : ofJson? l.json = some l := by
  have h : l.json.items? Json.string? = some l.toList :=
    Json.items?_map (g := Json.str) (fun _ => rfl) l.toList
  rw [ofJson?, h]
  rfl

/-! Events. -/

def Event.ofJson? (x : Json) : Option Event := do
  match ← EventKind.ofName? (← (← x.member? "type".toList).string?) with
  | .startStylesheet => return .startStylesheet
  | .charset => return .charset (← (← x.member? "charset".toList).string?)
  | .importSheet =>
    let uri ← (← x.member? "uri".toList).string?
    return .importSheet uri (← (← x.member? "media".toList).option? MediaList.ofJson?)
  | .startMedia => return .startMedia (← MediaList.ofJson? (← x.member? "media".toList))
  | .endMedia => return .endMedia (← MediaList.ofJson? (← x.member? "media".toList))
  | .startPage => return .startPage (← (← x.member? "pseudo".toList).option? Json.string?)
  | .endPage => return .endPage (← (← x.member? "pseudo".toList).option? Json.string?)
  | .startRule => return .startRule (← (← x.member? "selectors".toList).items? Selector.ofJson?)
  | .endRule => return .endRule (← (← x.member? "selectors".toList).items? Selector.ofJson?)
  | .property =>
    let name ← (← x.member? "property".toList).string?
    let value ← (← x.member? "value".toList).items? Value.Part.ofJson?
    return .property name value (← (← x.member? "important".toList).bool?)
  | .endStylesheet => return .endStylesheet

theorem EventKind.ofName?_name (k : EventKind) : ofName? k.name = some k := by
  cases k <;> rfl

theorem Event.ofJson?_json (e : Event) : ofJson? e.json = some e := by
  have hmedia := Json.option?_ofOption MediaList.ofJson?_json (by nofun)
  have hselectors := Json.items?_map Selector.ofJson?_json
  cases e with
  | startStylesheet => rfl
  | charset name => rfl
  | importSheet uri l =>
    show (do return importSheet uri (← (Json.ofOption MediaList.json l).option? MediaList.ofJson?)) =
      some (importSheet uri l)
    rw [hmedia]
    rfl
  | startMedia l =>
    show (do return startMedia (← MediaList.ofJson? l.json)) = some (startMedia l)
    rw [MediaList.ofJson?_json]
    rfl
  | endMedia l =>
    show (do return endMedia (← MediaList.ofJson? l.json)) = some (endMedia l)
    rw [MediaList.ofJson?_json]
    rfl
  | startPage p => cases p <;> rfl
  | endPage p => cases p <;> rfl
  | startRule ss =>
    show (do return startRule (← (Json.arr (ss.map Selector.json)).items? Selector.ofJson?)) = some (startRule ss)
    rw [hselectors]
    rfl
  | endRule ss =>
    show (do return endRule (← (Json.arr (ss.map Selector.json)).items? Selector.ofJson?)) = some (endRule ss)
    rw [hselectors]
    rfl
  | property name v important =>
    show (do
      let value ← v.json.items? Value.Part.ofJson?
      return property name value important) = some (property name v important)
    rw [Value.items?_json]
    rfl
  | endStylesheet => rfl

def Event.ofText? (s : Text) : Option Event := do ofJson? (← Json.ofText? s)

theorem Event.ofText?_text (e : Event) : ofText? e.json.text = some e := by
  rw [ofText?, Json.ofText?_text]
  exact ofJson?_json e

/-! Listings. -/

/-- The lines of a text, each of which ends with a line feed. -/
def rows (s : Text) : List Text := (s.splitOn '\n').dropLast

theorem rows_flatMap {ls : List Text} (h : ∀ l ∈ ls, '\n' ∉ l) : rows (ls.flatMap (· ++ ['\n'])) = ls := by
  have hsplit : (ls.flatMap (· ++ ['\n'])).splitOn '\n' = ls ++ [[]] := by
    induction ls with
    | nil => rfl
    | cons l ls ih =>
      rw [List.forall_mem_cons] at h
      rw [List.flatMap_cons, List.append_assoc, List.singleton_append,
        List.splitOn_append_cons_self_of_not_mem h.1, ih h.2, List.cons_append]
  rw [rows, hsplit, List.dropLast_concat]

/-- The events of the JSON texts on the lines of a text. -/
def Event.ofLines? (s : Text) : Option (List Event) := (rows s).mapM ofText?

theorem Event.ofLines?_lines (es : List Event) :
    ofLines? (es.flatMap fun e => e.json.text ++ ['\n']) = some es := by
  have hlines : ∀ l ∈ es.map fun e => e.json.text, '\n' ∉ l := by
    intro l hl hm
    obtain ⟨e, -, rfl⟩ := List.mem_map.mp hl
    exact absurd (Json.uncontrolled_text e.json '\n' hm) (by decide)
  have hread : ofText? ∘ (fun e => e.json.text) = fun e => pure e := funext ofText?_text
  have heq : (es.flatMap fun e => e.json.text ++ ['\n']) =
      (es.map fun e => e.json.text).flatMap (· ++ ['\n']) := by rw [List.flatMap_map]
  rw [heq, ofLines?, rows_flatMap hlines, List.mapM_map, hread, List.mapM_pure]
  simp

namespace Command

theorem ofLines?_list (o : Options) (source css : Text) :
    Event.ofLines? (list { o with json := true } source css).out =
      some ((parse css).events.filter (shows o)) := by
  rw [list_out]
  exact Event.ofLines?_lines _

end Command

/-- JSON lines lose nothing: the text of an event is one line that is read as the event, so no two
events share one, and what the command lists as JSON is read as the events that it lists. -/
theorem json_lines_faithful :
    (∀ e : Event, (∀ c ∈ e.json.text, 32 ≤ c.toNat) ∧ Event.ofText? e.json.text = some e) ∧
    Function.Injective (fun e : Event => e.json.text) ∧
    ∀ (o : Options) (source css : Text),
      Event.ofLines? (Command.list { o with json := true } source css).out =
        some ((parse css).events.filter (Command.shows o)) ∧
      Event.ofLines? (Command.list { o with json := true, only := [] } source css).out =
        some (parse css).events := by
  refine ⟨fun e => ⟨Json.uncontrolled_text e.json, e.ofText?_text⟩, fun d e h => ?_, fun o source css => ?_⟩
  · have heq : Event.ofText? d.json.text = Event.ofText? e.json.text := congrArg Event.ofText? h
    rw [Event.ofText?_text, Event.ofText?_text] at heq
    exact Option.some.inj heq
  · refine ⟨Command.ofLines?_list o source css, ?_⟩
    have hall := Command.ofLines?_list { o with only := [] } source css
    rwa [Command.filter_shows rfl] at hall

end Stylesheet
