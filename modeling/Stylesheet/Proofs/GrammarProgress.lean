import Stylesheet.Parse
import Stylesheet.Proofs.Progress
import Stylesheet.Proofs.Statements

/-! Every production of the grammar moves on, or leaves all as it was. -/
namespace Stylesheet
namespace Grammar
open Production
variable {n : Nat}

/-! Selectors. -/

theorem elementName_inStep : InStep n passed elementName elementName := by
  refine .option (.accept (by decide)) (fun t => ?_) (.pure rfl)
  exact .pure (Nat.sub_eq_zero_of_le (by cases ElementName.ofToken? t <;> simp [passed]))

theorem hash_inStep : InStep n passed hash hash :=
  .option (.accept (by decide)) (fun _ => .pure rfl) (.pure rfl)

theorem className_inStep : InStep n passed className className :=
  .option (.accept (by decide)) (fun _ => .bind (.expect (by decide)) fun _ => .pure rfl) (.pure rfl)

theorem attribTest_inStep : InStep n (fun _ => 0) attribTest attribTest :=
  .option (.accept (by decide)) (fun _ => .bind (.expect (by decide)) fun _ => .pure rfl) (.pure rfl)

theorem attrib_inStep : InStep n passed attrib attrib :=
  .option (.accept (by decide)) (fun _ => .bind (.expect (by decide)) fun _ =>
    .bind attribTest_inStep fun _ => .bind (.expect (by decide)) fun _ => .pure rfl) (.pure rfl)

theorem pseudoFunction_inStep : InStep n (fun _ => 1) pseudoFunction pseudoFunction :=
  .bind (.expect (by decide)) fun _ => .bind (InStep.accept (by decide)).any fun _ =>
    .bind (.expect (by decide)) fun _ => .pure rfl

theorem pseudo_inStep : InStep n passed pseudo pseudo :=
  .option (.accept (by decide)) (fun _ => .option (.accept (by decide)) (fun _ => .pure rfl)
    (.bind pseudoFunction_inStep fun _ => .pure rfl)) (.pure rfl)

theorem modifier_inStep : InStep n passed modifier modifier :=
  .orElse hash_inStep (.orElse className_inStep (.orElse attrib_inStep pseudo_inStep))

theorem adjoiningModifier_inStep : InStep n passed adjoiningModifier adjoiningModifier := by
  refine .bind (.withSpace .next true) fun t => ?_
  cases t.isSpace with
  | true => exact .pure rfl
  | false => exact modifier_inStep

theorem simpleSelector_inStep : InStep n passed simpleSelector simpleSelector := by
  have hmany {m : Nat} := InStep.many (adjoiningModifier_inStep (n := m))
  refine .option elementName_inStep (fun _ => .bind hmany fun _ => .pure rfl) ?_
  exact .option modifier_inStep (fun _ => .bind hmany fun _ => .pure rfl) (.pure rfl)

theorem combinator_inStep : InStep n passed combinator combinator :=
  .option (.classify rfl) (fun _ => .pure rfl) (.pure rfl)

theorem linked_inStep (c : Combinator) : InStep n (fun _ => 1) (linked c) (linked c) :=
  .option simpleSelector_inStep (fun _ => .pure rfl) .reject

theorem linkedAfterSpace_inStep : InStep n passed linkedAfterSpace linkedAfterSpace := by
  refine .option combinator_inStep (fun c => ?_)
    (.option simpleSelector_inStep (fun _ => .pure rfl) (.pure rfl))
  exact (linked_inStep c).weaken fun o => by cases o <;> simp [passed]

theorem link_inStep : InStep n passed link link := by
  refine .option combinator_inStep (fun c => ?_)
    (.option (.withSpace (.accept (by decide)) true) (fun _ => ?_) (.pure rfl))
  · exact (linked_inStep c).weaken fun o => by cases o <;> simp [passed]
  · exact linkedAfterSpace_inStep.weaken fun _ => Nat.sub_le _ _

theorem selector_inStep : InStep n passed selector selector :=
  .option simpleSelector_inStep (fun _ => .bind (.many link_inStep) fun _ => .pure rfl) (.pure rfl)

/-! Values. -/

theorem operator_inStep : InStep n passed operator operator :=
  .option (.classify rfl) (fun _ => .pure rfl) (.pure rfl)

theorem sign_inStep : InStep n passed sign sign :=
  .option (.classify rfl) (fun _ => .pure rfl) (.pure rfl)

theorem plainTerm_inStep : InStep n passed plainTerm plainTerm :=
  .option (.classify rfl) (fun _ => .pure rfl) (.pure rfl)

theorem hexColor_inStep : InStep n passed hexColor hexColor := by
  refine .option (.accept (by decide)) (fun t => ?_) (.pure rfl)
  dsimp only
  split
  · exact .pure rfl
  · exact .fail _

section
variable {p q : Production Value}

theorem function_inStep (h : InStep n (fun _ => 0) p q) :
    InStep (n + 1) passed (function p) (function q) :=
  .option (.accept (by decide)) (fun _ => .bind h fun _ =>
    .bind (InStep.accept (by decide)).any fun _ => .pure rfl) (.pure rfl)

/-- What is read of a term that stands at `x`, behind its sign `s` or where it has none. -/
def behindSign (arguments : Production Value) (x : Position) (s : Option Sign) :
    Production (Option Term) := do
  match ← orElse plainTerm (orElse hexColor (function arguments)) with
  | some (k, text) => pure (some (.ofSigned s text k x))
  | none => pure none

theorem behindSign_inStep (h : InStep n (fun _ => 0) p q) (x : Position) (s : Option Sign) :
    InStep (n + 1) passed (behindSign p x s) (behindSign q x s) :=
  .option (.orElse plainTerm_inStep (.orElse hexColor_inStep (function_inStep h))) (fun _ => .pure rfl)
    (.pure rfl)

theorem term_inStep (h : InStep n (fun _ => 0) p q) : InStep (n + 1) passed (term p) (term q) :=
  .bind .next fun t => .bind sign_inStep.any (behindSign_inStep h t.position)

/-- One round of `moreParts`. -/
def moreRound (arguments again : Production Value) : Production Value := do
  let o ← operator
  let parts := (o.map Value.Part.operator).toList
  match ← term arguments with
  | some t => return parts ++ .term t :: (← again)
  | none => pure parts

theorem moreRound_inStep {m : Nat} {r s : Production Value} (h : InStep n (fun _ => 0) p q)
    (hm : m ≤ n) (hr : InStep m (fun _ => 0) r s) :
    InStep (m + 1) (fun _ => 0) (moreRound p r) (moreRound q s) := by
  refine .bind operator_inStep.any fun _ => ?_
  exact .option ((term_inStep h).mono (by omega)) (fun _ => hr.bind fun _ => .pure rfl) (.pure rfl)

theorem moreParts_inStep (h : InStep n (fun _ => 0) p q) :
    InStep (n + 1) (fun _ => 0) (moreParts p) (moreParts q) :=
  .recursive fun _ hm _ _ hr => moreRound_inStep h (Nat.le_of_lt_succ hm) hr

/-- The tokens that a value stands for at least. -/
def valuePassed (v : Value) : Nat := if v = [] then 0 else 1

theorem parts_inStep (h : InStep n (fun _ => 0) p q) :
    InStep (n + 1) valuePassed (parts p) (parts q) := by
  refine .option (term_inStep h) (fun t => ?_) (.pure rfl)
  exact .bind ((moreParts_inStep h).mono (Nat.le_succ n)) fun v => .pure (by simp [valuePassed])

end

theorem value_grounded : Grounded parts :=
  grounded_of_inStep fun _ _ _ h => (parts_inStep h).any

/-- A value, be it empty or not. -/
theorem arguments_inStep : InStep n (fun _ => 0) value value :=
  .recursive fun _ _ _ _ h => (parts_inStep h).any

theorem value_inStep : InStep n valuePassed value value := by
  intro c hc hl
  refine ⟨rfl, ?_⟩
  have heq : value c = parts value c := value_grounded.plain c hc
  rw [heq]
  exact (parts_inStep arguments_inStep c hc (hl.trans (Nat.lt_succ_self n))).2

theorem moreParts_grounded : Grounded (moreRound value) :=
  grounded_of_inStep fun _ _ _ h => moreRound_inStep arguments_inStep le_rfl h

/-! Statements. -/

theorem declaration_inStep : InStep n passed declaration declaration := by
  refine .option (.accept (by decide)) (fun name => .bind (.expect (by decide)) fun _ =>
    .bind value_inStep fun v => ?_) (.pure rfl)
  cases v.isEmpty with
  | true => exact .reject
  | false =>
    exact .bind (InStep.accept (by decide)).any fun _ =>
      .bind (.fire _) fun _ => .pure (by simp [passed])

theorem nextDeclaration_inStep : InStep n passed nextDeclaration nextDeclaration :=
  .option (.accept (by decide)) (fun _ => .bind declaration_inStep.any fun _ => .pure rfl) (.pure rfl)

theorem declarations_inStep : InStep n (fun _ => 0) declarations declarations :=
  .bind declaration_inStep.any fun _ =>
    .bind (.many nextDeclaration_inStep) fun _ => .pure rfl

theorem nextSelector_inStep : InStep n passed nextSelector nextSelector :=
  .option (.accept (by decide)) (fun _ => .option selector_inStep (fun _ => .pure rfl) .reject) (.pure rfl)

/-- A block in braces. -/
theorem block_inStep {α : Type} {p : Production α} {b e : Event}
    (h : ∀ {m}, InStep m (fun _ => 0) p p) :
    InStep n (fun _ => 1) (do let _ ← expect [.lbrace]; fire b; let _ ← p; let _ ← expect [.rbrace]; fire e)
      (do let _ ← expect [.lbrace]; fire b; let _ ← p; let _ ← expect [.rbrace]; fire e) :=
  .bind (.expect (by decide)) fun _ => .bind (.fire b) fun _ => .bind h fun _ =>
    .bind (.expect (by decide)) fun _ => (InStep.fire e).weaken fun _ => le_rfl

theorem ruleBlock_inStep (ss : List Selector) : InStep n (fun _ => 1) (ruleBlock ss) (ruleBlock ss) :=
  block_inStep declarations_inStep

theorem ruleset_inStep : InStep n passed ruleset ruleset :=
  .option selector_inStep (fun _ => .bind (.many nextSelector_inStep) fun _ =>
    .bind (ruleBlock_inStep _).any fun _ => .pure rfl) (.pure rfl)

theorem nextMedium_inStep : InStep n passed nextMedium nextMedium :=
  .option (.accept (by decide)) (fun _ => .bind (.expect (by decide)) fun _ => .pure rfl) (.pure rfl)

theorem mediaList_inStep : InStep n (fun _ => 1) mediaList mediaList :=
  .bind (.expect (by decide)) fun _ => .bind (.many nextMedium_inStep) fun _ => .pure rfl

theorem media_inStep : InStep n (fun _ => 1) media media :=
  .bind (.expect (by decide)) fun _ => .bind mediaList_inStep.any fun _ =>
    (block_inStep (.many ruleset_inStep)).any

theorem pagePseudo_inStep : InStep n passed pagePseudo pagePseudo :=
  .option (.accept (by decide)) (fun _ => .bind (.expect (by decide)) fun _ => .pure rfl) (.pure rfl)

theorem page_inStep : InStep n (fun _ => 1) page page :=
  .bind (.expect (by decide)) fun _ => .bind pagePseudo_inStep.any fun _ =>
    (block_inStep declarations_inStep).any

theorem charset_inStep : InStep n (fun _ => 0) charset charset :=
  .option (.accept (by decide)) (fun _ => .bind (.expect (by decide)) fun _ =>
    .bind (.expect (by decide)) fun _ => .fire _) (.pure rfl)

theorem marks_inStep : InStep n (fun _ => 0) marks marks :=
  .bind (.many (.accept (by decide))) fun _ => .pure rfl

theorem importMedia_inStep : InStep n passed importMedia importMedia := by
  refine .bind .next fun t => ?_
  by_cases ht : t.kind = .ident
  · rw [if_pos ht]
    exact .bind mediaList_inStep fun _ => .pure rfl
  · rw [if_neg ht]
    exact .pure rfl

theorem importSheet_inStep : InStep n passed importSheet importSheet :=
  .option (.accept (by decide)) (fun _ => .bind (.expect (by decide)) fun _ =>
    .bind importMedia_inStep.any fun _ => .bind (.expect (by decide)) fun _ =>
      .bind (.fire _) fun _ => .bind marks_inStep fun _ => .pure rfl) (.pure rfl)

theorem statement_inStep : InStep n passed statement statement := by
  intro c hc hl
  by_cases hk : c.next.kind ∈ [Kind.cdo, .cdc]
  · -- Here the look ahead is what makes the mark match.
    rw [statement_mark hk]
    exact ⟨rfl, .matched hc (fun he => by simp [he] at hk) ()⟩
  · refine InStep.peek (R := fun t => t.kind ∉ [Kind.cdo, .cdc]) (fun t ht => ?_) hk hc hl
    split
    · exact .pure rfl
    next he => simp [he] at ht
    next he => simp [he] at ht
    · exact .bind media_inStep fun _ => .pure rfl
    · exact .bind page_inStep fun _ => .pure rfl
    · exact .option ruleset_inStep (fun _ => .pure rfl) .reject

theorem stylesheet_inStep : InStep n (fun _ => 0) stylesheet stylesheet :=
  .bind (.fire _) fun _ => .bind charset_inStep fun _ => .bind marks_inStep fun _ =>
    .bind (.many importSheet_inStep) fun _ => .bind (.many statement_inStep) fun _ => .fire _

/-! Nothing is moved without a match. -/

theorem elementName_unmoved : Unmoved elementName := by
  refine .opened (fun t ht => ?_) .pure
  obtain ⟨e, he⟩ : ∃ e, ElementName.ofToken? t = some e := by
    obtain hk | hk : t.kind = .ident ∨ t.kind = .star := by simpa using ht
    · exact ⟨_, by rw [ElementName.ofToken?, hk]⟩
    · exact ⟨_, by rw [ElementName.ofToken?, hk]⟩
  show Decided (pure (ElementName.ofToken? t))
  rw [he]
  exact .pure e

theorem hash_unmoved : Unmoved hash := .opened (fun _ _ => .pure _) .pure

theorem className_unmoved : Unmoved className := .opened (fun _ _ => .bind fun _ => .pure _) .pure

theorem attrib_unmoved : Unmoved attrib :=
  .opened (fun _ _ => .bind fun _ => .bind fun _ => .bind fun _ => .pure _) .pure

theorem pseudo_unmoved : Unmoved pseudo :=
  .opened (fun _ _ => .option (fun _ => .pure _) (.bind fun _ => .pure _)) .pure

theorem modifier_unmoved : Unmoved modifier :=
  .orElse hash_unmoved (.orElse className_unmoved (.orElse attrib_unmoved pseudo_unmoved))

theorem adjoiningModifier_unmoved : Unmoved adjoiningModifier := by
  refine .peek (fun _ => ⟨_, rfl⟩) fun t => ?_
  cases t.isSpace with
  | true => exact .pure
  | false => exact modifier_unmoved

theorem simpleSelector_unmoved : Unmoved simpleSelector :=
  elementName_unmoved.option (fun _ => .bind fun _ => .pure _)
    (modifier_unmoved.option (fun _ => .bind fun _ => .pure _) .pure)

theorem combinator_unmoved : Unmoved combinator := (Unmoved.classify _).option (fun _ => .pure _) .pure

theorem selector_unmoved : Unmoved selector :=
  simpleSelector_unmoved.option (fun _ => .bind fun _ => .pure _) .pure

theorem operator_unmoved : Unmoved operator := (Unmoved.classify _).option (fun _ => .pure _) .pure

theorem sign_unmoved : Unmoved sign := (Unmoved.classify _).option (fun _ => .pure _) .pure

theorem plainTerm_unmoved : Unmoved plainTerm := (Unmoved.classify _).option (fun _ => .pure _) .pure

theorem hexColor_unmoved : Unmoved hexColor := by
  refine .opened (fun t _ => ?_) .pure
  dsimp only
  split
  · exact .pure _
  · exact .fail _

theorem function_unmoved (arguments : Production Value) : Unmoved (function arguments) :=
  .opened (fun _ _ => .bind fun _ => .bind fun _ => .pure _) .pure

theorem behindSign_unmoved (arguments : Production Value) (x : Position) (s : Option Sign) :
    Unmoved (behindSign arguments x s) :=
  (plainTerm_unmoved.orElse (hexColor_unmoved.orElse (function_unmoved arguments))).option
    (fun _ => .pure _) .pure

/-- A term stands where the next token does, be it a sign or not. -/
theorem term_cases (arguments : Production Value) (c : Cursor) :
    term arguments c = behindSign arguments c.next.position none c ∨
      ∃ s, Sign.ofKind? c.next.kind = some s ∧
        term arguments c = behindSign arguments c.next.position (some s) c.advance := by
  have hterm : term arguments c = (sign >>= behindSign arguments c.next.position) c :=
    bind_quiet (p := next) rfl
  cases hs : Sign.ofKind? c.next.kind with
  | none =>
    have hsign : sign c = ⟨[], c, .ok none⟩ := bind_quiet (classify_none hs)
    exact .inl (by rw [hterm, bind_quiet hsign])
  | some s =>
    have hsign : sign c = ⟨[], c.advance, .ok (some s)⟩ := bind_quiet (classify_some hs)
    exact .inr ⟨s, rfl, by rw [hterm, bind_quiet hsign]⟩

/-- A term that does not match has consumed a sign at most. -/
theorem term_unmatched {arguments : Production Value} {c : Cursor}
    (h : (term arguments c).result = .ok none) : (term arguments c).events = [] ∧
      ((term arguments c).cursor = c ∨
        c.next.kind ∈ [Kind.minus, .plus] ∧ (term arguments c).cursor = c.advance) := by
  obtain hterm | ⟨s, hs, hterm⟩ := term_cases arguments c
  · rw [hterm] at h ⊢
    rw [behindSign_unmoved arguments _ _ c h]
    exact ⟨rfl, .inl rfl⟩
  · rw [hterm] at h ⊢
    rw [behindSign_unmoved arguments _ _ c.advance h]
    exact ⟨rfl, .inr ⟨(isSome_sign _).mp (by rw [hs]; rfl), rfl⟩⟩

theorem declaration_unmoved : Unmoved declaration := by
  refine .opened (fun t _ => .bind fun _ => .bind fun v => ?_) .pure
  cases v.isEmpty with
  | true => exact .reject
  | false => exact .bind fun _ => .bind fun _ => .pure _

theorem nextDeclaration_unmoved : Unmoved nextDeclaration := .opened (fun _ _ => .bind fun _ => .pure _) .pure

theorem nextSelector_unmoved : Unmoved nextSelector :=
  .opened (fun _ _ => .option (fun _ => .pure _) .reject) .pure

theorem ruleset_unmoved : Unmoved ruleset :=
  selector_unmoved.option (fun _ => .bind fun _ => .bind fun _ => .pure _) .pure

theorem nextMedium_unmoved : Unmoved nextMedium := .opened (fun _ _ => .bind fun _ => .pure _) .pure

theorem pagePseudo_unmoved : Unmoved pagePseudo := .opened (fun _ _ => .bind fun _ => .pure _) .pure

theorem importMedia_unmoved : Unmoved importMedia := by
  refine .peek (fun _ => ⟨_, rfl⟩) fun t => ?_
  by_cases ht : t.kind = .ident
  · rw [if_pos ht]
    exact .of_decided (.bind fun _ => .pure _)
  · rw [if_neg ht]
    exact .pure

theorem importSheet_unmoved : Unmoved importSheet :=
  .opened (fun _ _ => .bind fun _ => .bind fun _ => .bind fun _ => .bind fun _ => .bind fun _ => .pure _) .pure

theorem statement_unmoved : Unmoved statement := by
  refine .peek (fun _ => ⟨_, rfl⟩) fun t => ?_
  split
  · exact .pure
  · exact .of_decided (.bind fun _ => .pure _)
  · exact .of_decided (.bind fun _ => .pure _)
  · exact .of_decided (.bind fun _ => .pure _)
  · exact .of_decided (.bind fun _ => .pure _)
  · exact .of_decided (.option (fun _ => .pure _) .reject)

/-! The grammar as a whole. -/

/-- The productions that may find nothing. -/
inductive Optional : {α : Type} → Production (Option α) → Prop
  /-- A property name, `!important` and other single tokens. -/
  | accept {ks : List Kind} (hk : .eof ∉ ks) : Optional (accept ks)
  | elementName : Optional elementName
  | hash : Optional hash
  | className : Optional className
  | attrib : Optional attrib
  | pseudo : Optional pseudo
  | modifier : Optional modifier
  | adjoiningModifier : Optional adjoiningModifier
  | simpleSelector : Optional simpleSelector
  | combinator : Optional combinator
  | selector : Optional selector
  | operator : Optional operator
  | sign : Optional sign
  | plainTerm : Optional plainTerm
  | hexColor : Optional hexColor
  | function : Optional (function value)
  | declaration : Optional declaration
  | nextDeclaration : Optional nextDeclaration
  | nextSelector : Optional nextSelector
  | ruleset : Optional ruleset
  | nextMedium : Optional nextMedium
  | pagePseudo : Optional pagePseudo
  | importMedia : Optional importMedia
  | importSheet : Optional importSheet
  | statement : Optional statement

/-- All productions, with the number of tokens that a result stands for at least. -/
inductive Rule : {α : Type} → Production α → (α → Nat) → Prop
  | optional {α : Type} {p : Production (Option α)} (h : Optional p) : Rule p passed
  | repeated {α : Type} {p : Production (Option α)} (h : Optional p) : Rule (many p) fun _ => 0
  | expect {ks : List Kind} (hk : .eof ∉ ks) : Rule (expect ks) fun _ => 1
  | attribTest : Rule attribTest fun _ => 0
  | pseudoFunction : Rule pseudoFunction fun _ => 1
  | linked (c : Combinator) : Rule (linked c) fun _ => 1
  | linkedAfterSpace : Rule linkedAfterSpace passed
  | link : Rule link passed
  | links : Rule (many link) fun _ => 0
  | term : Rule (term value) passed
  | moreParts : Rule (moreParts value) fun _ => 0
  | value : Rule value valuePassed
  | declarations : Rule declarations fun _ => 0
  | ruleBlock (ss : List Selector) : Rule (ruleBlock ss) fun _ => 1
  | mediaList : Rule mediaList fun _ => 1
  | media : Rule media fun _ => 1
  | page : Rule page fun _ => 1
  | charset : Rule charset fun _ => 0
  | marks : Rule marks fun _ => 0
  | stylesheet : Rule stylesheet fun _ => 0

/-- What is handed to `recursive`: one round of a repetition, or a value inside a value. -/
inductive Loop : {α : Type} → (Production α → Production α) → Prop
  | repeated {α : Type} {p : Production (Option α)} (h : Optional p) : Loop (round p)
  | links : Loop (round link)
  | moreParts : Loop (moreRound value)
  | value : Loop parts

section
variable {α : Type}

theorem Optional.inStep {p : Production (Option α)} (h : Optional p) : InStep n passed p p := by
  cases h with
  | accept hk => exact .accept hk
  | elementName => exact elementName_inStep
  | hash => exact hash_inStep
  | className => exact className_inStep
  | attrib => exact attrib_inStep
  | pseudo => exact pseudo_inStep
  | modifier => exact modifier_inStep
  | adjoiningModifier => exact adjoiningModifier_inStep
  | simpleSelector => exact simpleSelector_inStep
  | combinator => exact combinator_inStep
  | selector => exact selector_inStep
  | operator => exact operator_inStep
  | sign => exact sign_inStep
  | plainTerm => exact plainTerm_inStep
  | hexColor => exact hexColor_inStep
  | function => exact (function_inStep arguments_inStep).mono (Nat.le_succ n)
  | declaration => exact declaration_inStep
  | nextDeclaration => exact nextDeclaration_inStep
  | nextSelector => exact nextSelector_inStep
  | ruleset => exact ruleset_inStep
  | nextMedium => exact nextMedium_inStep
  | pagePseudo => exact pagePseudo_inStep
  | importMedia => exact importMedia_inStep
  | importSheet => exact importSheet_inStep
  | statement => exact statement_inStep

theorem Optional.unmoved {p : Production (Option α)} (h : Optional p) : Unmoved p := by
  cases h with
  | accept _ => exact .accept _
  | elementName => exact elementName_unmoved
  | hash => exact hash_unmoved
  | className => exact className_unmoved
  | attrib => exact attrib_unmoved
  | pseudo => exact pseudo_unmoved
  | modifier => exact modifier_unmoved
  | adjoiningModifier => exact adjoiningModifier_unmoved
  | simpleSelector => exact simpleSelector_unmoved
  | combinator => exact combinator_unmoved
  | selector => exact selector_unmoved
  | operator => exact operator_unmoved
  | sign => exact sign_unmoved
  | plainTerm => exact plainTerm_unmoved
  | hexColor => exact hexColor_unmoved
  | function => exact function_unmoved Grammar.value
  | declaration => exact declaration_unmoved
  | nextDeclaration => exact nextDeclaration_unmoved
  | nextSelector => exact nextSelector_unmoved
  | ruleset => exact ruleset_unmoved
  | nextMedium => exact nextMedium_unmoved
  | pagePseudo => exact pagePseudo_unmoved
  | importMedia => exact importMedia_unmoved
  | importSheet => exact importSheet_unmoved
  | statement => exact statement_unmoved

theorem Rule.inStep {p : Production α} {δ : α → Nat} (h : Rule p δ) : InStep n δ p p := by
  cases h with
  | optional h => exact h.inStep
  | repeated h => exact .many h.inStep
  | expect hk => exact .expect hk
  | attribTest => exact attribTest_inStep
  | pseudoFunction => exact pseudoFunction_inStep
  | linked c => exact linked_inStep c
  | linkedAfterSpace => exact linkedAfterSpace_inStep
  | link => exact link_inStep
  | links => exact .many link_inStep
  | term => exact (term_inStep arguments_inStep).mono (Nat.le_succ n)
  | moreParts => exact (moreParts_inStep arguments_inStep).mono (Nat.le_succ n)
  | value => exact value_inStep
  | declarations => exact declarations_inStep
  | ruleBlock ss => exact ruleBlock_inStep ss
  | mediaList => exact mediaList_inStep
  | media => exact media_inStep
  | page => exact page_inStep
  | charset => exact charset_inStep
  | marks => exact marks_inStep
  | stylesheet => exact stylesheet_inStep

theorem Loop.grounded {body : Production α → Production α} (h : Loop body) : Grounded body := by
  cases h with
  | repeated h => exact grounded_of_inStep fun _ _ _ hr => .round h.inStep hr
  | links => exact grounded_of_inStep fun _ _ _ hr => .round link_inStep hr
  | moreParts => exact moreParts_grounded
  | value => exact value_grounded

end

/-- What every production does at a cursor. -/
structure Contract (c : Cursor) : Prop where
  /-- Without a match nothing is consumed, fired or changed. -/
  unmatched : ∀ {α : Type} {p : Production (Option α)}, Optional p →
    (p c).result = .ok none → p c = ⟨[], c, .ok none⟩
  /-- A term that does not match has consumed at most a sign. -/
  term : (term value c).result = .ok none → (term value c).events = [] ∧
    ((term value c).cursor = c ∨ c.next.kind ∈ [Kind.minus, .plus] ∧ (term value c).cursor = c.advance)
  /-- A match has consumed what it stands for, one token at least. -/
  matched : ∀ {α : Type} {p : Production α} {δ : α → Nat}, Rule p δ → ∀ a, (p c).result = .ok a →
    (p c).cursor.ahead.length + δ a ≤ c.ahead.length
  /-- With a match, without one and after a failure reading has gone on, never back, and blanks are
  as visible as before. -/
  onward : ∀ {α : Type} {p : Production α} {δ : α → Nat}, Rule p δ → c.Onward (p c).cursor

theorem contract {c : Cursor} (hc : c.last.isEof) : Contract c where
  unmatched h := h.unmoved c
  term := term_unmatched
  matched h := (h.inStep c hc (Nat.lt_succ_self _)).2.passed
  onward h := (h.inStep c hc (Nat.lt_succ_self _)).2.onward

end Grammar

/-- A place in the tokens of a text, whatever is current there and whatever visible. -/
structure Cursor.Within (css : Text) (c : Cursor) : Prop where
  ahead : c.ahead <:+ (tokens css).dropLast
  last : c.last = endToken css

theorem Cursor.Within.onward {css : Text} {c d : Cursor} (h : c.Within css) (hd : c.Onward d) :
    d.Within css := ⟨hd.ahead.trans h.ahead, hd.last.trans h.last⟩

theorem Cursor.ofText_within (css : Text) : (Cursor.ofText css).Within css := by
  have hend : withEnd (tokens css) = tokens css := by simp [withEnd, tokens, endToken, Token.isEof]
  refine ⟨?_, ?_⟩
  · simp [ofText, ofTokens, hend]
  · show (withEnd (tokens css)).getLastD _ = endToken css
    rw [hend, tokens, List.getLastD_concat]

/-- Wherever a parse of a text may stand, productions that match move on and the others leave all as
it was, so that every loop and every value inside a value comes to an end. -/
theorem productions_progress (css : Text) : (Cursor.ofText css).Within css ∧
    (∀ c : Cursor, c.Within css → Grammar.Contract c ∧
      ∀ {α : Type} {p : Production α} {δ : α → Nat}, Grammar.Rule p δ → (p c).cursor.Within css) ∧
    ∀ {α : Type} {body : Production α → Production α}, Grammar.Loop body → Production.Grounded body := by
  refine ⟨Cursor.ofText_within css, fun c hc => ?_, fun h => h.grounded⟩
  have hcontract : Grammar.Contract c := Grammar.contract (by rw [hc.last]; rfl)
  exact ⟨hcontract, fun h => hc.onward (hcontract.onward h)⟩

/-- A declaration of a rule that lacks its value, but for a sign. -/
def signOnly : Text := "a\x7bb:-".toList

/-- Before the sign. -/
def beforeSign : Cursor :=
  ⟨[⟨.minus, ['-'], ⟨1, 5⟩⟩], ⟨.eof, [], ⟨1, 6⟩⟩, ⟨.colon, [':'], ⟨1, 4⟩⟩, false⟩

theorem signOnly_progress : beforeSign.Within signOnly ∧ Grammar.Contract beforeSign ∧
    (Grammar.term Grammar.value beforeSign).result = .ok none ∧
    (Grammar.term Grammar.value beforeSign).cursor = beforeSign.advance := by
  have hwithin : beforeSign.Within signOnly := by
    have htokens : tokens signOnly = [⟨.ident, ['a'], ⟨1, 1⟩⟩, ⟨.lbrace, ['\x7b'], ⟨1, 2⟩⟩,
        ⟨.ident, ['b'], ⟨1, 3⟩⟩, ⟨.colon, [':'], ⟨1, 4⟩⟩, ⟨.minus, ['-'], ⟨1, 5⟩⟩,
        ⟨.eof, [], ⟨1, 6⟩⟩] := by cbv
    exact ⟨⟨[⟨.ident, ['a'], ⟨1, 1⟩⟩, ⟨.lbrace, ['\x7b'], ⟨1, 2⟩⟩, ⟨.ident, ['b'], ⟨1, 3⟩⟩,
      ⟨.colon, [':'], ⟨1, 4⟩⟩], by rw [htokens]; rfl⟩, by cbv⟩
  exact ⟨hwithin, ((productions_progress signOnly).2.1 beforeSign hwithin).1, by cbv, by cbv⟩

end Stylesheet
