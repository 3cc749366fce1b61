import Stylesheet.Grammar.Statements
import Stylesheet.Proofs.Selectors
import Stylesheet.Proofs.Values

/-! The productions of statements track the grammar of style sheets, and what they fire is a word of
the events' order. -/
namespace Stylesheet.Grammar
open Computability Syntax Production

theorem term_le_chain : Syntax.term ≤ chain Syntax.term := by
  have := mul_le_mul' (mul_le_mul' (le_refl Syntax.term)
    (one_le_kstar (a := opt Syntax.operator * Syntax.term))) (one_le_opt Syntax.operator)
  simpa [chain] using this

theorem sign_ident_le : opt Syntax.sign * tok [.ident] ≤
    chain Syntax.term * opt Syntax.sign * opt (tok [.importantSym]) := by
  have hkind : here [.ident] ≤ here valueKinds := by
    intro w ⟨t, ht, hw⟩
    exact ⟨t, by simp [valueKinds, List.mem_singleton.mp ht], hw⟩
  have hident : tok [.ident] ≤ bareWords := (mul_le_mul_right hkind blanks).trans le_sup_left
  have hterm : opt Syntax.sign * tok [.ident] ≤ chain Syntax.term :=
    ((mul_le_mul_right hident _).trans sign_bare_le).trans term_le_chain
  have := mul_le_mul' (mul_le_mul' hterm (one_le_opt Syntax.sign))
    (one_le_opt (tok [.importantSym]))
  simpa using this

/-- Where the value is empty, the rest of a declaration with some value. -/
theorem rejectValue_tracks : Tracks (reject : Production (Option Unit))
    (either 0 (tok [.ident])) (either 1 EventWords.property) := by
  have hident : Completes (tok [.ident]) [] := Plain.completes (by decide)
  exact .reject (a := some ()) ⟨hident, ⟨[.property [] [] false], ⟨_, _, _, rfl⟩⟩, rfl⟩ (by simp)

theorem declaration_tracks :
    Tracks declaration (either 1 Syntax.declaration) (either 1 EventWords.property) := by
  have himportant : Tracks (accept [.importantSym]) (fun _ => opt (tok [.importantSym])) fun _ => 1 :=
    (Tracks.accept _ (by decide)).mono (either_le_opt _) fun _ => le_rfl
  have hproperty : ∀ name v, Tracks (accept [.importantSym] >>= fun important =>
      fire (.property name v important.isSome) >>= fun _ => pure (some ()))
      (fun o => opt (tok [.importantSym]) * either 0 1 o) (either 1 EventWords.property) := by
    intro name v
    refine .next himportant fun important => .bind (.fire rfl) (fun _ => .matched) ?_ ?_
    · intro _ o
      simp
    · intro _ o
      cases o with
      | none => simp
      | some a =>
        have : EventWords.only (.property name v important.isSome) ≤ EventWords.property :=
          EventWords.only_le ⟨name, v, important.isSome, rfl⟩
        simpa using this
  have hvalue : ∀ name : Token, Tracks (value >>= fun v => if v.isEmpty then reject else
      accept [.importantSym] >>= fun important =>
        fire (.property name.text v important.isSome) >>= fun _ => pure (some ()))
      (either 0 (chain Syntax.term * opt Syntax.sign * opt (tok [.importantSym])))
      (either 1 EventWords.property) := by
    intro name
    refine .bind (P := fun v => if v = [] then either 0 (tok [.ident]) else
      fun o => opt (tok [.importantSym]) * either 0 1 o) value_tracks (fun v => ?_) (fun v o => ?_)
      fun _ _ => (one_mul _).le
    · cases v with
      | nil => exact rejectValue_tracks
      | cons a v => exact hproperty name.text (a :: v)
    · cases o with
      | none => cases v <;> simp
      | some a =>
        cases v with
        | nil => simpa [valueWords] using sign_ident_le
        | cons t v => simp [valueWords]
  refine .ifAccept [.ident] (by decide) (fun name => .next (.expect [.colon] (by decide)) fun _ => hvalue name) rfl
    (fun o => ?_) le_rfl le_rfl
  cases o <;> simp [Syntax.declaration, mul_assoc]

theorem nextDeclaration_tracks : Tracks nextDeclaration
    (either 1 (tok [.semicolon] * opt Syntax.declaration)) (either 1 (opt EventWords.property)) := by
  have hdeclaration : Tracks declaration (fun _ => opt Syntax.declaration)
      fun _ => opt EventWords.property :=
    declaration_tracks.mono (either_le_opt _) (either_le_opt _)
  refine (Tracks.ifAccept (R := either 1 (opt EventWords.property)) [.semicolon] (by decide) (fun _ =>
    (hdeclaration.seq fun _ => .matched).mono (fun _ => le_rfl) fun o => ?_) rfl
    (fun o => ?_) le_rfl le_rfl)
  · cases o <;> simp
  · cases o <;> simp

theorem declarations_tracks :
    Tracks declarations (fun _ => block) fun _ => EventWords.property∗ := by
  have hdeclaration : Tracks declaration (fun _ => opt Syntax.declaration)
      fun _ => opt EventWords.property :=
    declaration_tracks.mono (either_le_opt _) (either_le_opt _)
  have hmany := nextDeclaration_tracks.many (by simp [tok]) Language.nil_mem_one
  refine (hdeclaration.seq fun _ => hmany.seq fun _ => .done).mono (fun _ => ?_) fun _ => ?_
  · simp [block]
  · have hopt : opt EventWords.property ≤ EventWords.property∗ := add_le one_le_kstar le_kstar
    have hstar : (opt EventWords.property)∗ ≤ EventWords.property∗ := by
      simpa using kstar_mono hopt
    simpa using mul_le_mul' hopt hstar

theorem nextSelector_tracks :
    Tracks nextSelector (either 1 (tok [.comma] * (blanks * Syntax.selector))) fun _ => 1 := by
  have hviable : Viable (blanks * Syntax.selector) 1 [] [] := by
    have hrest : Viable (Syntax.link∗ * blanks) 1 [] [] :=
      (Trace.nil (Language.append_mem_mul (Language.nil_mem_kstar _) (Language.nil_mem_kstar _))
        Language.nil_mem_one).viable
    exact (viable_unit.mul_right hrest).mono (by simp [Syntax.selector, mul_assoc]) (by simp)
  have hreject : Tracks (reject : Production (Option Selector))
      (either 0 (blanks * Syntax.selector)) fun _ => 1 :=
    .reject (a := some ⟨⟨some .universal, [], .inl rfl⟩, []⟩) hviable (by simp)
  refine .ifAccept (P := either 0 (blanks * Syntax.selector)) [.comma] (by decide) (fun _ => ?_) rfl
    (fun o => ?_) le_rfl le_rfl
  · refine .option selector_tracks (fun _ => .found) hreject ?_ ?_
    all_goals
      intro o
      cases o <;> simp
  · cases o <;> simp

theorem ruleBlock_tracks (ss : List Selector) : Tracks (ruleBlock ss)
    (fun _ => tok [.lbrace] * (block * tok [.rbrace])) fun _ => EventWords.ruleOf ss := by
  refine (Tracks.bracketThen (by decide) rfl (declarations_tracks.seq fun _ =>
    .bracket (by decide) rfl)).mono (fun _ => le_rfl) fun _ => ?_
  simp [EventWords.ruleOf, mul_assoc]

theorem ruleset_tracks :
    Tracks ruleset (either 1 Syntax.ruleset) (either 1 EventWords.rule) := by
  have hmany : Tracks (many nextSelector)
      (fun _ => (tok [.comma] * (blanks * Syntax.selector))∗ * 1) fun _ => 1 :=
    nextSelector_tracks.manyQuiet (by simp [tok]) Language.nil_mem_one
  have hblock : ∀ ss, Tracks (ruleBlock ss >>= fun _ => pure (some ()))
      (fun o => tok [.lbrace] * (block * tok [.rbrace]) * either 0 1 o)
      (either 1 EventWords.rule) := by
    intro ss
    refine ((ruleBlock_tracks ss).seq fun _ => .matched).mono (fun _ => le_rfl) fun o => ?_
    cases o with
    | none => simp
    | some a =>
      have : EventWords.ruleOf ss ≤ EventWords.rule := fun es hes => ⟨ss, hes⟩
      simpa using this
  refine .option selector_tracks (fun first => .next hmany fun rest => hblock (first :: rest))
    (.pure (K := either 1 0) Language.nil_mem_one Language.nil_mem_one) (fun o => ?_) fun o => ?_
  · cases o <;> simp [Syntax.ruleset, mul_assoc]
  · cases o <;> simp

theorem nextMedium_tracks :
    Tracks nextMedium (either 1 (tok [.comma] * tok [.ident])) fun _ => 1 := by
  refine .ifAccept [.comma] (by decide) (fun _ => .next (.expect [.ident] (by decide)) fun _ => .found) rfl
    (fun o => ?_) le_rfl le_rfl
  cases o <;> simp

theorem mediaList_tracks : Tracks mediaList (fun _ => Syntax.mediaList) fun _ => 1 := by
  have hmany : Tracks (many nextMedium) (fun _ => (tok [.comma] * tok [.ident])∗ * 1) fun _ => 1 :=
    nextMedium_tracks.manyQuiet (by simp [tok]) Language.nil_mem_one
  refine (Tracks.next (.expect [.ident] (by decide)) fun _ => hmany.next fun _ => .done).mono
    (fun _ => ?_) fun _ => le_rfl
  simp [Syntax.mediaList]

theorem media_tracks : Tracks media (fun _ => Syntax.media) fun _ => EventWords.media := by
  have hmany := ruleset_tracks.many (by simp [Syntax.ruleset, tok]) Language.nil_mem_one
  have hblock : ∀ l, Tracks (expect [.lbrace] >>= fun _ => fire (.startMedia l) >>= fun _ =>
      many ruleset >>= fun _ => expect [.rbrace] >>= fun _ => fire (.endMedia l))
      (fun _ => tok [.lbrace] * (Syntax.ruleset∗ * 1 * tok [.rbrace]))
      fun _ => EventWords.media := by
    intro l
    refine (Tracks.bracketThen (by decide) rfl (hmany.seq fun _ =>
      .bracket (by decide) rfl)).mono (fun _ => le_rfl) fun _ => ?_
    have : EventWords.mediaOf l ≤ EventWords.media := fun es hes => ⟨l, hes⟩
    simpa [EventWords.mediaOf, mul_assoc] using this
  refine (Tracks.next (.expect [.mediaSym] (by decide)) fun _ => mediaList_tracks.next hblock).mono
    (fun _ => ?_) fun _ => le_rfl
  simp [Syntax.media, mul_assoc]

theorem pagePseudo_tracks :
    Tracks pagePseudo (either 1 (tok [.colon] * tok [.ident])) fun _ => 1 := by
  refine .ifAccept [.colon] (by decide) (fun _ => .next (.expect [.ident] (by decide)) fun _ => .found) rfl
    (fun o => ?_) le_rfl le_rfl
  cases o <;> simp

theorem page_tracks : Tracks page (fun _ => Syntax.page) fun _ => EventWords.page := by
  have hpseudo : Tracks pagePseudo (fun _ => opt (tok [.colon] * tok [.ident])) fun _ => 1 :=
    pagePseudo_tracks.mono (either_le_opt _) fun _ => le_rfl
  have hblock : ∀ pseudo, Tracks (expect [.lbrace] >>= fun _ => fire (.startPage pseudo) >>= fun _ =>
      declarations >>= fun _ => expect [.rbrace] >>= fun _ => fire (.endPage pseudo))
      (fun _ => tok [.lbrace] * (block * tok [.rbrace])) fun _ => EventWords.page := by
    intro pseudo
    refine (Tracks.bracketThen (by decide) rfl (declarations_tracks.seq fun _ =>
      .bracket (by decide) rfl)).mono (fun _ => le_rfl) fun _ => ?_
    have : EventWords.pageOf pseudo ≤ EventWords.page := fun es hes => ⟨pseudo, hes⟩
    simpa [EventWords.pageOf, mul_assoc] using this
  refine (Tracks.next (.expect [.pageSym] (by decide)) fun _ => hpseudo.next hblock).mono
    (fun _ => ?_) fun _ => le_rfl
  simp [Syntax.page, mul_assoc]

theorem charset_tracks :
    Tracks charset (fun _ => opt Syntax.charset) fun _ => opt EventWords.charset := by
  have hfire : ∀ name : Token, Tracks (fire (.charset name.content)) (fun _ => 1)
      fun _ => opt EventWords.charset := by
    intro name
    refine (Tracks.fire rfl).mono (fun _ => le_rfl) fun _ => ?_
    exact (EventWords.only_le ⟨_, rfl⟩ : _ ≤ EventWords.charset).trans (le_opt _)
  refine .option (P := fun _ => tok [.string] * (tok [.semicolon] * 1)) (Q := fun _ => 1)
    (.accept [.charsetSym] (by decide))
    (fun _ => .next (.expect [.string] (by decide)) fun name => .next (.expect [.semicolon] (by decide)) fun _ => hfire name)
    (.pure Language.nil_mem_one (nil_mem_opt _)) (fun _ => ?_) fun _ => ?_
  · refine le_trans (le_of_eq ?_) (le_opt _)
    simp [Syntax.charset, mul_assoc]
  · simpa using one_le_opt Syntax.charset

theorem marks_tracks : Tracks marks (fun _ => mark∗) fun _ => 1 := by
  have hmany : Tracks (many (accept [.cdo, .cdc])) (fun _ => mark∗ * 1) fun _ => 1 :=
    (Tracks.accept [.cdo, .cdc] (by decide)).manyQuiet (by simp [tok]) Language.nil_mem_one
  refine (hmany.next fun _ => .done).mono (fun _ => ?_) fun _ => le_rfl
  simp

theorem importMedia_tracks : Tracks importMedia (fun _ => opt Syntax.mediaList) fun _ => 1 := by
  have hlist : Tracks (mediaList >>= fun l => pure (some l)) (fun _ => opt Syntax.mediaList)
      fun _ => 1 := by
    refine (mediaList_tracks.next fun _ => .done).mono (fun _ => ?_) fun _ => le_rfl
    simpa using le_opt Syntax.mediaList
  have hnone : Tracks (pure none : Production (Option MediaList)) (fun _ => opt Syntax.mediaList)
      fun _ => 1 := .quiet (nil_mem_opt _)
  refine (Tracks.next (L := fun _ => opt Syntax.mediaList) .peek fun t => ?_).mono
    (fun _ => (one_mul _).le) fun _ => le_rfl
  by_cases ht : t.kind = .ident
  · simpa [ht] using hlist
  · simpa [ht] using hnone

theorem importSheet_tracks : Tracks importSheet (either 1 (Syntax.importSheet * mark∗))
    (either 1 EventWords.importSheet) := by
  have hfire : ∀ uri l, Tracks (fire (.importSheet uri l) >>= fun _ => marks >>= fun _ =>
      pure (some ())) (fun o => 1 * (mark∗ * either 0 1 o)) (either 1 EventWords.importSheet) := by
    intro uri l
    refine ((Tracks.fire rfl).seq fun _ => marks_tracks.seq fun _ => .matched).mono
      (fun _ => le_rfl) fun o => ?_
    cases o with
    | none => simp
    | some a =>
      have : EventWords.only (.importSheet uri l) ≤ EventWords.importSheet :=
        EventWords.only_le ⟨uri, l, rfl⟩
      simpa using this
  refine .ifAccept [.importSym] (by decide) (fun _ => .next (.expect [.string, .uri] (by decide)) fun target =>
    .next importMedia_tracks fun l => .next (.expect [.semicolon] (by decide)) fun _ => hfire _ l) rfl
    (fun o => ?_) le_rfl le_rfl
  cases o <;> simp [Syntax.importSheet, mul_assoc]

/-- What a statement takes. -/
def statementWords : Language Token := Syntax.ruleset + Syntax.media + Syntax.page + mark

/-- What a statement fires, nothing for a mark. -/
def statementEvents : Language Event := opt (EventWords.rule + EventWords.media + EventWords.page)

theorem rule_le : EventWords.rule ≤ statementEvents :=
  (le_sup_left.trans le_sup_left).trans (le_opt (EventWords.rule + EventWords.media + EventWords.page))

theorem media_le : EventWords.media ≤ statementEvents :=
  (le_sup_right.trans le_sup_left).trans (le_opt (EventWords.rule + EventWords.media + EventWords.page))

theorem page_le : EventWords.page ≤ statementEvents :=
  le_sup_right.trans (le_opt (EventWords.rule + EventWords.media + EventWords.page))

/-- The end is near: blanks and then the end token. -/
def AtEnd (r : List Token) : Prop :=
  ∃ s t, r = s ++ [t] ∧ (∀ b ∈ s, Token.isSpace b) ∧ t.kind = .eof

/-- A statement, or nothing at the end. -/
def StatementOrEnd (o : Option Unit) (w r : List Token) (es : List Event) : Prop :=
  match o with
  | some _ => Trace statementWords statementEvents w es
  | none => w = [] ∧ es = [] ∧ AtEnd r

theorem reads_of_tracks {p : Production (Option Unit)} {x : List Token}
    (h : Tracks p (either 0 statementWords) fun _ => statementEvents) (hx : Terminated x) :
    Reads p StatementOrEnd (Viable statementWords statementEvents) x := by
  refine Reads.mono (h.reads x hx) (fun {o w r es} _ ht => ?_) fun {w t r es} _ hv => ?_
  · cases o with
    | none => exact ht.tokens.elim
    | some a => exact ht
  · obtain ⟨o, hv⟩ := hv
    cases o with
    | none =>
      obtain ⟨y, _, hy⟩ := hv.tokens
      exact hy.elim
    | some a => exact hv

theorem statement_mark {c : Cursor} (h : c.next.kind ∈ [Kind.cdo, .cdc]) :
    statement c = ⟨[], c.advance, .ok (some ())⟩ := by
  have hbody : (accept [.cdo, .cdc] >>= fun _ => pure (some ())) c = ⟨[], c.advance, .ok (some ())⟩ :=
    bind_ok (accept_some h) rfl
  refine (bind_quiet (p := Production.next) rfl).trans ?_
  obtain hk | hk : c.next.kind = .cdo ∨ c.next.kind = .cdc := by simpa using h
  · rw [hk]
    exact hbody
  · rw [hk]
    exact hbody

theorem mark_reads {s x : List Token} {t : Token} (hx : Terminated (s ++ t :: x))
    (hs : ∀ b ∈ s, b.isSpace) (hk : t.kind ∈ [Kind.cdo, .cdc]) :
    Reads (accept [.cdo, .cdc] >>= fun _ => pure (some ())) StatementOrEnd
      (Viable statementWords statementEvents) (s ++ t :: x) := by
  have ht : t.isSpace = false := by
    have : t.kind ≠ .space := fun he => by simp [he] at hk
    simpa [Token.isSpace] using this
  have hle : mark ≤ statementWords := le_sup_right
  have hquiet : 1 ≤ statementEvents := one_le_opt _
  refine Reads.bind (T := fun _ w _ es => Trace mark 1 w es) (F := fun _ _ => False)
    (.accept hx (by decide) (fun _ hb _ hu => Plain.trace (by decide) hb hu) ?_) ?_ False.elim
  · intro b u r hu hb hu' hn
    exact absurd ((split_unique hu hs ht hb hu').1 ▸ hk) hn
  · intro o w r es _ hr h
    exact .pure hr (by simpa [StatementOrEnd] using h.mono hle hquiet)

theorem rulesetOrReject_tracks : Tracks (ruleset >>= fun o => match o with
    | some () => pure (some ())
    | none => reject) (either 0 statementWords) fun _ => statementEvents := by
  have hmark : Completes mark [] := Plain.completes (by decide)
  have hreject : Tracks (reject : Production (Option Unit)) (either 0 mark)
      fun _ => statementEvents :=
    .reject (a := some ()) ⟨hmark, ⟨[], nil_mem_opt _⟩, rfl⟩ (by simp [mark])
  refine .bind (P := fun o => o.elim (either 0 mark) fun _ => either 0 1)
    (Q := fun o _ => o.elim statementEvents fun _ => 1) ruleset_tracks (fun o => ?_) (fun o b => ?_)
    fun o b => ?_
  · cases o with
    | none => exact hreject
    | some a => exact .found
  · cases o with
    | none => cases b <;> simp [statementWords]
    | some a => cases b <;> simp [statementWords, sup_assoc]
  · cases o with
    | none => simp
    | some a => simpa using rule_le

theorem found_of_tracks {p : Production Unit} {K : Language Token} {M : Language Event}
    (h : Tracks p (fun _ => K) fun _ => M) (hK : K ≤ statementWords) (hM : M ≤ statementEvents) :
    Tracks (p >>= fun _ => pure (some ())) (either 0 statementWords) fun _ => statementEvents := by
  refine .bind (P := fun _ => either 0 1) (Q := fun _ _ => 1) h (fun _ => .found) (fun _ o => ?_)
    fun _ _ => by simpa using hM
  cases o with
  | none => simp
  | some a => simpa using hK

theorem statement_reads {x : List Token} (hx : Terminated x) :
    Reads statement StatementOrEnd (Viable statementWords statementEvents) x := by
  refine Reads.bind (T := fun (t : Token) w r es => w = [] ∧ es = [] ∧ t.isSpace = false ∧
    ∃ s q, r = s ++ t :: q ∧ ∀ b ∈ s, b.isSpace) (F := fun _ _ => False) (.next hx ?_) ?_ False.elim
  · intro s t r hr hs ht
    exact ⟨rfl, rfl, ht, s, r, hr, hs⟩
  · intro t w r es _ hr ⟨hw, he, ht, s, q, hq, hs⟩
    subst hw he hq
    simp only [List.nil_append]
    split
    next hk =>
      have hend : q = [] := by
        by_contra hne
        exact (hr.drop (by simp)).ne_eof_of_cons hne hk
      exact .pure hr ⟨rfl, rfl, s, t, by simp [hend], hs, hk⟩
    next hk => exact mark_reads hr hs (by simp [hk])
    next hk => exact mark_reads hr hs (by simp [hk])
    next hk =>
      have hle : Syntax.media ≤ statementWords :=
        (le_sup_right.trans le_sup_left).trans le_sup_left
      exact reads_of_tracks (found_of_tracks media_tracks hle media_le) hr
    next hk =>
      have hle : Syntax.page ≤ statementWords := le_sup_right.trans le_sup_left
      exact reads_of_tracks (found_of_tracks page_tracks hle page_le) hr
    next hk => exact reads_of_tracks rulesetOrReject_tracks hr

theorem nil_notMem_statementWords : [] ∉ statementWords := by
  simp [statementWords, Syntax.ruleset, Syntax.media, Syntax.page, mark, tok]

theorem statements_reads {x : List Token} (hx : Terminated x) : Reads (many statement)
    (fun _ w r es => Trace statementWords∗ statementEvents∗ w es ∧ AtEnd r)
    (Viable statementWords∗ statementEvents∗) x := by
  have hnil : Trace statementWords∗ statementEvents∗ [] [] :=
    .nil (Language.nil_mem_kstar _) (Language.nil_mem_kstar _)
  refine Reads.many (S := fun w r es => Trace statementWords∗ statementEvents∗ w es ∧ AtEnd r)
    (fun x hx => statement_reads hx) (fun {a w r es} h he => ?_) (fun {w r es} h => ?_)
    (fun {a w v r es fs} h hS => ?_) (fun {w es} h => ?_) (fun {a w v r es fs} h hG => ?_) x hx
  · exact nil_notMem_statementWords (he ▸ Trace.tokens h)
  · obtain ⟨hw, he, hend⟩ := h
    subst hw he
    exact ⟨hnil, hend⟩
  · exact ⟨(Trace.append h hS.1).mono mul_kstar_le_kstar mul_kstar_le_kstar, hS.2⟩
  · have := h.mul_right hnil.viable
    exact this.mono mul_kstar_le_kstar mul_kstar_le_kstar
  · exact (Trace.append_viable h hG).mono mul_kstar_le_kstar mul_kstar_le_kstar

/-- What a style sheet takes before its end. -/
def bodyWords : Language Token :=
  opt Syntax.charset * mark∗ * (Syntax.importSheet * mark∗)∗ * statementWords∗

theorem prologue_tracks : Tracks (fire .startStylesheet >>= fun _ => charset >>= fun _ =>
    marks >>= fun _ => many importSheet)
    (fun _ => opt Syntax.charset * mark∗ * (Syntax.importSheet * mark∗)∗)
    fun _ => EventWords.only .startStylesheet * opt EventWords.charset * EventWords.importSheet∗ := by
  have hmany := importSheet_tracks.many (by simp [Syntax.importSheet, tok]) Language.nil_mem_one
  refine ((Tracks.fire rfl).seq fun _ => charset_tracks.seq fun _ => marks_tracks.seq fun _ =>
    hmany).mono (fun _ => ?_) fun _ => ?_
  · simp [mul_assoc]
  · simp [mul_assoc]

theorem stylesheet_reads {x : List Token} (hx : Terminated x) : Reads stylesheet
    (fun _ w r es => AtEnd r ∧ ∃ fs, es = fs ++ [.endStylesheet] ∧
      Trace bodyWords EventWords.content w fs) (Viable bodyWords EventWords.content) x := by
  have heq : stylesheet = (fire .startStylesheet >>= fun _ => charset >>= fun _ =>
      marks >>= fun _ => many importSheet) >>= fun _ => many statement >>= fun _ =>
        fire .endStylesheet := by
    simp only [bind_assoc]
    rfl
  have hevents : statementEvents∗ ≤ (EventWords.rule + EventWords.media + EventWords.page)∗ := by
    have := kstar_mono (add_le
      (one_le_kstar (a := EventWords.rule + EventWords.media + EventWords.page)) le_kstar)
    simpa [statementEvents, opt] using this
  have hcontent := mul_le_mul_right hevents
    (EventWords.only .startStylesheet * opt EventWords.charset * EventWords.importSheet∗)
  have hnil : Trace statementWords∗ statementEvents∗ [] [] :=
    .nil (Language.nil_mem_kstar _) (Language.nil_mem_kstar _)
  rw [heq]
  refine Reads.bind (prologue_tracks.reads x hx) (fun {_ w r es} _ hr h => ?_) fun {w es} h => ?_
  · refine Reads.bind (statements_reads hr) (fun {_ v q fs} _ hq hS => .fire hq ?_) fun {v fs} hv => ?_
    · refine ⟨hS.2, es ++ fs, by simp, ?_⟩
      rw [List.append_nil]
      exact (h.append hS.1).mono le_rfl hcontent
    · exact (h.append_viable hv).mono le_rfl hcontent
  · obtain ⟨_, h⟩ := h
    exact (h.mul_right hnil.viable).mono le_rfl hcontent

end Stylesheet.Grammar
