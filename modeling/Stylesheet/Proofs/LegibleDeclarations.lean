import Stylesheet.Proofs.ClosedCalls
import Stylesheet.Proofs.SpelledTerms
import Stylesheet.Proofs.RenderedDeclarations

/-! No condition on values could be left out: what is read back from its text is legible. The value is
followed to the place where the text of the rule has it, and there each of its terms. -/
namespace Stylesheet
open Computability Lexical Production

variable {d : Char} {b s t x y : Text} {k : Kind}

/-! Terms. -/

theorem isClosed_of_measured (h : Measured .string s y) (hy : y ≠ []) : isClosed s := by
  obtain ⟨q, u, hq, rfl⟩ := head_of_string h
  obtain ⟨a, v, hk, heq, hr⟩ := h
  obtain ⟨rfl, hu⟩ := List.cons.inj heq
  rw [Extent.measure_quote hq] at hk hu hr
  have hu : u = v.take (stringTail q v).1 := hu
  have hr : y = v.drop (stringTail q v).1 := hr
  have hclosed : (stringTail q v).2 = .closed := by
    cases he : (stringTail q v).2 with
    | closed => rfl
    | broken => simp [Extent.ofString, he] at hk
    | unclosed =>
      have hlen := ((stringTail_spec q v).unclosed he).2
      exact absurd (hr.trans (List.drop_of_length_le hlen.ge)) hy
  have hlen : (stringTail q v).1 = u.length := by
    rw [hu, List.length_take_of_le (stringTail_spec q v).le]
  have hv : u ++ y = v := by rw [hu, hr, List.take_append_drop]
  have htail : stringTail q u = stringTail q (u ++ y) := by
    rw [← hv] at hclosed hlen
    exact stringTail_of_append (by simp [hclosed]) hlen.le
  rw [hv] at htail
  simp [isClosed, hq, htail, ← hclosed, ← hlen]

theorem nameLength_of_measured (h : Measured .ident s y) : nameLength (s ++ y) = s.length := by
  obtain ⟨hs, hmax⟩ := (h.scanned (by decide)).longest
  have hge := (identLength_append hs y).2
  have hne : identLength (s ++ y) ≠ 0 := by
    have := (identLength_append hs y).1
    omega
  obtain ⟨htake, hle⟩ := take_identLength hne
  have hlen := hmax _ htake (List.take_prefix ..)
  rw [List.length_take_of_le hle] at hlen
  have hname : identLength (s ++ y) = nameLength (s ++ y) := by
    unfold identLength at hne ⊢
    exact if_pos (of_not_not fun hstart => hne (if_neg hstart))
  omega

/-- A name that ends before a blank leaves the blank to itself. -/
theorem nameLength_before_blank (h : Measured .ident s (' ' :: y)) : nameLength (s ++ [' ']) = s.length := by
  have hlen := nameLength_of_measured h
  rw [List.append_cons] at hlen
  exact (nameLength_of_append (by rw [hlen, List.length_append]; omega)).trans hlen

theorem Measured.startsName_of_minus (h : Measured .minus ['-'] s) : startsName s = false := by
  obtain ⟨c, t, hk, heq, hs⟩ := h
  obtain ⟨rfl, htake⟩ := List.cons.inj heq
  obtain rfl : t = s := by
    have hsplit := List.take_append_drop (Extent.measure '-' t).more t
    rwa [← htake, ← hs, List.nil_append, eq_comm] at hsplit
  rw [measure_hyphen] at hk
  split_ifs at hk with hmark hstart
  · simp [Extent.ofLength] at hk
  · have hword : (Extent.ofWord ('-' :: t)).kind ≠ some .minus := by
      unfold Extent.ofWord
      dsimp only
      split_ifs
      · split <;> simp [Extent.ofLength]
      all_goals simp [Extent.ofLength]
    exact absurd hk hword
  · simpa using hstart

theorem head_of_uri (h : Measured .uri s y) : ∃ c v, s = c :: v ∧ isNameStart c := by
  obtain ⟨u, a, hu, -, rfl⟩ := h.uri_text
  cases u with
  | nil => exact absurd hu (by decide)
  | cons c u =>
    refine ⟨c, _, rfl, ?_⟩
    have hc : c.toLower = 'u' := (List.cons.inj hu).1
    rw [← caseBlind_isNameStart c, hc]
    decide

theorem unsigned_quoted (hq : isQuote q) (s : Text) : unsigned (q :: s) = q :: s := by
  refine if_neg ?_
  rcases (isQuote_iff q).mp hq with rfl | rfl <;> decide

theorem Spells.measured {k : TermKind} {j : Kind} (h : Spells (.bare k) s y)
    (hk : k ≠ .hexColor ∧ k ≠ .function) (hj : ∀ i, TermKind.ofKind? i = some k → i = j) :
    Measured j s y := by
  cases h with
  | plain hi hs => exact hj _ hi ▸ hs
  | color => exact absurd rfl hk.1
  | call => exact absurd rfl hk.2

theorem closed_of_spells (h : Spells (.term .string) s y) (hy : y ≠ []) : isClosed (unsigned s) := by
  have hkind : ∀ i, TermKind.ofKind? i = some .string → i = .string := by
    intro i
    cases i <;> simp [TermKind.ofKind?]
  cases h with
  | unsigned h =>
    have hm := h.measured (by decide) hkind
    obtain ⟨q, u, hq, rfl⟩ := head_of_string hm
    rw [unsigned_quoted hq]
    exact isClosed_of_measured hm hy
  | signed _ _ h =>
    rw [unsigned_signed]
    exact isClosed_of_measured (h.measured (by decide) hkind) hy

theorem name_of_spells (h : Spells (.term .identifier) s (' ' :: y)) :
    nameLength (unsigned s ++ [' ']) = (unsigned s).length := by
  have hkind : ∀ i, TermKind.ofKind? i = some .identifier → i = .ident := by
    intro i
    cases i <;> simp [TermKind.ofKind?]
  cases h with
  | signed _ _ h =>
    rw [unsigned_signed]
    exact nameLength_before_blank (h.measured (by decide) hkind)
  | unsigned h =>
    have hm := h.measured (by decide) hkind
    have hlen := nameLength_before_blank hm
    obtain ⟨c, s, rfl⟩ := List.exists_cons_of_ne_nil hm.isToken.1
    by_cases hc : c = '+' ∨ c = '-'
    · rw [unsigned, if_pos hc]
      rcases hc with rfl | rfl
      · rw [List.cons_append, nameLength_stop (by decide) (escapeLength_of_ne (by decide) _)] at hlen
        simp at hlen
      · rw [List.cons_append, nameLength_char (by decide), List.length_cons] at hlen
        omega
    · rwa [unsigned, if_neg hc]

theorem address_of_spells (h : Spells (.term .uri) s y) : s.head? ≠ some '-' := by
  have hkind : ∀ i, TermKind.ofKind? i = some .uri → i = .uri := by
    intro i
    cases i <;> simp [TermKind.ofKind?]
  intro hhead
  cases h with
  | unsigned h =>
    obtain ⟨c, v, rfl, hc⟩ := head_of_uri (h.measured (by decide) hkind)
    obtain rfl : c = '-' := by simpa using hhead
    exact absurd hc (by decide)
  | @signed j o _ s _ hj ho h =>
    obtain ⟨c, v, rfl, hc⟩ := head_of_uri (h.measured (by decide) hkind)
    cases o with
    | plus => exact absurd (Option.some.inj hhead) (by decide)
    | minus =>
      obtain rfl : .minus = j := by
        revert hj
        cases j <;> simp [Sign.ofKind?]
      have hstart := ho.startsName_of_minus
      rw [List.cons_append, startsName_of_ne (by rintro rfl; exact absurd hc (by decide)), hc] at hstart
      exact absurd hstart (by decide)

/-- A term that is spelled by its text before a delimiter is legible. -/
theorem Term.legible_of_spells {t : Term} {spaced : Bool} (h : Spells (.term t.kind) t.text (d :: x))
    (hd : spaced → d = ' ') : t.Legible spaced where
  string hk := closed_of_spells (hk ▸ h) (List.cons_ne_nil d x)
  name hk hspaced := by
    obtain rfl := hd hspaced
    exact name_of_spells (hk ▸ h)
  address hk := address_of_spells (hk ▸ h)
  call hk := Spells.anywhere (hk ▸ h)

/-- A call is legible if it is read from its text before any one text. -/
theorem Term.legible_call_iff {t : Term} {spaced : Bool} (hk : t.kind = .function) (y : Text) :
    t.Legible spaced ↔ Runs (Grammar.term Grammar.value) (t.text ++ y) y []
      (Grammar.TermOf t.text .function) := by
  rw [← spells_term_iff]
  refine ⟨fun h => h.call hk y, fun h => ⟨?_, ?_, ?_, fun _ => h.anywhere⟩⟩
  all_goals simp [hk]

/-! Values. -/

namespace Grammar
open Value

variable {v w : Value} {t : Term} {important : Bool} {c : Cursor} {es fs : List Event}

/-- A term that is read back, maybe from behind blanks, is legible, and has been passed. -/
theorem term_legible (hb : ∀ a ∈ b, isBlank a)
    (h : c.At (b ++ (t.text ++ (renderAfter (.term t) v ++ (ending important ++ y))))) :
    After (term value) c fun o d => ∀ u, o = some u → u.text = t.text ∧ u.kind = t.kind →
      t.Legible (Value.spaced important v) ∧ d.At (renderAfter (.term t) v ++ (ending important ++ y)) := by
  intro o ho u hu ⟨htext, hkind⟩
  obtain ⟨hs, hat⟩ := term_spelled hb h o ho u hu htext
  refine ⟨?_, hat⟩
  obtain ⟨d, x, heq, -, hspaced⟩ := behind_term t important v y
  exact Term.legible_of_spells (heq ▸ hkind ▸ hs) hspaced.mpr

/-- If what follows the first term is read back, it is legible. -/
theorem moreParts_legible (hw : w ∈ more (Term.Of Token.Lexed)) (t : Term)
    (h : c.At (renderAfter (.term t) w ++ (ending important ++ y))) :
    After (moreParts value) c fun v _ => Same w v → Legible important w := by
  refine more_induction (M := fun w => ∀ t c, c.At (renderAfter (.term t) w ++ (ending important ++ y)) →
    After (moreParts value) c fun v _ => Same w v → Legible important w)
    ?nil ?operator ?term ?operated hw t c h
  case nil => exact fun _ _ _ _ _ _ => trivial
  case operator => exact fun _ _ _ _ _ _ _ => trivial
  case term =>
    intro u v hu ih t c h
    have htext : renderAfter (.term t) (.term u :: v) ++ (ending important ++ y) =
        [' '] ++ (u.text ++ (renderAfter (.term u) v ++ (ending important ++ y))) := by
      simp [renderAfter, gap, Part.text]
    rw [htext] at h
    refine moreParts_after h (operator_spelled h.all) fun o d hd r hr => ?_
    obtain ⟨-, hnone, -⟩ := hd
    cases o with
    | some a => exact ⟨fun _ hsame => by simp at hsame, fun _ _ _ _ hsame => by simp at hsame⟩
    | none =>
      obtain rfl := hnone rfl
      refine ⟨fun _ hsame => by simp at hsame, fun u' hu' v' hv' hsame => ?_⟩
      obtain ⟨hsame, hrest⟩ := same_term.mp hsame
      obtain ⟨hl, hat⟩ := term_legible (b := [' ']) (List.all_eq_true.mp (by decide)) h r hr u' hu' hsame
      exact ⟨hl, ih u _ hat v' hv' hrest⟩
  case operated =>
    intro o u v hu ih t c h
    have htext : renderAfter (.term t) (.operator o :: .term u :: v) ++ (ending important ++ y) =
        o.symbol :: (gap (.operator o) (.term u) ++
          (u.text ++ (renderAfter (.term u) v ++ (ending important ++ y)))) := by
      cases o <;> simp [renderAfter, gap, Part.text]
    have hgap : ∀ a ∈ gap (Part.operator o) (.term u), isBlank a := by
      cases o <;> simp [gap, isBlank]
    have hhead : (gap (.operator o) (.term u) ++
        (u.text ++ (renderAfter (.term u) v ++ (ending important ++ y)))).head? ≠ some '*' := by
      obtain ⟨a, s, ha, hne⟩ := hu.head
      cases o with
      | slash => simpa [gap, ha] using hne
      | comma => exact fun h => absurd (Option.some.inj h) (by decide)
    rw [htext] at h
    refine moreParts_after h (operator_spelled h.all) fun o' d hd r hr => ?_
    obtain ⟨-, -, hsome⟩ := hd
    cases o' with
    | none => exact ⟨fun _ hsame => by simp at hsame, fun _ _ _ _ hsame => by simp at hsame⟩
    | some a =>
      refine ⟨fun _ hsame => by simp at hsame, fun u' hu' v' hv' hsame => ?_⟩
      obtain ⟨rfl, hparts⟩ := same_operator.mp hsame
      obtain ⟨hterm, hrest⟩ := same_term.mp hparts
      obtain ⟨hat, -⟩ := hsome a _ rfl hhead h
      obtain ⟨hl, hat⟩ := term_legible hgap hat r hr u' hu' hterm
      exact ⟨hl, ih u _ hat v' hv' hrest⟩

/-- If a value is read back before the end of its block, it is legible. -/
theorem value_legible (hv : v ∈ shape (Term.Of Token.Lexed)) (h : c.At (v.render ++ (ending important ++ y))) :
    After value c fun w _ => Same v w → Legible important v := by
  obtain ⟨_, ⟨t, -, rfl⟩, v, hmore, rfl⟩ := Language.mem_mul.mp hv
  have htext : render ([.term t] ++ v) ++ (ending important ++ y) =
      t.text ++ (renderAfter (.term t) v ++ (ending important ++ y)) := List.append_assoc ..
  rw [htext] at h
  refine value_after h fun o ho => ⟨fun _ hsame => by simp at hsame, fun u hu v' hv' hsame => ?_⟩
  obtain ⟨hsame, hrest⟩ := same_term.mp hsame
  obtain ⟨hl, hat⟩ := term_legible (b := []) (by simp) h o ho u hu hsame
  exact ⟨hl, moreParts_legible hmore t hat v' hv' hrest⟩

/-! Where the value is read. -/

/-- From the text `x`, `p` fires `es` and goes on with `q` at the text `z`. -/
def Reaches {α β : Type} (p : Production α) (x : Text) (es : List Event) (q : Production β)
    (z : Text) : Prop :=
  ∀ c : Cursor, c.At x → ∃ d : Cursor, d.At z ∧
    ∃ k : β → Production α, p c = andThen ⟨es, d, .ok ()⟩ fun _ => q >>= k

namespace Reaches
variable {α β γ : Type} {p : Production α} {f : α → Production γ} {q : Production β} {x y z : Text}
  {Q : α → Prop}

theorem here : Reaches q x [] q x := fun c hc => ⟨c, hc, pure, by rw [bind_pure]; rfl⟩

theorem followed (h : Reaches p x es q z) : Reaches (p >>= f) x es q z := by
  intro c hc
  obtain ⟨d, hd, k, hk⟩ := h c hc
  refine ⟨d, hd, fun b => k b >>= f, ?_⟩
  show andThen (p c) f = _
  rw [hk, andThen_assoc]
  simp only [bind_assoc]

theorem behind (hp : Runs p x y fs Q) (hf : ∀ a, Q a → Reaches (f a) y es q z) :
    Reaches (p >>= f) x (fs ++ es) q z := by
  rintro c ⟨ts, hts, hc⟩
  obtain ⟨a, d, us, hrun, ha, hus, hd⟩ := hp ts hts c hc
  obtain ⟨d', hd', k, hk⟩ := hf a ha d ⟨us, hus, hd⟩
  refine ⟨d', hd', k, (bind_ok hrun hk).trans ?_⟩
  simp only [andThen, List.append_assoc]

/-- The first production fires nothing. -/
theorem silent (hp : Runs p x y [] Q) (hf : ∀ a, Q a → Reaches (f a) y es q z) :
    Reaches (p >>= f) x es q z := behind hp hf

theorem of_eq {p' : Production α} (h : ∀ x, Terminated x → ∀ c : Cursor, c.Before x → p c = p' c)
    (hp : Reaches p' x es q z) : Reaches p x es q z := by
  rintro c ⟨ts, hts, hc⟩
  rw [h ts hts.terminated c hc]
  exact hp c ⟨ts, hts, hc⟩

end Reaches

/-- What reads the value of a declaration and reports it. -/
def declared (name : Text) : Production (Option Unit) := do
  let v ← value
  if v.isEmpty then reject
  else do
    let important ← accept [.importantSym]
    fire (.property name v important.isSome)
    pure (some ())

variable {name : Text}

theorem declaration_reaches (hname : name ∈ ident) (z : Text) :
    Reaches declaration (name ++ ':' :: z) [] (declared name) z := by
  have hident : Measured .ident name (':' :: z) :=
    measured_ident_before hname (by decide) (fun h => absurd h (by decide)) _
  have hcolon : Measured .colon [':'] z := measured_symbol (c := ':') (by decide) _
  refine .silent (Runs.accept_here hident (by decide) (by decide)) fun o ho => ?_
  obtain ⟨u, rfl, -, rfl⟩ := ho
  exact .silent (Runs.expect_here hcolon (by decide) (by decide)) fun _ _ => .here

variable {γ : Type} {q : Production γ} {z : Text}

theorem ruleset_reaches {s : Selector} {ss : List Selector} (h : ∀ t ∈ s :: ss, t.WellFormed)
    (hx : x ∈ layouts s ss) (hblock : Reaches (ruleBlock (s :: ss)) ('{' :: y) es q z) :
    Reaches ruleset (x ++ '{' :: y) es q z := by
  obtain ⟨v, hfirst, hrest⟩ := layouts_run h hx y
  refine .silent hfirst fun o ho => ?_
  subst ho
  refine .silent hrest fun ts hts => ?_
  subst hts
  exact hblock.followed

theorem statement_reaches (hnext : ∃ k ∈ unitKinds, Next k x) (hr : Reaches ruleset x es q z) :
    Reaches statement x es q z := by
  obtain ⟨k, hk, hnext⟩ := hnext
  refine .silent (Runs.peek hnext) fun u hu => ?_
  subst hu
  split
  case h_6 => exact hr.followed
  all_goals
    rename_i hkind
    exact absurd (hkind ▸ hk) (by decide)

/-- The first declaration of a style sheet that starts with a rule. -/
theorem stylesheet_reaches {s : Selector} {ss : List Selector} (h : ∀ t ∈ s :: ss, t.WellFormed)
    (hx : x ∈ layouts s ss) (hname : name ∈ ident) (z : Text) :
    Reaches stylesheet (x ++ '{' :: (name ++ ':' :: z)) [.startStylesheet, .startRule (s :: ss)]
      (declared name) z := by
  have hblock : Reaches (ruleBlock (s :: ss)) ('{' :: (name ++ ':' :: z)) [.startRule (s :: ss)]
      (declared name) z :=
    .silent (Runs.expect_here (block_ends _).measured (by decide) (by decide)) fun _ _ =>
      .behind .fire fun _ _ => .followed (.followed (declaration_reaches hname z))
  have hnext := layouts_next h hx (name ++ ':' :: z)
  have hstatement := statement_reaches hnext (ruleset_reaches h hx hblock)
  obtain ⟨hcharset, hmarks, himports⟩ := prologue_runs hnext
  exact .behind .fire fun _ _ => .silent hcharset fun _ _ => .silent hmarks fun _ _ =>
    .silent himports fun _ _ => .followed (.of_eq (Runs.many_round statement_advances) hstatement.followed)

/-- What is reported where a value is read is that value. -/
theorem declared_reports {β : Type} {k : Option Unit → Production β} (hc : c.All Token.Lexed) {e : Event}
    (h : ((declared name >>= k) c).events = e :: es) :
    ∃ w b, (value c).result = .ok w ∧ e = .property name w b := by
  have hevents : (value c).events = [] := List.eq_nil_iff_forall_not_mem.mpr
    (value_yields (E := fun _ => False) c hc).events
  rcases hvalue : value c with ⟨fs, d, e' | w⟩
  · rw [hvalue] at hevents
    obtain rfl : fs = [] := hevents
    have hdeclared : declared name c = ⟨[], d, .error e'⟩ := bind_error hvalue
    rw [bind_error hdeclared] at h
    simp at h
  · rw [hvalue] at hevents
    obtain rfl : fs = [] := hevents
    refine ⟨w, ?_⟩
    have hdeclared : declared name c = (if w.isEmpty then reject else do
        let important ← accept [.importantSym]
        fire (.property name w important.isSome)
        pure (some ())) d := bind_quiet hvalue
    by_cases hempty : w.isEmpty
    · rw [if_pos hempty] at hdeclared
      rw [bind_error hdeclared] at h
      simp at h
    · have hreport : ∀ (o : Option Token) (d' : Cursor), accept [.importantSym] d = ⟨[], d', .ok o⟩ →
          declared name c = ⟨[.property name w o.isSome], d', .ok (some ())⟩ := by
        intro o d' ho
        rw [hdeclared, if_neg hempty, bind_quiet ho]
        rfl
      by_cases hmark : d.next.kind ∈ [.importantSym]
      · rw [bind_ok (hreport _ _ (accept_some hmark)) rfl] at h
        exact ⟨true, rfl, (List.cons.inj h).1.symm⟩
      · rw [bind_ok (hreport _ _ (accept_none hmark)) rfl] at h
        exact ⟨false, rfl, (List.cons.inj h).1.symm⟩

end Grammar

/-- A declaration of a style sheet that is read back from its text has a legible value. -/
theorem legible_of_readsBack {css name : Text} {v : Value} {important : Bool}
    (h : .property name v important ∈ (parse css).events) (hback : ReadsBack name v important) :
    v.Legible important := by
  obtain ⟨hname, hv⟩ := events_of_tokens (lexed_tokens css) _ h
  have hname : name ∈ ident := hname.mem_production (by decide)
  rw [ReadsBack, ruleText_eq] at hback
  have hcut := cut_tokens (['a'] ++ '{' :: (name ++ ':' :: (v.render ++ (ending important ++ []))))
  obtain ⟨c, hc, k, hk⟩ := Grammar.stylesheet_reaches plainSelector_wellFormed
    ⟨['a'], text_mem_layouts plainSelector, [], rfl, rfl⟩ hname _ _ ⟨_, hcut, hcut.terminated.before⟩
  have hevents := congrArg Parse.events hback
  have hrun : (parse (['a'] ++ '{' :: (name ++ ':' :: (v.render ++ (ending important ++ []))))).events =
      [.startStylesheet, .startRule [plainSelector]] ++ ((Grammar.declared name >>= k) c).events :=
    congrArg Outcome.events hk
  have hmap : List.map (blur .places) ((Grammar.declared name >>= k) c).events =
      [.property (blur .places name) (blur .places v) important, .endRule (blur .places [plainSelector]),
        .endStylesheet] := by
    have hevents : List.map (blur .places) (parse _).events = _ := hevents
    rw [hrun, List.map_append] at hevents
    exact (List.cons.inj (List.cons.inj hevents).2).2
  obtain ⟨e, es, heq, he, -⟩ := List.map_eq_cons_iff.mp hmap
  obtain ⟨w, b, hw, rfl⟩ := Grammar.declared_reports hc.all heq
  obtain ⟨-, hsame, -⟩ := Event.property.inj he
  exact Grammar.value_legible hv hc w hw hsame

end Stylesheet
