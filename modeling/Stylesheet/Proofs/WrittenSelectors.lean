import Stylesheet.Proofs.SelectorTexts
import Stylesheet.Proofs.Acceptance

/-! Selectors written without escapes, in any layout, are read back as they were. -/
namespace Stylesheet
open Computability Lexical Production

structure Selector.WellFormed (s : Selector) : Prop where
  first : s.first.WellFormed
  rest : ∀ l ∈ s.rest, l.2.WellFormed

/-- How a combinator can be written: blanks, or its symbol with blanks around it or none. -/
def Combinator.layouts : Combinator → Language Char
  | .descendant => blank * blank∗
  | .child => blank∗ * (exactly ">" * blank∗)
  | .adjacentSibling => blank∗ * (exactly "+" * blank∗)

/-- A combinator with the simple selector that it leads to. -/
def linkLayouts (l : Combinator × SimpleSelector) : Language Char := l.1.layouts * {l.2.text}

def Selector.layouts (s : Selector) : Language Char :=
  {s.first.text} * (s.rest.map linkLayouts).prod

/-- A comma with blanks around it or none. -/
def separator : Language Char := blank∗ * (exactly "," * blank∗)

def layouts (s : Selector) (ss : List Selector) : Language Char :=
  s.layouts * (ss.map fun t => separator * t.layouts).prod

variable {b t x y : Text}

theorem isBlank_of_mem (hb : b ∈ blank∗) : ∀ c ∈ b, isBlank c := mem_char_kstar.mp hb

namespace Grammar

theorem closes_blank {c : Char} (hc : isBlank c) : Closes (c :: y) := by
  refine ⟨?_, .inl ⟨c, rfl, hc⟩⟩
  rcases (isBlank_iff c).mp hc with rfl | rfl | rfl | rfl | rfl
  all_goals exact .cons (by decide) (by decide) (by decide)

/-- A sign that belongs to no simple selector closes one, with blanks before it or none. -/
theorem closes_sign {k : Kind} (hb : ∀ c ∈ b, isBlank c) (ht : Measured k t y)
    (hy : Delimited (t ++ y)) (hk : k ≠ .space) (hm : k ∉ modifierKinds) : Closes (b ++ (t ++ y)) := by
  cases b with
  | nil => exact ⟨hy, .inr ⟨k, ht.next hk, hm⟩⟩
  | cons c b => exact closes_blank (hb c (by simp))

/-- A link as it is written in front of something that closes it. -/
theorem link_runs {l : Combinator × SimpleSelector} {g : Text} (hg : g ∈ linkLayouts l)
    (hl : l.2.WellFormed) (hy : Closes y) :
    Runs link (g ++ y) y [] (· = some l) ∧ Closes (g ++ y) := by
  obtain ⟨c, u⟩ := l
  obtain ⟨w, hw, v, rfl, rfl⟩ := hg
  have hsign : ∀ {k : Kind} {s : Char} {a b : Text}, s ∈ ['>', '+'] →
      (∀ rest, Measured k [s] rest) → Combinator.ofKind? k = some c → k ∉ modifierKinds →
      a ∈ blank∗ → b ∈ blank∗ → Runs link (a ++ ([s] ++ b) ++ u.text ++ y) y [] (· = some (c, u)) ∧
        Closes (a ++ ([s] ++ b) ++ u.text ++ y) := by
    intro k s a b hs hmeasured hk hm ha hb
    have hdelimited : Delimited ([s] ++ (b ++ (u.text ++ y))) :=
      delimited_symbol (by revert hs; simp; tauto) _
    have hspace : k ≠ .space := by
      rintro rfl
      simp [Combinator.ofKind?] at hk
    simp only [List.append_assoc]
    exact ⟨sign_link_runs (hmeasured _) hk (isBlank_of_mem ha) (isBlank_of_mem hb) hl hy,
      closes_sign (isBlank_of_mem ha) (hmeasured _) hdelimited hspace hm⟩
  cases c with
  | descendant =>
    obtain ⟨hne, hb⟩ := mem_char_mul_kstar.mp hw
    show Runs link (w ++ u.text ++ y) y [] _ ∧ Closes (w ++ u.text ++ y)
    rw [List.append_assoc]
    refine ⟨blank_link_runs hb hne hl hy, ?_⟩
    obtain ⟨c, w, rfl⟩ := List.exists_cons_of_ne_nil hne
    exact closes_blank (hb c (by simp))
  | child =>
    obtain ⟨a, ha, v, ⟨d, rfl, b, hb, rfl⟩, rfl⟩ := hw
    exact hsign (by decide) (measured_symbol (c := '>') (by decide)) rfl (by decide) ha hb
  | adjacentSibling =>
    obtain ⟨a, ha, v, ⟨d, rfl, b, hb, rfl⟩, rfl⟩ := hw
    exact hsign (by decide) (measured_symbol (c := '+') (by decide)) rfl (by decide) ha hb

/-- What can stand behind a selector: a comma or a brace, with blanks before it or none. -/
structure Ends (k : Kind) (b t y : Text) : Prop where
  kind : k ∈ [Kind.comma, .lbrace]
  measured : Measured k t y
  delimited : Delimited (t ++ y)
  blanks : ∀ c ∈ b, isBlank c

variable {k : Kind}

theorem Ends.closes (h : Ends k b t y) : Closes (b ++ (t ++ y)) := by
  have hkind : k ≠ .space ∧ k ∉ modifierKinds := by
    have := h.kind
    revert this
    cases k <;> decide
  exact closes_sign h.blanks h.measured h.delimited hkind.1 hkind.2

/-- The links of a chain, up to its end. -/
theorem links_run {ls : List (Combinator × SimpleSelector)} (hy : Ends k b t y)
    (hls : ∀ l ∈ ls, l.2.WellFormed) {g : Text} (hg : g ∈ (ls.map linkLayouts).prod) :
    Runs (many link) (g ++ (b ++ (t ++ y))) (t ++ y) [] (· = ls) ∧ Closes (g ++ (b ++ (t ++ y))) := by
  induction ls generalizing g with
  | nil =>
    obtain rfl : g = [] := hg
    exact ⟨.many_nil link_advances (link_ends hy.measured hy.kind hy.blanks), hy.closes⟩
  | cons l ls ih =>
    obtain ⟨u, hu, v, hv, rfl⟩ := hg
    obtain ⟨hl, hls⟩ := List.forall_mem_cons.mp hls
    obtain ⟨hrest, hcloses⟩ := ih hls hv
    obtain ⟨hlink, hcloses⟩ := link_runs hu hl hcloses
    have heq : u ++ v ++ (b ++ (t ++ y)) = u ++ (v ++ (b ++ (t ++ y))) := List.append_assoc ..
    show Runs _ (u ++ v ++ (b ++ (t ++ y))) _ _ _ ∧ Closes (u ++ v ++ (b ++ (t ++ y)))
    rw [heq]
    exact ⟨.many_cons link_advances hlink hrest, hcloses⟩

theorem selector_runs {s : Selector} (hs : s.WellFormed) (hy : Ends k b t y) (hx : x ∈ s.layouts)
    {a : Text} (ha : ∀ c ∈ a, isBlank c) :
    Runs selector (a ++ (x ++ (b ++ (t ++ y)))) (t ++ y) [] (· = some s) := by
  obtain ⟨u, rfl, g, hg, rfl⟩ := hx
  obtain ⟨hlinks, hcloses⟩ := links_run hy hs.rest hg
  have heq : s.first.text ++ g ++ (b ++ (t ++ y)) = s.first.text ++ (g ++ (b ++ (t ++ y))) :=
    List.append_assoc ..
  show Runs _ (a ++ (s.first.text ++ g ++ (b ++ (t ++ y)))) _ _ _
  rw [heq]
  exact (simpleSelector_runs hs.first ha hcloses).quiet (hlinks.quiet (.pure rfl))

theorem nextSelector_advances : Advances nextSelector :=
  nextSelector_tracks.advances (by simp [Syntax.tok])

/-- A block starts behind a selector. -/
theorem block_ends (y : Text) : Ends .lbrace [] ['{'] y :=
  ⟨by decide, measured_symbol (c := '{') (by decide) _, delimited_symbol (by decide) _, by simp⟩

/-- What stands behind a selector of a list, and how the rest of the list is read there. -/
theorem selectors_run {ss : List Selector} (hss : ∀ s ∈ ss, s.WellFormed) {w : Text}
    (hw : w ∈ (ss.map fun s => separator * s.layouts).prod) (y : Text) :
    ∃ k b t z, w ++ '{' :: y = b ++ (t ++ z) ∧ Ends k b t z ∧
      Runs (many nextSelector) (t ++ z) ('{' :: y) [] (· = ss) := by
  induction ss generalizing w with
  | nil =>
    obtain rfl : w = [] := hw
    have hskip : Runs nextSelector ('{' :: y) ('{' :: y) [] (· = none) :=
      (Runs.skip ((block_ends y).measured.next (by decide)) (by decide)).quiet (.pure rfl)
    exact ⟨.lbrace, [], ['{'], y, rfl, block_ends y, .many_nil nextSelector_advances hskip⟩
  | cons s ss ih =>
    obtain ⟨g, ⟨d, ⟨b, hb, e, ⟨c, rfl, b', hb', rfl⟩, rfl⟩, x, hx, rfl⟩, v, hv, rfl⟩ := hw
    obtain ⟨hs, hss⟩ := List.forall_mem_cons.mp hss
    obtain ⟨k, a, t, z, heq, hends, hrest⟩ := ih hss hv
    have hcomma : Measured .comma [','] (b' ++ (x ++ (a ++ (t ++ z)))) :=
      measured_symbol (c := ',') (by decide) _
    have hnext : Runs nextSelector ([','] ++ (b' ++ (x ++ (a ++ (t ++ z))))) (t ++ z) [] (· = some s) := by
      refine (Runs.accept_here hcomma (by decide) (by decide)).bind fun o ho => ?_
      obtain ⟨u, rfl, -⟩ := ho
      exact (selector_runs hs hends hx (isBlank_of_mem hb')).quiet (.pure rfl)
    refine ⟨.comma, b, [','], b' ++ (x ++ (a ++ (t ++ z))), ?_, ?_, .many_cons nextSelector_advances hnext hrest⟩
    · simp [← heq]
    · exact ⟨by decide, hcomma, delimited_symbol (by decide) _, isBlank_of_mem hb⟩

/-- No declaration starts at the end of a block. -/
theorem declaration_ends (z : Text) : Runs declaration ('}' :: z) ('}' :: z) [] (· = none) ∧
    Runs (many nextDeclaration) ('}' :: z) ('}' :: z) [] (· = []) := by
  have hclose : Measured .rbrace ['}'] z := measured_symbol (c := '}') (by decide) _
  have hskip : ∀ {k : Kind}, k ≠ .rbrace → Runs (accept [k]) ('}' :: z) ('}' :: z) [] (· = none) := fun hk =>
    Runs.skip (hclose.next (by decide)) (by simpa using hk.symm)
  have hnext : Runs nextDeclaration ('}' :: z) ('}' :: z) [] (· = none) :=
    (hskip (by decide)).quiet (.pure rfl)
  exact ⟨(hskip (by decide)).quiet (.pure rfl),
    .many_nil (nextDeclaration_tracks.advances (by simp [Syntax.tok])) hnext⟩

variable {ι : Type} {P : ι → Prop} {es : ι → List Event} {z : Text}

theorem ruleBlock_fires (ss : List Selector)
    (h : Fires P declarations y ('}' :: z) es fun _ => True) : Fires P (ruleBlock ss) ('{' :: y) z
      (fun i => .startRule ss :: (es i ++ [.endRule ss])) fun _ => True := by
  have hclose : Measured .rbrace ['}'] z := measured_symbol (c := '}') (by decide) _
  have hend : Runs (do let _ ← expect [.rbrace]; fire (.endRule ss)) ('}' :: z) z [.endRule ss]
      fun _ => True := (Runs.expect_here hclose (by decide) (by decide)).silent fun _ _ => .fire
  exact .silent (Runs.expect_here (block_ends y).measured (by decide) (by decide)) fun _ _ =>
    .behind .fire fun _ _ => h.before fun _ _ => hend

/-- The selectors of a rule are read from every layout of them. -/
theorem layouts_run {s : Selector} {ss : List Selector} (h : ∀ t ∈ s :: ss, t.WellFormed)
    (hx : x ∈ layouts s ss) (y : Text) : ∃ v, Runs selector (x ++ '{' :: y) v [] (· = some s) ∧
      Runs (many nextSelector) v ('{' :: y) [] (· = ss) := by
  obtain ⟨hs, hss⟩ := List.forall_mem_cons.mp h
  obtain ⟨u, hu, w, hw, rfl⟩ := hx
  obtain ⟨k, b, t, v, heq, hends, hrest⟩ := selectors_run hss hw y
  have hfirst := selector_runs (a := []) hs hends hu (by simp)
  rw [← heq] at hfirst
  refine ⟨t ++ v, ?_, hrest⟩
  show Runs _ (u ++ w ++ '{' :: y) _ _ _
  rwa [List.append_assoc]

/-- A rule whose block is read. -/
theorem ruleset_fires {s : Selector} {ss : List Selector} (h : ∀ t ∈ s :: ss, t.WellFormed)
    (hx : x ∈ layouts s ss) (hblock : Fires P (ruleBlock (s :: ss)) ('{' :: y) z es fun _ => True) :
    Fires P ruleset (x ++ '{' :: y) z es (· = some ()) := by
  obtain ⟨v, hfirst, hrest⟩ := layouts_run h hx y
  exact .quiet hfirst (.quiet hrest (hblock.done fun _ _ => .pure rfl))

/-- The first token of a written selector. -/
theorem layouts_next {s : Selector} {ss : List Selector} (h : ∀ t ∈ s :: ss, t.WellFormed)
    (hx : x ∈ layouts s ss) (y : Text) : ∃ k ∈ unitKinds, Next k (x ++ '{' :: y) := by
  obtain ⟨hs, hss⟩ := List.forall_mem_cons.mp h
  obtain ⟨u, ⟨f, rfl, g, hg, rfl⟩, w, hw, rfl⟩ := hx
  obtain ⟨j, b, t, z, heq, hends, -⟩ := selectors_run hss hw y
  obtain ⟨-, hcloses⟩ := links_run hends hs.rest hg
  obtain ⟨k, hk, v, rest, hfront, hv⟩ := unit_front hs.first hcloses
  have hspace : k ≠ .space := by
    rintro rfl
    exact absurd hk (by decide)
  refine ⟨k, hk, hspace, [], v, rest, ?_, by simp, hv⟩
  show s.first.text ++ g ++ w ++ '{' :: y = v ++ rest
  rw [← hfront, ← heq]
  simp only [List.append_assoc]

theorem statement_fires (hnext : ∃ k ∈ unitKinds, Next k x)
    (hr : Fires P ruleset x y es (· = some ())) : Fires P statement x y es (· = some ()) := by
  obtain ⟨k, hk, hnext⟩ := hnext
  refine .silent (Runs.peek hnext) fun u hu => ?_
  subst hu
  split
  case h_6 =>
    refine hr.done fun o ho => ?_
    subst ho
    exact .pure rfl
  all_goals
    rename_i hkind
    exact absurd (hkind ▸ hk) (by decide)

theorem statement_ends_here : Runs statement [] [] [] (· = none) := by
  intro ts hts c hc
  obtain ⟨e, rfl, he⟩ := hts.of_nil
  have hspace : e.isSpace = false := by simp [Token.isSpace, he]
  have hnext : c.next = e := hc.next_eq (s := []) (r := []) (by simp) hspace
  refine ⟨none, c, [e], ?_, rfl, hts, hc⟩
  have hpeek : next c = ⟨[], c, .ok e⟩ := by rw [← hnext]; rfl
  rw [statement, bind_quiet hpeek]
  simp only [he]
  rfl

/-- Before a rule the productions of what stands at the start of a style sheet read nothing. -/
theorem prologue_runs (hnext : ∃ k ∈ unitKinds, Next k x) : Runs charset x x [] (fun _ => True) ∧
    Runs marks x x [] (fun _ => True) ∧ Runs (many importSheet) x x [] (· = []) := by
  have hskip : ∀ {ks : List Kind}, (∀ k ∈ ks, k ∉ unitKinds) → Runs (accept ks) x x [] (· = none) := by
    intro ks hks
    obtain ⟨k, hk, hnext⟩ := hnext
    exact Runs.skip hnext fun hm => hks k hm hk
  have hmark := (Tracks.accept [.cdo, .cdc] (by decide)).advances (by simp [Syntax.tok])
  have himport : Runs importSheet x x [] (· = none) := (hskip (by decide)).quiet (.pure rfl)
  exact ⟨(hskip (by decide)).quiet (.pure trivial),
    (Runs.many_nil hmark (hskip (by decide))).quiet (.pure trivial),
    .many_nil (importSheet_tracks.advances (by simp [Syntax.importSheet, Syntax.tok])) himport⟩

/-- A style sheet that is one rule. -/
theorem rule_fires {s : Selector} {ss : List Selector} (h : ∀ t ∈ s :: ss, t.WellFormed)
    (hx : x ∈ layouts s ss) (hblock : Fires P (ruleBlock (s :: ss)) ('{' :: y) [] es fun _ => True) :
    Fires P stylesheet (x ++ '{' :: y) [] (fun i => .startStylesheet :: (es i ++ [.endStylesheet]))
      fun _ => True := by
  have hnext := layouts_next h hx y
  obtain ⟨hcharset, hmarks, himports⟩ := prologue_runs hnext
  have hstatement := statement_fires hnext (ruleset_fires h hx hblock)
  have hstatements := Fires.many_one statement_advances (hstatement.mono fun _ ho => ho ▸ rfl)
    (.many_nil statement_advances statement_ends_here)
  exact .behind .fire fun _ _ => .silent hcharset fun _ _ => .silent hmarks fun _ _ =>
    .quiet himports (hstatements.before fun _ _ => .fire)

/-- An empty block. -/
def emptyBlock : Text := ['{', '}']

theorem rule_runs {s : Selector} {ss : List Selector} (h : ∀ t ∈ s :: ss, t.WellFormed)
    (hx : x ∈ layouts s ss) : Runs stylesheet (x ++ emptyBlock) [] [.startStylesheet,
      .startRule (s :: ss), .endRule (s :: ss), .endStylesheet] fun _ => True := by
  obtain ⟨hdeclaration, hmany⟩ := declaration_ends []
  have hdeclarations : Runs declarations ['}'] ['}'] [] fun _ => True :=
    hdeclaration.quiet (hmany.quiet (.pure trivial))
  exact (rule_fires h hx (ruleBlock_fires _ hdeclarations.fires)).runs

end Grammar

/-! The texts of selectors are layouts of them. -/

theorem spaced_mem_layouts (c : Combinator) : c.spaced ∈ c.layouts := by
  have hall : ∀ c ∈ ([' '] : Text), isBlank c := List.all_eq_true.mp (by decide)
  have hspace : ([' '] : Text) ∈ blank∗ := mem_char_kstar.mpr hall
  cases c with
  | descendant => exact mem_char_mul_kstar.mpr ⟨List.cons_ne_nil _ _, hall⟩
  | child => exact ⟨[' '], hspace, "> ".toList, ⟨['>'], rfl, [' '], hspace, rfl⟩, rfl⟩
  | adjacentSibling => exact ⟨[' '], hspace, "+ ".toList, ⟨['+'], rfl, [' '], hspace, rfl⟩, rfl⟩

theorem flatMap_mem_prod {α : Type} {f : α → Text} {K : α → Language Char} {as : List α}
    (h : ∀ a ∈ as, f a ∈ K a) : as.flatMap f ∈ (as.map K).prod := by
  induction as with
  | nil => rfl
  | cons a as ih =>
    obtain ⟨ha, has⟩ := List.forall_mem_cons.mp h
    exact ⟨f a, ha, as.flatMap f, ih has, rfl⟩

theorem text_mem_layouts (s : Selector) : s.text ∈ s.layouts :=
  ⟨s.first.text, rfl, _, flatMap_mem_prod fun l _ => ⟨_, spaced_mem_layouts l.1, l.2.text, rfl, rfl⟩, rfl⟩

theorem intercalate_cons (sep x : Text) (xs : List Text) :
    sep.intercalate (x :: xs) = x ++ xs.flatMap (sep ++ ·) := by
  induction xs generalizing x with
  | nil => simp [List.intercalate]
  | cons y xs ih =>
    have := ih y
    simp_all [List.intercalate]

theorem intercalate_mem_layouts {sep : Text} (hsep : sep ∈ separator) (s : Selector)
    (ss : List Selector) : sep.intercalate ((s :: ss).map Selector.text) ∈ layouts s ss := by
  rw [List.map_cons, intercalate_cons, List.flatMap_map]
  exact ⟨s.text, text_mem_layouts s, _,
    flatMap_mem_prod fun t _ => ⟨sep, hsep, t.text, text_mem_layouts t, rfl⟩, rfl⟩

/-- A list of selectors is read back from every layout of it, the usual texts with commas between
them among these. -/
theorem parse_written_selectors {s : Selector} {ss : List Selector}
    (h : ∀ t ∈ s :: ss, t.WellFormed) :
    (∀ x ∈ layouts s ss, parse (x ++ ['{', '}']) = ⟨[.startStylesheet, .startRule (s :: ss),
      .endRule (s :: ss), .endStylesheet], none⟩) ∧
    ∀ sep ∈ separator, parse (sep.intercalate ((s :: ss).map Selector.text) ++ ['{', '}']) =
      ⟨[.startStylesheet, .startRule (s :: ss), .endRule (s :: ss), .endStylesheet], none⟩ :=
  ⟨fun _ hx => parse_of_runs (Grammar.rule_runs h hx),
    fun _ hsep => parse_of_runs (Grammar.rule_runs h (intercalate_mem_layouts hsep s ss))⟩

theorem mem_plainIdent {c : Char} {n : Text} (hc : isNameStart c) (hn : n.all isNameChar)
    (hb : '\\' ∉ c :: n) : c :: n ∈ plainIdent := by
  have hrest : n ∈ nmchar∗ :=
    mem_of_le (kstar_mono le_sup_left) (mem_char_kstar.mpr (List.all_eq_true.mp hn))
  exact ⟨⟨[], nil_mem_opt _, c :: n, ⟨[c], .inl ⟨c, hc, rfl⟩, n, hrest, rfl⟩, rfl⟩, hb⟩

/-- The element `a` with the pseudo-class `hover`, as the parent of the element `b`. -/
def hovered : Selector :=
  (Selector.ofUnit ⟨some (.named ['a']), [.pseudo ":hover".toList], .inl rfl⟩).push .child
    ⟨some (.named ['b']), [], .inl rfl⟩

theorem parse_hovered : (∀ t ∈ [hovered], t.WellFormed) ∧
    parse ("a:hover>b".toList ++ ['{', '}']) = ⟨[.startStylesheet, .startRule [hovered],
      .endRule [hovered], .endStylesheet], none⟩ := by
  have ha : (['a'] : Text) ∈ plainIdent := mem_plainIdent (by decide) (by decide) (by decide)
  have hb : (['b'] : Text) ∈ plainIdent := mem_plainIdent (by decide) (by decide) (by decide)
  have hhover : "hover".toList ∈ plainIdent := mem_plainIdent (by decide) (by decide) (by decide)
  have hpseudo : (Modifier.pseudo ":hover".toList).WellFormed := ⟨[':'], rfl, _, .inl hhover, rfl⟩
  have hwell : ∀ t ∈ [hovered], t.WellFormed := by
    simp only [List.mem_singleton, forall_eq]
    refine ⟨⟨?_, by simpa [hovered, Selector.push, Selector.ofUnit] using hpseudo⟩, ?_⟩
    · rintro e ⟨⟩
      exact ha
    · simp only [hovered, Selector.push, Selector.ofUnit, List.nil_append, List.mem_singleton,
        forall_eq]
      refine ⟨?_, by simp⟩
      rintro e ⟨⟩
      exact hb
  have hchild : ['>'] ∈ Combinator.child.layouts :=
    ⟨[], Language.nil_mem_kstar _, ['>'], ⟨['>'], rfl, [], Language.nil_mem_kstar _, rfl⟩, rfl⟩
  refine ⟨hwell, (parse_written_selectors hwell).1 _ ?_⟩
  exact ⟨_, ⟨"a:hover".toList, rfl, _, ⟨">b".toList, ⟨['>'], hchild, ['b'], rfl, rfl⟩, [], rfl, rfl⟩,
    rfl⟩, [], rfl, rfl⟩

/-- In any case the letters of `url` open an address, which no selector can hold. -/
theorem shouted_url_lost : "URL".toList ∈ plainIdent ∧ "URL".toList ≠ "url".toList ∧
    ['a'] ∈ plainIdent ∧
    let s := Selector.ofUnit ⟨none, [.pseudo ":URL(a)".toList], .inr (List.cons_ne_nil _ _)⟩
    s.text = ":URL(a)".toList ∧
      parse (s.text ++ ['{', '}']) = ⟨[.startStylesheet], some ⟨"URL(a)".toList, ⟨1, 2⟩⟩⟩ := by
  refine ⟨mem_plainIdent (by decide) (by decide) (by decide), by decide,
    mem_plainIdent (by decide) (by decide) (by decide), rfl, ?_⟩
  cbv

end Stylesheet
