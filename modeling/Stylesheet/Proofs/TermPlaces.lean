import Stylesheet.Proofs.GrammarProgress
import Stylesheet.Proofs.Places
import Stylesheet.Proofs.ProperEvents

/-! Where the terms of values stand: each at a token of its own, its sign or else the token it is
made of, and in the order of the text. Terms inside a function are part of its text only. -/
namespace Stylesheet
open Grammar (isSome_sign)

/-- The token that a term starts with: its sign, or what else it is made of. -/
inductive Term.StartsAt : Term → Token → Prop
  | signed {k : Token} {s : Sign} {text : Text} {kind : TermKind} (h : Sign.ofKind? k.kind = some s) :
      StartsAt (.ofSigned (some s) text kind k.position) k
  | bare {k : Token} {text : Text} {kind : TermKind} (h : BareTermOf (k = ·) kind text) :
      StartsAt (.ofSigned none text kind k.position) k

/-- A token that a term is made of is seen where terms are read, and its text opens that of the term. -/
theorem BareTermOf.opens {k : Token} {text : Text} {kind : TermKind}
    (h : BareTermOf (k = ·) kind text) : k.kind ≠ .space ∧ k.kind ≠ .eof ∧ k.text <+: text := by
  cases h with
  | plain hj ht =>
    obtain ⟨t, rfl, hkind, rfl⟩ := ht
    obtain rfl := List.mem_singleton.mp hkind
    exact ⟨fun he => by simp [he, TermKind.ofKind?] at hj, fun he => by simp [he, TermKind.ofKind?] at hj,
      List.prefix_rfl⟩
  | color ht =>
    obtain ⟨t, rfl, hkind, rfl⟩ := ht
    rw [List.mem_singleton.mp hkind]
    exact ⟨by simp, by simp, List.prefix_rfl⟩
  | call ht arguments =>
    obtain ⟨t, rfl, hkind, rfl⟩ := ht
    rw [List.mem_singleton.mp hkind]
    exact ⟨by simp, by simp, ⟨arguments ++ [')'], by simp⟩⟩

namespace Term.StartsAt
variable {t : Term} {k : Token}

theorem position (h : t.StartsAt k) : t.position = k.position := by
  cases h <;> rfl

theorem kind_ne (h : t.StartsAt k) : k.kind ≠ .space ∧ k.kind ≠ .eof := by
  cases h with
  | signed h => exact ⟨fun he => by simp [he, Sign.ofKind?] at h, fun he => by simp [he, Sign.ofKind?] at h⟩
  | bare h => exact ⟨h.opens.1, h.opens.2.1⟩

theorem text (h : t.StartsAt k) (hk : k.Lexed) : k.text <+: t.text := by
  cases h with
  | @signed _ s text kind h =>
    obtain ⟨rest, hm⟩ := hk.resolve_left fun he => by simp [he, Sign.ofKind?] at h
    have hsign : k.text = [s.symbol] := by
      obtain hkind | hkind : k.kind = .minus ∨ k.kind = .plus := by
        simpa using (isSome_sign k.kind).mp (by simp [h])
      all_goals
        rw [hkind] at h hm
        obtain rfl := Option.some.inj h
        exact mem_exactly.mp (hm.mem_production (by decide))
    exact ⟨text, by simp [ofSigned, hsign]⟩
  | bare h => exact h.opens.2.2

end Term.StartsAt

/-- The token `k` gives the place of the term `t`. -/
structure Term.StandsAt (t : Term) (k : Token) : Prop where
  position : t.position = k.position
  visible : k.isSpace = false
  text : k.text <+: t.text
  starts : t.StartsAt k

theorem Term.StartsAt.stands {t : Term} {k : Token} (h : t.StartsAt k) (hk : k.Lexed) : t.StandsAt k :=
  ⟨h.position, decide_eq_false h.kind_ne.1, h.text hk, h⟩

/-- The terms `ts` start at tokens among `w`, in order and each at another one. -/
def Located (ts : List Term) (w : List Token) : Prop :=
  ∃ ks, ks.Sublist w ∧ List.Forall₂ Term.StartsAt ts ks

namespace Located
variable {ts us : List Term} {w v : List Token}

theorem nil (w : List Token) : Located [] w := ⟨[], List.nil_sublist w, .nil⟩

theorem single {t : Term} {k : Token} (h : t.StartsAt k) (hk : k ∈ w) : Located [t] w :=
  ⟨[k], List.singleton_sublist.mpr hk, .cons h .nil⟩

theorem append (h : Located ts w) (h' : Located us v) : Located (ts ++ us) (w ++ v) := by
  obtain ⟨x, hx, hts⟩ := h
  obtain ⟨y, hy, hus⟩ := h'
  exact ⟨x ++ y, hx.append hy, List.rel_append hts hus⟩

theorem more (h : Located ts w) (v : List Token) : Located ts (w ++ v) := by
  simpa using h.append (nil v)

theorem split (h : Located (ts ++ us) w) : ∃ x y, w = x ++ y ∧ Located ts x ∧ Located us y := by
  obtain ⟨ks, hks, hstarts⟩ := h
  have hts := List.forall₂_take ts.length hstarts
  have hus := List.forall₂_drop ts.length hstarts
  rw [List.take_left] at hts
  rw [List.drop_left] at hus
  rw [← List.take_append_drop ts.length ks, List.append_sublist_iff] at hks
  obtain ⟨x, y, rfl, hx, hy⟩ := hks
  exact ⟨x, y, rfl, ⟨_, hx, hts⟩, ⟨_, hy, hus⟩⟩

/-- They stand as these tokens do. -/
theorem positions (h : Located ts w) : (ts.map Term.position).Sublist (w.map Token.position) := by
  obtain ⟨ks, hks, hstarts⟩ := h
  have hpositions : ts.map Term.position = ks.map Token.position := by
    rw [← List.forall₂_eq_eq_eq, List.forall₂_map_left_iff, List.forall₂_map_right_iff]
    exact hstarts.imp fun _ _ h => h.position
  rw [hpositions]
  exact hks.map Token.position

theorem pairwise (h : Located ts w) (hw : w.Pairwise (·.position.Before ·.position)) :
    ts.Pairwise (·.position.Before ·.position) :=
  List.pairwise_map.mp ((List.pairwise_map.mpr hw).sublist h.positions)

theorem stand (h : Located ts w) (hw : ∀ k ∈ w, k.Lexed) :
    ∃ ks, ks.Sublist w ∧ List.Forall₂ Term.StandsAt ts ks := by
  obtain ⟨ks, hks, hstarts⟩ := h
  have hflip : List.Forall₂ (fun k t => Term.StartsAt t k) ks ts := hstarts.flip
  have hlexed := (List.forall₂_and_left ks ts).mpr ⟨fun k hk => hw k (hks.subset hk), hflip⟩
  exact ⟨ks, hks, List.Forall₂.flip (hlexed.imp fun _ _ h => h.2.stands h.1)⟩

end Located

/-! Productions: the events they fire tell the terms they have read, but for those of the result. -/

def Value.terms (v : Value) : List Term := v.filterMap Part.term?

@[simp] theorem Value.terms_nil : terms [] = [] := rfl

@[simp] theorem Value.terms_term (t : Term) (v : Value) : terms (.term t :: v) = t :: terms v := rfl

@[simp] theorem Value.terms_operator (o : Operator) (v : Value) : terms (.operator o :: v) = terms v := rfl

def Event.terms : Event → List Term
  | .property _ v _ => v.terms
  | _ => []

def Parse.terms (p : Parse) : List Term := p.events.flatMap Event.terms

/-- The terms of the events, and behind them those that the result holds as `T` says. -/
def Outcome.terms {α : Type} (T : α → List Term) (o : Outcome α) : List Term :=
  o.events.flatMap Event.terms ++ match o.result with
    | .ok a => T a
    | .error _ => []

/-- From `c` on, with the terms `ts` read before and not told yet: wherever these are located, the tokens
that have been passed locate the terms of the outcome behind them. -/
structure Outcome.Places {α : Type} (c : Cursor) (ts : List Term) (T : α → List Term) (o : Outcome α) :
    Prop where
  last : o.cursor.last = c.last
  located : ∃ w, c.ahead = w ++ o.cursor.ahead ∧ ∀ u, Located ts u → Located (o.terms T) (u ++ w)

/-- While the terms `ts` wait to be told, `p` locates the terms that it reads. -/
def Locates {α : Type} (ts : List Term) (p : Production α) (T : α → List Term) : Prop :=
  ∀ c : Cursor, c.last.isEof → (p c).Places c ts T

namespace Locates
variable {α β : Type} {ts : List Term} {p : Production α} {f : α → Production β} {T : α → List Term}
  {U : β → List Term}
open Production

theorem pure {a : α} (h : T a = ts) : Locates ts (pure a : Production α) T :=
  fun _ _ => ⟨rfl, [], rfl, fun u hu => by simpa [Outcome.terms, Pure.pure, h] using hu⟩

theorem reject : Locates ts (reject : Production α) T :=
  fun _ _ => ⟨rfl, [], rfl, fun _ _ => .nil _⟩

/-- What has nothing to tell. -/
theorem quiet {δ : α → Nat} {Q : α → Prop} (h : ∀ {n}, InStep n δ p p)
    (hq : Yields (fun _ => True) (fun e => e.terms = []) p Q) : Locates ts p fun _ => ts := by
  intro c hc
  have hon := InStep.onward h hc
  obtain ⟨w, hw⟩ := hon.ahead
  have hevents : (p c).events.flatMap Event.terms = [] :=
    List.flatMap_eq_nil_iff.mpr (hq c ⟨fun _ _ => trivial, trivial⟩).events
  refine ⟨hon.last, w, hw.symm, fun u hu => ?_⟩
  rw [Outcome.terms, hevents]
  cases (p c).result with
  | error e => exact .nil _
  | ok a => exact hu.more w

/-- An event tells the terms that were waiting for it. -/
theorem tell {e : Event} (h : e.terms = ts) : Locates ts (fire e) fun _ => [] :=
  fun _ _ => ⟨rfl, [], rfl, fun u hu => by simpa [Outcome.terms, fire, h] using hu⟩

theorem bind (hp : Locates ts p T) (hf : ∀ a, Locates (T a) (f a) U) : Locates ts (p >>= f) U := by
  intro c hc
  obtain ⟨hlast, w, hw, hread⟩ := hp c hc
  rcases ho : p c with ⟨es, d, e | a⟩
  · rw [ho] at hlast hw hread
    rw [bind_error ho]
    exact ⟨hlast, w, hw, hread⟩
  · rw [ho] at hlast hw hread
    obtain ⟨hlast', v, hv, hread'⟩ := hf a d (hlast ▸ hc)
    rw [bind_ok ho rfl]
    refine ⟨hlast'.trans hlast, w ++ v, by rw [hw, hv, List.append_assoc], fun u hu => ?_⟩
    -- The events of `p` tell what is located in `x`, those of `f a` what is in `y` and in `v`.
    obtain ⟨x, y, hxy, hx, hy⟩ := (hread u hu).split
    have h := hx.append (hread' y hy)
    rw [← List.append_assoc, ← hxy, List.append_assoc] at h
    simpa [Outcome.terms] using h

theorem option {p : Production (Option α)} {f : Option α → Production β} {T : Option α → List Term}
    (hp : Locates ts p T) (hs : ∀ a, Locates (T (some a)) (f (some a)) U)
    (hn : Locates (T none) (f none) U) : Locates ts (p >>= f) U := by
  refine hp.bind fun o => ?_
  cases o with
  | none => exact hn
  | some a => exact hs a

theorem accept {ks : List Kind} (hk : .eof ∉ ks) : Locates ts (accept ks) fun _ => ts :=
  quiet (.accept hk) (.accept ks)

theorem expect {ks : List Kind} (hk : .eof ∉ ks) : Locates ts (expect ks) fun _ => ts :=
  quiet (.expect hk) (.expect ks)

/-- What a reference does may depend on what is waiting. -/
theorem recursive {ι : Type} {body : Production α → Production α} {I : ι → List Term}
    {T : ι → α → List Term} (h : ∀ again, (∀ i, Locates (I i) again (T i)) →
      ∀ i, Locates (I i) (body again) (T i)) (i : ι) : Locates (I i) (recursive body) (T i) := by
  have hrun := recursive_induction (M := fun c o => ∀ i, c.last.isEof → o.Places c (I i) (T i))
    (fun c _ => reject c) fun again hagain c i => h again (fun j d => hagain d j) i c
  exact fun c => hrun c i

theorem many {p : Production (Option α)} (h : Locates [] p fun _ => []) :
    Locates [] (many p) fun _ => [] :=
  recursive (I := fun _ : Unit => []) (T := fun _ _ => []) (fun _ hagain _ =>
    h.option (fun _ => (hagain ()).bind fun _ => .pure rfl) (.pure rfl)) ()

end Locates

namespace Grammar
open Production

/-! Terms. -/

/-- A match of `p` is made of the next token, as `Q` says, and maybe of more behind it. -/
def Opens {α : Type} (p : Production (Option α)) (Q : Token → α → Prop) : Prop :=
  ∀ c : Cursor, c.last.isEof → ∀ a, (p c).result = .ok (some a) →
    Q c.next a ∧ c.advance.Onward (p c).cursor

section
variable {α : Type} {Q : Token → α → Prop}

theorem Opens.orElse {p q : Production (Option α)} (hp : Opens p Q) (hu : Unmoved p) (hq : Opens q Q) :
    Opens (orElse p q) Q := by
  intro c hc a ha
  rcases ho : p c with ⟨es, d, e | o⟩
  · rw [Production.orElse, bind_error ho] at ha
    simp at ha
  · cases o with
    | some b =>
      rw [Production.orElse, bind_ok ho rfl] at ha ⊢
      obtain rfl : b = a := Option.some.inj (Except.ok.inj ha)
      have := hp c hc b (by rw [ho])
      rwa [ho] at this
    | none =>
      have hquiet := hu c (by rw [ho])
      rw [Production.orElse, bind_quiet hquiet] at ha ⊢
      exact hq c hc a ha

theorem Opens.accept {ks : List Kind} {f : Option Token → Production (Option α)} (hk : .eof ∉ ks)
    (hf : ∀ t {n}, InStep n (fun _ => 0) (f (some t)) (f (some t)))
    (hQ : ∀ t, t.kind ∈ ks → Yields (fun _ => True) (fun _ => False) (f (some t)) fun o => ∀ a ∈ o, Q t a)
    (hn : f none = Pure.pure none) : Opens (accept ks >>= f) Q := by
  intro c hc a ha
  by_cases hnext : c.next.kind ∈ ks
  · have hon := (Cursor.onward_advance hc fun he => hk (he ▸ hnext)).1
    rw [bind_quiet (accept_some hnext)] at ha ⊢
    refine ⟨?_, InStep.onward (hf c.next) (hon.last ▸ hc)⟩
    exact (hQ c.next hnext c.advance ⟨fun _ _ => trivial, trivial⟩).result _ ha a rfl
  · rw [bind_quiet (accept_none hnext), hn] at ha
    simp [Pure.pure] at ha

end

theorem plainTerm_opens : Opens plainTerm fun k a => BareTermOf (k = ·) a.1 a.2 := by
  intro c hc a ha
  cases hk : TermKind.ofKind? c.next.kind with
  | none =>
    rw [plainTerm, bind_quiet (classify_none hk)] at ha
    simp [Pure.pure] at ha
  | some kind =>
    rw [plainTerm, bind_quiet (classify_some hk)] at ha ⊢
    obtain rfl : (kind, c.next.text) = a := Option.some.inj (Except.ok.inj ha)
    exact ⟨.plain hk ⟨c.next, rfl, by simp, rfl⟩, .refl _⟩

theorem hexColor_opens : Opens hexColor fun k a => BareTermOf (k = ·) a.1 a.2 := by
  refine .accept (by decide) (fun t => ?_) (fun t ht => ?_) rfl
  · dsimp only
    split
    · exact .pure rfl
    · exact .fail _
  · dsimp only
    split
    next hc => exact .pure fun a ha => Option.some.inj ha ▸ .color (.mk ⟨rfl, ht⟩) hc
    next => exact .fail _

theorem function_opens : Opens (function value) fun k a => BareTermOf (k = ·) a.1 a.2 := by
  refine .accept (by decide) (fun t => ?_) (fun t ht => ?_) rfl
  · exact .bind arguments_inStep fun _ =>
      .bind (InStep.accept (by decide)).any fun _ => .pure rfl
  · refine value_yields.bind fun v _ => (Yields.accept _).bind fun _ _ => .pure fun a ha => ?_
    obtain rfl := Option.some.inj ha
    exact .call (.mk ⟨rfl, ht⟩) (v.flatMap Value.Part.text)

theorem behindSign_matched {arguments : Production Value} {x : Position} {s : Option Sign} {c : Cursor}
    {t : Term} (h : (behindSign arguments x s c).result = .ok (some t)) :
    let bare := orElse plainTerm (orElse hexColor (function arguments)) c
    ∃ kind text, t = .ofSigned s text kind x ∧ bare.result = .ok (some (kind, text)) ∧
      (behindSign arguments x s c).cursor = bare.cursor := by
  dsimp only
  rcases ho : orElse plainTerm (orElse hexColor (function arguments)) c with ⟨es, d, e | o⟩
  · rw [behindSign, bind_error ho] at h
    simp at h
  · cases o with
    | none =>
      rw [behindSign, bind_ok ho rfl] at h
      simp at h
    | some a =>
      rw [behindSign, bind_ok ho rfl] at h ⊢
      exact ⟨a.1, a.2, (Option.some.inj (Except.ok.inj h)).symm, rfl, rfl⟩

/-- A term stands at the token that it starts with, and reading has gone on behind that. -/
theorem term_startsAt {c : Cursor} (hc : c.last.isEof) {t : Term}
    (h : (term value c).result = .ok (some t)) :
    t.StartsAt c.next ∧ c.advance.Onward (term value c).cursor := by
  obtain hterm | ⟨s, hs, hterm⟩ := term_cases value c
  · rw [hterm] at h ⊢
    obtain ⟨kind, text, rfl, hbare, hcursor⟩ := behindSign_matched h
    obtain ⟨hstart, hon⟩ := plainTerm_opens.orElse plainTerm_unmoved
      (hexColor_opens.orElse hexColor_unmoved function_opens) c hc _ hbare
    exact ⟨.bare hstart, hcursor ▸ hon⟩
  · rw [hterm] at h ⊢
    obtain ⟨kind, text, rfl, -⟩ := behindSign_matched h
    have hon := (Cursor.onward_advance hc fun he => by simp [he, Sign.ofKind?] at hs).1
    have hrest := InStep.onward ((behindSign_inStep arguments_inStep c.next.position (some s)).mono (Nat.le_succ _))
      (hon.last ▸ hc)
    exact ⟨.signed hs, hrest⟩

theorem term_locates (ts : List Term) : Locates ts (term value) fun o => ts ++ o.toList := by
  intro c hc
  have hon := InStep.onward ((term_inStep arguments_inStep).mono (Nat.le_succ _)) hc
  have hevents : (term value c).events = [] := List.eq_nil_iff_forall_not_mem.mpr
    (term_yields (P := fun _ => True) (E := fun _ => False) value_yields c ⟨fun _ _ => trivial, trivial⟩).events
  refine ⟨hon.last, ?_⟩
  rw [Outcome.terms, hevents]
  cases hr : (term value c).result with
  | error e =>
    obtain ⟨w, hw⟩ := hon.ahead
    exact ⟨w, hw.symm, fun _ _ => .nil _⟩
  | ok o =>
    cases o with
    | none =>
      obtain ⟨w, hw⟩ := hon.ahead
      exact ⟨w, hw.symm, fun u hu => by simpa using hu.more w⟩
    | some t =>
      obtain ⟨hstart, hbehind⟩ := term_startsAt hc hr
      obtain ⟨s, hs⟩ := Cursor.ahead_eq hc hstart.kind_ne.2
      obtain ⟨w, hw⟩ := hbehind.ahead
      exact ⟨s ++ c.next :: w, by rw [hs, ← hw]; simp, fun u hu => hu.append (.single hstart (by simp))⟩

/-! Values, which tell nothing while they are read. -/

theorem operator_locates (ts : List Term) : Locates ts operator fun _ => ts :=
  .quiet operator_inStep operator_yields

theorem moreParts_locates (ts : List Term) : Locates ts (moreParts value) fun v => ts ++ v.terms := by
  refine Locates.recursive (I := id) (T := fun ts (v : Value) => ts ++ v.terms) (fun again hagain ts => ?_) ts
  refine (operator_locates ts).bind fun o => (term_locates ts).option (fun t => ?_) (.pure ?_)
  · exact (hagain _).bind fun v => .pure (by cases o <;> simp)
  · cases o <;> simp

theorem parts_locates : Locates [] (parts value) Value.terms :=
  (term_locates []).option (fun _ => (moreParts_locates _).bind fun _ => .pure rfl) (.pure rfl)

theorem value_locates : Locates [] value Value.terms := by
  intro c hc
  have heq : value c = parts value c := value_grounded.plain c hc
  rw [heq]
  exact parts_locates c hc

/-! Statements. -/

theorem declaration_locates : Locates [] declaration fun _ => [] := by
  refine (Locates.accept (by decide)).option (fun name => ?_) (.pure rfl)
  refine (Locates.expect (by decide)).bind fun _ => value_locates.bind fun v => ?_
  cases v.isEmpty with
  | true => exact .reject
  | false =>
    exact (Locates.accept (by decide)).bind fun _ => Locates.bind (.tell rfl) fun _ => .pure rfl

theorem nextDeclaration_locates : Locates [] nextDeclaration fun _ => [] :=
  (Locates.accept (by decide)).option (fun _ => declaration_locates.bind fun _ => .pure rfl) (.pure rfl)

theorem declarations_locates : Locates [] declarations fun _ => [] :=
  declaration_locates.bind fun _ => (Locates.many nextDeclaration_locates).bind fun _ => .pure rfl

/-- A block whose start and end tell nothing. -/
theorem block_locates {α : Type} {p : Production α} {b e : Event} (hb : b.terms = []) (he : e.terms = [])
    (h : Locates [] p fun _ => []) : Locates []
      (do let _ ← expect [.lbrace]; fire b; let _ ← p; let _ ← expect [.rbrace]; fire e) fun _ => [] :=
  (Locates.expect (by decide)).bind fun _ => Locates.bind (.tell hb) fun _ => h.bind fun _ =>
    (Locates.expect (by decide)).bind fun _ => .tell he

theorem ruleset_locates : Locates [] ruleset fun _ => [] := by
  refine (Locates.quiet selector_inStep selector_yields).option (fun first => ?_) (.pure rfl)
  refine (Locates.quiet (.many nextSelector_inStep) (.many nextSelector_yields)).bind fun rest => ?_
  exact (block_locates rfl rfl declarations_locates).bind fun _ => .pure rfl

theorem media_locates : Locates [] media fun _ => [] := by
  refine (Locates.expect (by decide)).bind fun _ => ?_
  refine (Locates.quiet mediaList_inStep mediaList_yields).bind fun l => ?_
  exact block_locates rfl rfl (.many ruleset_locates)

theorem page_locates : Locates [] page fun _ => [] := by
  refine (Locates.expect (by decide)).bind fun _ => ?_
  refine (Locates.quiet pagePseudo_inStep pagePseudo_yields).bind fun s => ?_
  exact block_locates rfl rfl declarations_locates

theorem charset_locates : Locates [] charset fun _ => [] := by
  refine (Locates.accept (by decide)).option (fun _ => ?_) (.pure rfl)
  exact (Locates.expect (by decide)).bind fun _ => (Locates.expect (by decide)).bind fun _ => .tell rfl

theorem marks_locates : Locates [] marks fun _ => [] :=
  .quiet marks_inStep marks_yields

theorem importSheet_locates : Locates [] importSheet fun _ => [] := by
  refine (Locates.accept (by decide)).option (fun _ => ?_) (.pure rfl)
  refine (Locates.expect (by decide)).bind fun _ => ?_
  refine (Locates.quiet importMedia_inStep importMedia_yields).bind fun l => ?_
  exact (Locates.expect (by decide)).bind fun _ => Locates.bind (.tell rfl) fun _ =>
    marks_locates.bind fun _ => .pure rfl

theorem statement_locates : Locates [] statement fun _ => [] := by
  refine (Locates.quiet .next .next).bind fun t => ?_
  split
  · exact .pure rfl
  · exact (Locates.accept (by decide)).bind fun _ => .pure rfl
  · exact (Locates.accept (by decide)).bind fun _ => .pure rfl
  · exact media_locates.bind fun _ => .pure rfl
  · exact page_locates.bind fun _ => .pure rfl
  · exact ruleset_locates.option (fun _ => .pure rfl) .reject

theorem stylesheet_locates : Locates [] stylesheet fun _ => [] :=
  Locates.bind (.tell rfl) fun _ => charset_locates.bind fun _ => marks_locates.bind fun _ =>
    (Locates.many importSheet_locates).bind fun _ => (Locates.many statement_locates).bind fun _ => .tell rfl

end Grammar

/-- The tokens of a text stand behind one another. -/
theorem tokens_ordered (css : Text) :
    (tokens css).dropLast.Pairwise (·.position.Before ·.position) := by
  have hposition : ∀ {l : Placed} {k : Token}, l.token? = some k → k.position = l.position := by
    intro l k hk
    obtain ⟨_, -, rfl⟩ := Option.map_eq_some_iff.mp hk
    rfl
  rw [tokens, List.dropLast_concat, List.pairwise_filterMap]
  refine (placed_ordered css).imp fun h k hk j hj => ?_
  rwa [hposition hk, hposition hj]

theorem parseFrom_located {x : List Token} (hx : Terminated x) :
    Located (parseFrom (.ofTokens x)).terms x.dropLast := by
  obtain ⟨q, t, rfl, ht⟩ := hx.exists_append
  obtain ⟨hahead, hend⟩ := List.append_inj' hx.before.input rfl
  have hlast : (Cursor.ofTokens (q ++ [t])).last.isEof := by
    rw [List.singleton_inj.mp hend]
    exact decide_eq_true ht
  obtain ⟨-, w, hw, hread⟩ := Grammar.stylesheet_locates _ hlast
  have hterms : Outcome.terms (fun _ => []) (Grammar.stylesheet (.ofTokens (q ++ [t]))) =
      (parseFrom (.ofTokens (q ++ [t]))).terms := by
    unfold Outcome.terms
    split <;> exact List.append_nil _
  obtain ⟨ks, hks, hstarts⟩ := hread [] (.nil [])
  rw [hterms] at hstarts
  refine ⟨ks, hks.trans ?_, hstarts⟩
  rw [List.dropLast_concat, ← hahead, hw]
  exact List.sublist_append_left w _

theorem parse_located (css : Text) : Located (parse css).terms (tokens css).dropLast :=
  parseFrom_located (tokens_terminated css)

/-- The terms that a parse reports, be it complete or not, stand each at a token of its own, and one
behind another in the text. -/
theorem terms_stand (css : Text) :
    (∃ ks, ks.Sublist (tokens css) ∧ List.Forall₂ Term.StandsAt (parse css).terms ks) ∧
    (parse css).terms.Pairwise (·.position.Before ·.position) := by
  have hlocated := parse_located css
  obtain ⟨ks, hks, hstands⟩ := hlocated.stand fun k hk => lexed_tokens css k (List.mem_of_mem_dropLast hk)
  exact ⟨⟨ks, hks.trans (List.dropLast_sublist _), hstands⟩, hlocated.pairwise (tokens_ordered css)⟩

-- A sign that is dropped gives no place, and terms inside a function have none.
example : (parse "a\x7bb:-1 f(2)+\n#fff;c:d -\x7d".toList).terms.map Term.position =
    [⟨1, 5⟩, ⟨1, 8⟩, ⟨1, 12⟩, ⟨2, 8⟩] := by cbv

end Stylesheet
