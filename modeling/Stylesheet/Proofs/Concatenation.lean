import Stylesheet.Proofs.Rounds

/-! A style sheet behind another one. Once a sheet has been read up to its end, what is put there
is read like the statements that the sheet could have gone on with. -/
namespace Stylesheet
open Production
variable {x y w r : List Token} {es : List Event}

namespace Grammar

def charsetBody : Production Unit := do
  let name ← expect [.string]
  let _ ← expect [.semicolon]
  fire (.charset name.content)

def importBody : Production Unit := do
  let target ← expect [.string, .uri]
  let l ← importMedia
  let _ ← expect [.semicolon]
  fire (.importSheet (importAddress target.text) l)

/-- A mark or an import, of which there can be any before the first block. -/
def heading : Production (Option Unit) :=
  orElse (openedBy [.cdo, .cdc] (pure ())) (openedBy [.importSym] importBody)

def statements : Production Unit := do
  loop statement
  fire .endStylesheet

/-- What comes behind the character set. -/
def headed : Production Unit := do
  loop heading
  statements

/-- A style sheet, but for the event of its start. -/
def sheet : Production Unit := do
  let _ ← openedBy [.charsetSym] charsetBody
  headed

theorem charset_enclosed : Enclosed (openedBy [.charsetSym] charsetBody) := by
  refine .openedBy (by decide) fun x hx => .behind (reads_expect [.string] (by decide) hx)
    fun _ hr _ => ?_
  exact (EnclosedAt.expect hr (by decide)).then fun _ => idle_fire _

theorem import_enclosed : Enclosed (openedBy [.importSym] importBody) := by
  refine .openedBy (by decide) fun x hx => .behind (reads_expect [.string, .uri] (by decide) hx)
    fun _ hr _ => .behind (importMedia_tracks.reads _ hr) fun _ hr _ => ?_
  exact (EnclosedAt.expect hr (by decide)).then fun _ => idle_fire _

theorem heading_enclosed : Enclosed heading := .orElse (.lone (by decide)) import_enclosed

theorem statement_takes : Enclosed statement := by
  intro x hx
  refine Reads.mono ((statement_enclosed hx).and (statement_reads hx) hx)
    (fun {o w r es} _ h => ?_) fun _ _ => trivial
  cases o with
  | none => exact ⟨h.2.1, h.2.2.1⟩
  | some a => exact h.1 rfl

/-! The sheet of the grammar is this one. -/

theorem charset_eq : charset = openedBy [.charsetSym] charsetBody >>= fun _ => pure () := by
  simp only [charset, charsetBody, openedBy, bind_assoc]
  congr 1
  funext o
  cases o <;> simp

theorem importSheet_eq : importSheet = openedBy [.importSym] importBody >>= fun o => match o with
    | some _ => marks >>= fun _ => pure (some ())
    | none => pure none := by
  simp only [importSheet, importBody, openedBy, bind_assoc]
  congr 1
  funext o
  cases o <;> simp

theorem openedBy_none {ks : List Kind} {p : Production Unit} {c : Cursor} (h : c.next.kind ∉ ks) :
    openedBy ks p c = ⟨[], c, .ok none⟩ := bind_ok (accept_none h) rfl

theorem mark_some {c : Cursor} (h : c.next.kind ∈ [Kind.cdo, .cdc]) :
    openedBy [.cdo, .cdc] (pure ()) c = ⟨[], c.advance, .ok (some ())⟩ := bind_ok (accept_some h) rfl

theorem heading_mark {c : Cursor} (h : c.next.kind ∈ [Kind.cdo, .cdc]) :
    heading c = ⟨[], c.advance, .ok (some ())⟩ := bind_ok (mark_some h) rfl

theorem heading_other {c : Cursor} (h : c.next.kind ∉ [Kind.cdo, .cdc]) :
    heading c = openedBy [.importSym] importBody c := bind_quiet (openedBy_none h)

/-- Marks and imports in turn are marks first, and then imports with the marks behind each. -/
theorem marks_imports_eq (hx : Terminated x) {c : Cursor} (hc : c.Before x) :
    (marks >>= fun _ => loop importSheet) c = loop heading c := by
  induction hl : x.length using Nat.strongRecOn generalizing x c with
  | ind n ih =>
    subst hl
    have hmarks : Advances (accept [.cdo, .cdc]) :=
      (Tracks.accept [.cdo, .cdc] (by decide)).advances (by simp [Syntax.tok])
    have hm : marks c = _ := loop_eq hmarks hx hc
    have hi := loop_eq importSheet_advances hx hc
    rw [loop_eq heading_enclosed.advances hx hc]
    obtain ⟨s, t, r, rfl, hs, ht⟩ := hx.split
    have hnext := hc.next_eq hs ht
    by_cases hk : c.next.kind ∈ [Kind.cdo, .cdc]
    · have hrest : Terminated (t :: r) := hx.drop (by simp)
      have he : t.kind ≠ .eof := fun he => absurd (he ▸ hnext ▸ hk) (by decide)
      rw [bind_congr_left (hm.trans (bind_quiet (accept_some hk))), bind_quiet (heading_mark hk)]
      exact ih r.length (by simp; omega) (hrest.tail he) (hc.advance hs ht hrest he) rfl
    · rw [bind_quiet (hm.trans (bind_quiet (accept_none hk))), hi,
        bind_congr_left (congrFun importSheet_eq c), bind_congr_left (heading_other hk), bind_assoc]
      refine bind_congr_right fun {es d o} hd => ?_
      cases o with
      | none => rfl
      | some a =>
        obtain ⟨w, q, hw, hq, hb, htakes⟩ := (import_enclosed _ hx).of_ok hx hc hd
        have hlt := import_enclosed.advances.length_lt hx hc hd hb
        simp only [bind_assoc, pure_bind]
        exact ih q.length hlt hq hb rfl

theorem stylesheet_eq (hx : Terminated x) {c : Cursor} (hc : c.Before x) :
    stylesheet c = (sheet c).after [.startStylesheet] := by
  have hsheet : (charset >>= fun _ => marks >>= fun _ => loop importSheet >>= fun _ => statements) c =
      sheet c := by
    rw [charset_eq, bind_assoc]
    refine bind_congr_right fun {es d o} hd => ?_
    obtain ⟨w, q, hw, hq, hb, -⟩ := (charset_enclosed x hx).of_ok hx hc hd
    simp only [pure_bind]
    rw [← bind_assoc]
    exact bind_congr_left (marks_imports_eq hq hb)
  rw [← hsheet]
  simp only [stylesheet, loop, statements, bind_assoc, pure_bind]
  rfl

/-! Where no character set and no import comes next, a sheet is read like its statements. -/

/-- No character set comes first. -/
def Unset (y : List Token) : Prop := ∀ t ∈ (y.filter (!·.isSpace)).head?, t.kind ≠ .charsetSym

/-- No import comes first or behind marks. -/
def Importless (y : List Token) : Prop :=
  ∀ t ∈ ((y.filter (!·.isSpace)).dropWhile (·.kind ∈ [Kind.cdo, .cdc])).head?, t.kind ≠ .importSym

theorem filter_split {s r : List Token} {t : Token} (hs : ∀ b ∈ s, b.isSpace)
    (ht : t.isSpace = false) : (s ++ t :: r).filter (!·.isSpace) = t :: r.filter (!·.isSpace) := by
  have hnil : s.filter (!·.isSpace) = [] := by simpa using hs
  rw [List.filter_append, hnil, List.nil_append, List.filter_cons_of_pos (by simp [ht])]

theorem headed_eq (hx : Terminated x) (hi : Importless x) {c : Cursor} (hc : c.Before x) :
    headed c = statements c := by
  induction hl : x.length using Nat.strongRecOn generalizing x c with
  | ind n ih =>
    subst hl
    have hh := loop_eq heading_enclosed.advances hx hc
    have hst := loop_eq statement_advances hx hc
    obtain ⟨s, t, r, rfl, hs, ht⟩ := hx.split
    have hnext := hc.next_eq hs ht
    rw [Importless, filter_split hs ht] at hi
    by_cases hk : c.next.kind ∈ [Kind.cdo, .cdc]
    · have hrest : Terminated (t :: r) := hx.drop (by simp)
      have he : t.kind ≠ .eof := fun he => absurd (he ▸ hnext ▸ hk) (by decide)
      have hh : headed c = headed c.advance :=
        bind_congr_left (hh.trans (bind_quiet (heading_mark hk)))
      have hst : statements c = statements c.advance :=
        bind_congr_left (hst.trans (bind_quiet (statement_mark hk)))
      rw [List.dropWhile_cons_of_pos (by simpa [hnext] using hk)] at hi
      rw [hh, hst]
      exact ih r.length (by simp; omega) (hrest.tail he) hi (hc.advance hs ht hrest he) rfl
    · rw [List.dropWhile_cons_of_neg (by simpa [hnext] using hk)] at hi
      have himport : c.next.kind ∉ [Kind.importSym] := by simpa [hnext] using hi
      have hnone : heading c = ⟨[], c, .ok none⟩ := (heading_other hk).trans (openedBy_none himport)
      exact bind_quiet (hh.trans (bind_quiet hnone))

theorem sheet_eq (hx : Terminated x) (hu : Unset x) {c : Cursor} (hc : c.Before x) :
    sheet c = headed c := by
  obtain ⟨s, t, r, rfl, hs, ht⟩ := hx.split
  rw [Unset, filter_split hs ht] at hu
  have hk : c.next.kind ∉ [Kind.charsetSym] := by simpa [hc.next_eq hs ht] using hu
  exact bind_quiet (openedBy_none hk)

/-! Behind what it has taken up to the end, a sheet goes on as its statements do. -/

theorem AtEnd.ne_nil (h : AtEnd r) : r ≠ [] := by
  obtain ⟨s, t, rfl, -⟩ := h
  simp

/-- What `p` takes before the end is closed or nothing, and in front of what `N` admits `p` goes on
behind it as the statements do. -/
def Resumes (N : List Token → Prop) (p : Production Unit) : Prop :=
  ∀ x, Terminated x → p.Reads (fun _ w r es => AtEnd r ∧ ∃ fs, es = fs ++ [.endStylesheet] ∧
    (w = [] ∧ fs = [] ∨ Closed w) ∧ ∀ y, Terminated y → N y → Leads y p w fs statements)
    (fun _ _ => True) x

theorem Resumes.behind {α : Type} {N N' : List Token → Prop} {p : Production α} {k : Production Unit}
    {T : α → List Token → List Token → List Event → Prop} (hk : Resumes N' k)
    (hp : ∀ x, Terminated x → p.Reads T (fun _ _ => True) x)
    (hT : ∀ {a w r es}, Terminated (w ++ r) → r ≠ [] → T a w r es → (w = [] ∧ es = [] ∨ Closed w) ∧
      ∀ y, Terminated y → N y → Leads y (p >>= fun _ => k) w es statements)
    (hN : ∀ y, N y → N' y) : Resumes N (p >>= fun _ => k) := by
  intro x hx
  refine Reads.bind (hp x hx).keep (fun {a w r es} hw hr ht => ?_) fun _ => trivial
  refine Reads.mono (hk r hr) (fun {_ v q _} hq hS => ?_) fun _ _ => trivial
  obtain ⟨hclosed, hstart⟩ := hT (hw ▸ hx) hr.ne_nil ht.1
  subst hw hq
  obtain ⟨hend, fs, rfl, hv, hleads⟩ := hS
  refine ⟨hend, es ++ fs, by simp, ?_, fun y hy hn => ?_⟩
  · rcases hv with ⟨rfl, rfl⟩ | hv
    · simpa using hclosed
    · exact .inr (hv.append w)
  · rcases hv with ⟨rfl, rfl⟩ | hv
    · simpa using hstart y hy hn
    · have hterm : Terminated (w ++ (v ++ y)) := by
        rw [← List.append_assoc] at hx ⊢
        exact hx.exchange hend.ne_nil hy
      have hfirst : Leads (v ++ y) (p >>= fun _ => k) w es k := .of_ok (ht.2 _ hv.sameNext hterm)
      exact hfirst.trans (hleads y hy (hN y hn))

theorem statements_resume : Resumes (fun _ => True) statements := by
  intro x hx
  have hloop : (loop statement).Reads (fun _ _ r _ => AtEnd r) (fun _ _ => True) x :=
    .bind (T := fun _ _ r _ => AtEnd r) (Reads.mono (statements_reads hx) (fun _ h => h.2)
      fun _ _ => trivial) (fun _ hr h => .pure hr h) fun _ => trivial
  refine Reads.bind ((statement_takes.loop_reads hx).and hloop hx) (fun {_ w r es} hw hr h => ?_)
    fun _ => trivial
  subst hw
  refine .fire hr ⟨h.2, es, rfl, ?_, fun y hy _ => ?_⟩
  · simpa using h.1.closed
  · rw [List.append_nil]
    exact (h.1.leads statement_advances hy.ne_nil (hx.exchange hr.ne_nil hy)).bind

theorem headed_resumes : Resumes Importless headed := by
  refine statements_resume.behind (fun x hx => heading_enclosed.loop_reads hx)
    (fun {_ w r es} hx hr h => ⟨h.closed, fun y hy hn => ?_⟩) fun _ _ => trivial
  have hleads := h.leads heading_enclosed.advances hy.ne_nil (hx.exchange hr hy)
  exact (hleads.bind (f := fun _ => statements)).congr_right fun d hd => headed_eq hy hn hd

/-- What may be put behind a sheet: no character set and no import comes first. -/
structure Appendable (y : List Token) : Prop where
  unset : Unset y
  importless : Importless y

theorem sheet_resumes : Resumes Appendable sheet := by
  refine headed_resumes.behind charset_enclosed (fun {o w r es} hx hr h => ?_) fun y h => h.importless
  cases o with
  | none =>
    obtain ⟨rfl, rfl⟩ := h
    refine ⟨.inl ⟨rfl, rfl⟩, fun y hy hn c hc => ⟨c, hc, ?_⟩⟩
    exact (sheet_eq hy hn.unset hc).trans (headed_eq hy hn.importless hc)
  | some a =>
    refine ⟨.inr h.2, fun y hy hn => ?_⟩
    have hleads : Leads y sheet w es headed := .of_ok (h.1 y hy.ne_nil (hx.exchange hr hy))
    exact hleads.congr_right fun d hd => headed_eq hy hn.importless hd

end Grammar
open Grammar

theorem parseFrom_eq (hx : Terminated x) : parseFrom (.ofTokens x) =
    ⟨.startStylesheet :: (sheet (.ofTokens x)).events, match (sheet (.ofTokens x)).result with
      | .ok () => none
      | .error e => some e⟩ := by
  rw [parseFrom, stylesheet_eq hx hx.before]
  rfl

/-- The tokens of a sheet that parses, up to its end, in front of those of another one. -/
theorem parseFrom_append {x : List Token} (hx : Terminated x)
    (h : (parseFrom (.ofTokens x)).error = none) :
    ∃ w r es, x = w ++ r ∧ AtEnd r ∧ (w = [] ∨ Closed w) ∧
      (parseFrom (.ofTokens x)).events = .startStylesheet :: es ++ [.endStylesheet] ∧
      ∀ y, Terminated y → Appendable y → ∃ fs,
        (parseFrom (.ofTokens y)).events = .startStylesheet :: fs ∧ parseFrom (.ofTokens (w ++ y)) =
          ⟨.startStylesheet :: es ++ fs, (parseFrom (.ofTokens y)).error⟩ := by
  cases sheet_resumes x hx with
  | failure hw _ run _ =>
    subst hw
    obtain ⟨d, hd⟩ := run _ hx _ hx.before
    rw [parseFrom_eq hx, hd] at h
    simp at h
  | @success w r _ a hw hr run spec =>
    obtain ⟨hend, es, rfl, hclosed, hleads⟩ := spec
    subst hw
    obtain ⟨d, hd, -⟩ := run r hr.sameNext hx _ hx.before
    refine ⟨w, r, es, rfl, hend, hclosed.imp_left And.left, ?_, fun y hy hn => ?_⟩
    · rw [parseFrom_eq hx, hd]
      rfl
    have hwy := hx.exchange hr.ne_nil hy
    obtain ⟨d', hd', hrun⟩ := hleads y hy hn _ hwy.before
    have hy' : sheet (.ofTokens y) = statements (.ofTokens y) :=
      (sheet_eq hy hn.unset hy.before).trans (headed_eq hy hn.importless hy.before)
    obtain ⟨hevents, hresult⟩ := (statements_resume y hy).same hy hd' hy.before
    refine ⟨(statements (.ofTokens y)).events, ?_, ?_⟩
    · rw [parseFrom_eq hy, hy']
    · rw [parseFrom_eq hwy, parseFrom_eq hy, hrun, hy']
      simp [Outcome.after, hevents, hresult]

end Stylesheet
