import Stylesheet.Proofs.AlikeValues
import Stylesheet.Proofs.Acceptance

/-! The productions of declarations, rules and whole style sheets cannot tell tokens apart that are
alike, and neither can a parse. -/
namespace Stylesheet
open Production

variable {v : Blur} {before : Bool}

namespace Grammar

theorem declaration_alike : ActAlike v before (behind false false) declaration declaration := by
  refine .option (.accept false (by decide) (by decide)) (fun t t' ht => ?_) (.pure rfl (by simp))
  refine .bind (.expect false (by decide) (by decide)) fun _ _ _ => .bind value_alike fun w w' hw => ?_
  have hempty : w.isEmpty = w'.isEmpty := by
    cases w <;> cases w' <;> simp_all [blur]
  rw [hempty]
  split
  · exact .reject
  · refine .bind (ActAlike.accept false (by decide) (by decide)) fun o o' ho => ?_
    have himportant : o.isSome = o'.isSome := by
      cases o <;> cases o' <;> simp_all [blur]
    refine .bind (.fire ?_) fun _ _ _ => .pure rfl (by simp)
    rw [himportant]
    exact congrArg₂ (fun s w => Event.property s w o'.isSome) (Token.text_eq ht) hw

theorem nextDeclaration_alike :
    ActAlike v before (behind before false) nextDeclaration nextDeclaration :=
  .option (.accept false (by decide) (by decide))
    (fun _ _ _ => .bind declaration_alike fun _ _ _ => .pure rfl (by simp)) (.pure rfl id)

theorem declarations_alike : ActAlike v before (fun _ => false) declarations declarations := by
  refine .bind declaration_alike fun o o' _ => .anywhere ?_
  refine .bind (.many (k := false) (nextDeclaration_tracks.advances (by simp [Syntax.tok])) ?_)
    fun _ _ _ => .pure rfl id
  exact nextDeclaration_alike

theorem nextSelector_alike : ActAlike v before (behind before false) nextSelector nextSelector := by
  refine .option (.accept false (by decide) (by decide)) (fun _ _ _ => ?_) (.pure rfl id)
  exact .option selector_alike (fun _ _ h => .pure (congrArg some h) id) .reject

theorem ruleBlock_alike {ss ss' : List Selector} (h : blur v ss = blur v ss') :
    ActAlike v before (fun _ => false) (ruleBlock ss) (ruleBlock ss') :=
  .bind (.expect false (by decide) (by decide)) fun _ _ _ =>
    .bind (.fire (congrArg Event.startRule h)) fun _ _ _ => .bind declarations_alike fun _ _ _ =>
      .bind (.expect false (by decide) (by decide)) fun _ _ _ => .fire (congrArg Event.endRule h)

theorem ruleset_alike : ActAlike v before (behind before false) ruleset ruleset := by
  refine .option selector_alike (fun s s' hs => ?_) (.pure rfl id)
  refine .bind (.many (nextSelector_tracks.advances (by simp [Syntax.tok])) nextSelector_alike)
    fun ss ss' hss => ?_
  exact .bind (ruleBlock_alike (congrArg₂ List.cons hs hss)) fun _ _ _ => .pure rfl id

theorem nextMedium_alike : ActAlike v before (behind before false) nextMedium nextMedium :=
  .option (.accept false (by decide) (by decide))
    (fun _ _ _ => .bind (.expect false (by decide) (by decide)) fun _ _ h =>
      .pure (congrArg some (Token.text_eq h)) id) (.pure rfl id)

theorem mediaList_alike : ActAlike v before (fun _ => false) mediaList mediaList := by
  refine .bind (.expect false (by decide) (by decide)) fun t t' ht => ?_
  refine .bind (.many (nextMedium_tracks.advances (by simp [Syntax.tok])) nextMedium_alike)
    fun ls ls' hls => .pure ?_ id
  exact congrArg₂ MediaList.mk (Token.text_eq ht) hls

theorem media_alike : ActAlike v before (fun _ => false) media media := by
  refine .bind (.expect false (by decide) (by decide)) fun _ _ _ => .bind mediaList_alike
    fun l l' hl => .bind (.expect false (by decide) (by decide)) fun _ _ _ => ?_
  refine .bind (.fire (congrArg Event.startMedia hl)) fun _ _ _ =>
    .bind (.many (ruleset_tracks.advances (by simp [Syntax.ruleset, Syntax.tok])) ruleset_alike)
      fun _ _ _ => .bind (.expect false (by decide) (by decide)) fun _ _ _ =>
        .fire (congrArg Event.endMedia hl)

theorem pagePseudo_alike : ActAlike v before (behind before false) pagePseudo pagePseudo :=
  .option (.accept false (by decide) (by decide))
    (fun _ _ _ => .bind (.expect false (by decide) (by decide)) fun _ _ h =>
      .pure (congrArg some (Token.text_eq h)) id) (.pure rfl id)

theorem page_alike : ActAlike v before (fun _ => false) page page := by
  refine .bind (.expect false (by decide) (by decide)) fun _ _ _ => .bind pagePseudo_alike
    fun o o' ho => .anywhere ?_
  refine .bind (.expect false (by decide) (by decide)) fun _ _ _ =>
    .bind (.fire (congrArg Event.startPage ho)) fun _ _ _ => .bind declarations_alike fun _ _ _ =>
      .bind (.expect false (by decide) (by decide)) fun _ _ _ => .fire (congrArg Event.endPage ho)

theorem charset_alike : ActAlike v false (fun _ => false) charset charset := by
  refine .option (.accept false (by decide) (by decide)) (fun _ _ _ => ?_) (.pure rfl id)
  refine .bind (.expect false (by decide) (by decide)) fun t t' ht =>
    .bind (.expect false (by decide) (by decide)) fun _ _ _ => .fire (congrArg Event.charset ?_)
  show blur v (unquote t.text) = blur v (unquote t'.text)
  rw [← unquote_blur, Token.text_eq ht, unquote_blur]

theorem marks_alike : ActAlike v false (fun _ => false) marks marks :=
  .bind (.many ((Tracks.accept [.cdo, .cdc] (by decide)).advances (by simp [Syntax.tok]))
    (.accept false (by decide) (by decide))) fun _ _ _ => .pure rfl id

theorem importMedia_alike : ActAlike v false (behind false false) importMedia importMedia := by
  refine .bind .next fun t t' ht => ?_
  rw [Token.kind_eq ht]
  split
  · exact .bind mediaList_alike fun _ _ h => .pure (congrArg some h) id
  · exact .pure rfl id

theorem importSheet_alike : ActAlike v false (behind false false) importSheet importSheet := by
  refine .option (.accept false (by decide) (by decide)) (fun _ _ _ => ?_) (.pure rfl id)
  refine .bind (.expect false (by decide) (by decide)) fun t t' ht => .bind importMedia_alike
    fun l l' hl => .anywhere ?_
  refine .bind (.expect false (by decide) (by decide)) fun _ _ _ => .bind (.fire ?_) fun _ _ _ =>
    .bind marks_alike fun _ _ _ => .pure rfl id
  refine congrArg₂ Event.importSheet ?_ hl
  rw [← importAddress_blur, Token.text_eq ht, importAddress_blur]

theorem statement_alike : ActAlike v false (behind false false) statement statement := by
  refine .bind .next fun t t' ht => ?_
  have hmark : ActAlike v false (behind false false)
      (accept [.cdo, .cdc] >>= fun _ => pure (some ())) (accept [.cdo, .cdc] >>= fun _ => pure (some ())) :=
    .option (.accept false (by decide) (by decide)) (fun _ _ _ => .pure rfl id) (.pure rfl id)
  rw [Token.kind_eq ht]
  split
  · exact .pure rfl id
  · exact hmark
  · exact hmark
  · exact .bind media_alike fun _ _ _ => .pure rfl id
  · exact .bind page_alike fun _ _ _ => .pure rfl id
  · exact .option ruleset_alike (fun _ _ _ => .pure rfl id) .reject

theorem importSheet_advances : Advances importSheet :=
  importSheet_tracks.advances (by simp [Syntax.importSheet, Syntax.tok])

theorem stylesheet_alike : ActAlike v false (fun _ => false) stylesheet stylesheet :=
  .bind (.fire rfl) fun _ _ _ => .bind charset_alike fun _ _ _ => .bind marks_alike fun _ _ _ =>
    .bind (.many importSheet_advances importSheet_alike) fun _ _ _ =>
      .bind (.many statement_advances statement_alike) fun _ _ _ => .fire rfl

end Grammar

/-- Tokens that are alike are parsed alike. -/
theorem parseFrom_alike {x y : List Token} (h : Parallel v false x y) :
    blur v (parseFrom (.ofTokens x)) = blur v (parseFrom (.ofTokens y)) := by
  have halike := Grammar.stylesheet_alike x y h _ _ h.left.before h.right.before
  rcases hx : Grammar.stylesheet (.ofTokens x) with ⟨es, c, r⟩
  rcases hy : Grammar.stylesheet (.ofTokens y) with ⟨es', d, r'⟩
  rw [hx, hy] at halike
  simp only [parseFrom, hx, hy]
  cases halike with
  | ok he => exact congrArg (fun es => Parse.mk es none) he
  | error he he' => exact congrArg₂ (fun es e => Parse.mk es (some e)) he he'

end Stylesheet
