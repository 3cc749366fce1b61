import Stylesheet.Proofs.Acceptance

/-! Kinds of tokens that no production of the grammar takes. A style sheet with such a token in it
does not parse. -/
namespace Stylesheet
open Computability

/-- The kinds that stand in no style sheet. -/
def strayKinds : List Kind := [.delim, .invalid, .atKeyword, .dimension, .lparen]

namespace Syntax
variable {t : Token} (h : t.kind ∈ strayKinds)
include h

theorem here_without {ks : List Kind} (hk : ∀ k ∈ strayKinds, k ∉ ks) : here ks ≤ without t := by
  rintro w ⟨u, hu, rfl⟩ hm
  exact hk _ h (List.mem_singleton.mp hm ▸ hu)

theorem blanks_without : blanks ≤ without t := kstar_le_without (here_without h (by decide))

theorem tok_without {ks : List Kind} (hk : ∀ k ∈ strayKinds, k ∉ ks) : tok ks ≤ without t :=
  mul_le_without (blanks_without h) (here_without h hk)

theorem hereColor_without : hereColor ≤ without t := by
  rintro w ⟨u, rfl, hu, -⟩ hm
  exact absurd (hu ▸ List.mem_singleton.mp hm ▸ h) (by decide)

theorem chain_without {K : Language Token} (hK : K ≤ without t) : chain K ≤ without t := by
  have hoperator : opt operator ≤ without t := opt_le_without (tok_without h (by decide))
  exact mul_le_without (mul_le_without hK (kstar_le_without (mul_le_without hoperator hK))) hoperator

theorem sign_without : opt sign ≤ without t := opt_le_without (tok_without h (by decide))

theorem term_without : term ≤ without t := by
  refine term_le (mul_le_without (sign_without h) (add_le (add_le (tok_without h (by decide)) ?_) ?_))
  · exact mul_le_without (blanks_without h) (hereColor_without h)
  · have hopening : tok [.function] ≤ without t := tok_without h (by decide)
    have hcall := mul_le_without hopening (opt_le_without (chain_without h le_rfl))
    exact mul_le_without (mul_le_without hcall (sign_without h))
      (opt_le_without (tok_without h (by decide)))

theorem declaration_without : declaration ≤ without t := by
  have hname : tok [.ident] * tok [.colon] ≤ without t :=
    mul_le_without (tok_without h (by decide)) (tok_without h (by decide))
  have hvalue := mul_le_without (chain_without h (term_without h)) (sign_without h)
  exact mul_le_without (mul_le_without hname hvalue) (opt_le_without (tok_without h (by decide)))

theorem block_without : block ≤ without t := by
  have hd := opt_le_without (declaration_without h)
  exact mul_le_without hd (kstar_le_without (mul_le_without (tok_without h (by decide)) hd))

theorem modifier_without : modifier ≤ without t := by
  have hname : tok [.ident] ≤ without t := tok_without h (by decide)
  refine add_le (add_le (add_le (here_without h (by decide)) ?_) ?_) ?_
  · exact mul_le_without (here_without h (by decide)) hname
  · have htest : tok [.equals, .includes, .dashMatch] * tok [.ident, .string] ≤ without t :=
      mul_le_without (tok_without h (by decide)) (tok_without h (by decide))
    exact mul_le_without (mul_le_without (mul_le_without (here_without h (by decide)) hname)
      (opt_le_without htest)) (tok_without h (by decide))
  · refine mul_le_without (here_without h (by decide)) (add_le hname ?_)
    exact mul_le_without (mul_le_without (tok_without h (by decide)) (opt_le_without hname))
      (tok_without h (by decide))

theorem selector_without : selector ≤ without t := by
  have hmodifiers := kstar_le_without (modifier_without h)
  have hunit : unit ≤ without t := add_le (mul_le_without (here_without h (by decide)) hmodifiers)
    (mul_le_without (modifier_without h) hmodifiers)
  have hlink : link ≤ without t := by
    refine add_le ?_ ?_
    · exact mul_le_without (mul_le_without (mul_le_without (blanks_without h)
        (here_without h (by decide))) (blanks_without h)) hunit
    · exact mul_le_without (mul_le_without (here_without h (by decide)) (blanks_without h)) hunit
  exact mul_le_without (mul_le_without hunit (kstar_le_without hlink)) (blanks_without h)

theorem ruleset_without : ruleset ≤ without t := by
  have hs := selector_without h
  have hb := blanks_without h
  have hmore : tok [.comma] * blanks * selector ≤ without t :=
    mul_le_without (mul_le_without (tok_without h (by decide)) hb) hs
  exact mul_le_without (mul_le_without (mul_le_without (mul_le_without (mul_le_without hb hs)
    (kstar_le_without hmore)) (tok_without h (by decide))) (block_without h)) (tok_without h (by decide))

theorem mediaList_without : mediaList ≤ without t := by
  have hname : tok [.ident] ≤ without t := tok_without h (by decide)
  exact mul_le_without hname (kstar_le_without (mul_le_without (tok_without h (by decide)) hname))

theorem media_without : media ≤ without t :=
  mul_le_without (mul_le_without (mul_le_without (mul_le_without (tok_without h (by decide))
    (mediaList_without h)) (tok_without h (by decide))) (kstar_le_without (ruleset_without h)))
    (tok_without h (by decide))

theorem page_without : page ≤ without t := by
  have hpseudo : opt (tok [.colon] * tok [.ident]) ≤ without t :=
    opt_le_without (mul_le_without (tok_without h (by decide)) (tok_without h (by decide)))
  exact mul_le_without (mul_le_without (mul_le_without (mul_le_without (tok_without h (by decide))
    hpseudo) (tok_without h (by decide))) (block_without h)) (tok_without h (by decide))

theorem stylesheet_without : stylesheet ≤ without t := by
  have hcharset : charset ≤ without t := mul_le_without (mul_le_without (tok_without h (by decide))
    (tok_without h (by decide))) (tok_without h (by decide))
  have hmark : mark ≤ without t := tok_without h (by decide)
  have himport : importSheet ≤ without t := mul_le_without (mul_le_without (mul_le_without
    (tok_without h (by decide)) (tok_without h (by decide))) (opt_le_without (mediaList_without h)))
    (tok_without h (by decide))
  have hblocks := add_le (add_le (add_le (ruleset_without h) (media_without h)) (page_without h)) hmark
  exact mul_le_without (mul_le_without (mul_le_without (mul_le_without (opt_le_without hcharset)
    (kstar_le_without hmark)) (kstar_le_without (mul_le_without himport (kstar_le_without hmark))))
    (kstar_le_without hblocks)) (tok_without h (by decide))

end Syntax

/-- No token of a text that parses is of a stray kind. -/
theorem kind_notMem_strayKinds {css : Text} (h : (parse css).error = none) {t : Token}
    (ht : t ∈ tokens css) : t.kind ∉ strayKinds :=
  fun hk => mem_of_le (Syntax.stylesheet_without hk)
    ((parseFrom_error_eq_none_iff (tokens_terminated css)).mp h) ht

end Stylesheet
