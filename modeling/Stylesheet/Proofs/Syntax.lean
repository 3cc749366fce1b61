import Stylesheet.Grammar.Values
import Stylesheet.Proofs.Languages

/-! The grammar of style sheets, as languages of tokens. Blanks may stand before every token and
mean nothing, but for those inside a selector. -/
namespace Stylesheet.Syntax
open Computability

/-- One token of the kinds `ks`, with nothing before it. -/
def here (ks : List Kind) : Language Token := {w | ∃ t : Token, t.kind ∈ ks ∧ w = [t]}

@[simp] theorem nil_notMem_here (ks : List Kind) : [] ∉ here ks := by
  rintro ⟨t, _, h⟩
  exact List.cons_ne_nil t [] h.symm

def blanks : Language Token := (here [.space])∗

/-- One token of the kinds `ks`, blanks before it ignored. -/
def tok (ks : List Kind) : Language Token := blanks * here ks

def sign : Language Token := tok [.minus, .plus]

def operator : Language Token := tok [.slash, .comma]

/-- The kinds of tokens that are terms by themselves. -/
def valueKinds : List Kind :=
  [.number, .percentage, .length, .ems, .exs, .angle, .time, .freq, .string, .ident, .uri]

/-- A hash token with exactly three or six hexadecimal digits. -/
def hereColor : Language Token :=
  {w | ∃ t : Token, w = [t] ∧ t.kind = .hash ∧
    ((t.text.drop 1).length = 3 ∨ (t.text.drop 1).length = 6) ∧ ∀ c ∈ t.text.drop 1, isHexDigit c}

@[simp] theorem nil_notMem_hereColor : [] ∉ hereColor := by
  intro ⟨t, ht, _⟩
  exact List.cons_ne_nil t [] ht.symm

def color : Language Token := blanks * hereColor

/-- Terms with operators between them or not, and an operator at the end or not. -/
def chain (term : Language Token) : Language Token :=
  term * (opt operator * term)∗ * opt operator

/-- What a term may be when the terms inside its arguments are those of `term`. A call need not be
closed, and a sign at the end of its arguments is dropped. -/
def termOver (term : Language Token) : Language Token :=
  opt sign * (tok valueKinds + color +
    tok [.function] * opt (chain term) * opt sign * opt (tok [.rparen]))

/-- The least language of terms whose arguments are made of its own terms. -/
def term : Language Token := sInf {K | termOver K ≤ K}

theorem chain_mono {K L : Language Token} (h : K ≤ L) : chain K ≤ chain L :=
  mul_le_mul' (mul_le_mul' h (kstar_mono (mul_le_mul' le_rfl h))) le_rfl

theorem termOver_mono {K L : Language Token} (h : K ≤ L) : termOver K ≤ termOver L :=
  mul_le_mul' le_rfl (add_le_add le_rfl
    (mul_le_mul' (mul_le_mul' (mul_le_mul' le_rfl (opt_mono (chain_mono h))) le_rfl) le_rfl))

theorem term_le {K : Language Token} (h : termOver K ≤ K) : term ≤ K := sInf_le h

theorem termOver_term_le : termOver term ≤ term :=
  le_sInf fun _ h => (termOver_mono (term_le h)).trans h

theorem nil_notMem_term : [] ∉ term := by
  have hnil : ∀ K, [] ∉ termOver K := by
    intro K
    simp [termOver, tok, color]
  have hle : termOver {w | w ≠ []} ≤ {w | w ≠ []} := by
    intro w hw he
    subst he
    exact hnil _ hw
  exact fun h => mem_of_le (term_le hle) h rfl

/-- A property, a colon, a value whose last sign may be dropped, and `!important` or not. -/
def declaration : Language Token :=
  tok [.ident] * tok [.colon] * (chain term * opt sign) * opt (tok [.importantSym])

def block : Language Token := opt declaration * (tok [.semicolon] * opt declaration)∗

/-- A modifier starts right where the token before it ends. -/
def modifier : Language Token :=
  here [.hash] + here [.dot] * tok [.ident] +
  here [.lbracket] * tok [.ident] *
    opt (tok [.equals, .includes, .dashMatch] * tok [.ident, .string]) * tok [.rbracket] +
  here [.colon] * (tok [.ident] + tok [.function] * opt (tok [.ident]) * tok [.rparen])

def unit : Language Token := here [.ident, .star] * modifier∗ + modifier * modifier∗

/-- What leads from one unit to the next: a combinator, or at least one blank. -/
def link : Language Token :=
  blanks * here [.plus, .greater] * blanks * unit + here [.space] * blanks * unit

def selector : Language Token := unit * link∗ * blanks

def ruleset : Language Token :=
  blanks * selector * (tok [.comma] * blanks * selector)∗ * tok [.lbrace] * block * tok [.rbrace]

def mediaList : Language Token := tok [.ident] * (tok [.comma] * tok [.ident])∗

def media : Language Token :=
  tok [.mediaSym] * mediaList * tok [.lbrace] * ruleset∗ * tok [.rbrace]

def page : Language Token :=
  tok [.pageSym] * opt (tok [.colon] * tok [.ident]) * tok [.lbrace] * block * tok [.rbrace]

def mark : Language Token := tok [.cdo, .cdc]

def charset : Language Token := tok [.charsetSym] * tok [.string] * tok [.semicolon]

def importSheet : Language Token :=
  tok [.importSym] * tok [.string, .uri] * opt mediaList * tok [.semicolon]

def stylesheet : Language Token :=
  opt charset * mark∗ * (importSheet * mark∗)∗ * (ruleset + media + page + mark)∗ * tok [.eof]

end Stylesheet.Syntax
