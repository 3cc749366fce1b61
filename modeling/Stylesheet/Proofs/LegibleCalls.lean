import Stylesheet.Proofs.LegibleValues

/-! Which calls are legible: their arguments are written without the blanks between them, so that
they must stand apart by themselves. -/
namespace Stylesheet
open Computability Lexical Extent

variable {n s w y : Text} {d : Char}

/-! The opening of a call. -/

theorem nameLength_opening (hn : n ∈ ident) (y : Text) : nameLength (n ++ '(' :: y) = n.length := by
  have hself : nameLength (n ++ ['(']) = n.length :=
    nameLength_concat (by decide) (by decide) (by decide) (nameLength_of_ident hn)
  rw [List.append_cons, nameLength_append_of_drop, hself]
  rw [hself, List.drop_left]
  decide

/-- What opens no address opens a call, whatever follows. -/
theorem measured_opening (hn : n ∈ ident) (hurl : foldCase n ≠ "url".toList) (y : Text) :
    Measured .function (n ++ ['(']) y := by
  have hlen := nameLength_opening hn y
  have hne : identLength (n ++ '(' :: y) ≠ 0 := by
    have := identLength_append hn ('(' :: y)
    omega
  obtain ⟨c, v, rfl, -⟩ := head_of_mem_ident hn
  have hword := ofWord_function hlen (by rw [List.drop_left]; rfl) (by rwa [List.take_left])
  refine .of_length (t := v ++ ['(']) ?_
  rw [List.append_assoc, List.length_append]
  exact (measure_word hne).trans hword

/-- A call is read from its text if its arguments are, with its sign if it has one. -/
theorem call_spells {sign : Option Sign} (hn : n ∈ ident) (hurl : foldCase n ≠ "url".toList)
    (hw : Spells .arguments w (')' :: y)) : Spells (.term .function)
      ((sign.map Sign.symbol).toList ++ (n ++ ['('] ++ w ++ [')'])) y := by
  have hbare : ∀ {n}, n ∈ ident → foldCase n ≠ "url".toList →
      Spells (.bare .function) (n ++ ['('] ++ w ++ [')']) y := by
    intro n hn hurl
    rw [List.append_assoc]
    exact .call (measured_opening hn hurl _) hw
  by_cases hminus : sign = some .minus
  · subst hminus
    obtain hlong | halone := hyphen_ident hn
    · exact .unsigned (hbare hlong fun h => absurd (List.cons.inj h).1 (by decide))
    · refine .of_sign (hbare hn hurl) fun _ => ?_
      rw [List.append_assoc, List.append_assoc, List.append_assoc]
      exact halone _
  · exact .of_sign (hbare hn hurl) fun h => absurd h hminus

/-! Arguments with operators between them. -/

namespace Value

/-- An operator stands between any two terms. -/
def Operated (v : Value) : Prop := v.IsChain fun p q => p.term? = none ∨ q.term? = none

/-- What is written behind a term in a call: another operator, or the end of the call. -/
theorem behind_argument {t : Term} {v : Value} (h : Operated (.term t :: v)) (y : Text) :
    spaced false v = false ∧
      ∃ d x, v.flatMap Part.text ++ ')' :: y = d :: x ∧ d ∈ delimiters ∧ d ≠ ' ' := by
  match v, h with
  | [], _ => exact ⟨rfl, ')', y, rfl, by decide, by decide⟩
  | .term u :: v, h => exact absurd (List.isChain_cons_cons.mp h).1 (by simp [Part.term?])
  | .operator .slash :: v, _ => exact ⟨rfl, '/', _, rfl, by decide, by decide⟩
  | .operator .comma :: v, _ => exact ⟨rfl, ',', _, rfl, by decide, by decide⟩

end Value

open Value in
theorem argument_spells {t : Term} {v : Value} (ht : t.Of Token.Lexed)
    (hl : Value.Legible false (.term t :: v)) (ho : Operated (.term t :: v)) (y : Text) :
    Spells (.term t.kind) t.text (v.flatMap Part.text ++ ')' :: y) := by
  obtain ⟨hspaced, d, x, heq, hd, hne⟩ := behind_argument ho y
  exact heq ▸ ht.spells hl.1 hd (fun h => absurd h hne) x

open Value in
theorem moreArguments_spells {v : Value} (hv : v ∈ more (Term.Of Token.Lexed)) {t : Term}
    (hl : Value.Legible false v) (ho : Operated (.term t :: v)) (y : Text) :
    Spells .more (v.flatMap Part.text) (')' :: y) := by
  refine more_induction (M := fun v => ∀ t, Value.Legible false v → Operated (.term t :: v) →
    Spells .more (v.flatMap Part.text) (')' :: y)) ?nil ?operator ?term ?operated hv t hl ho
  case nil => exact fun _ _ _ => .done
  case operator =>
    intro o t _ _
    obtain ⟨j, hj, ho⟩ := measured_operator o (y := ')' :: y) (by simp)
    exact .dangling hj ho
  case term =>
    intro u v _ _ t _ ho
    exact absurd (List.isChain_cons_cons.mp ho).1 (by simp [Part.term?])
  case operated =>
    intro o u v hu ih t hl ho
    have ho : Operated (.term u :: v) := ho.tail.tail
    have hs := argument_spells hu hl ho y
    obtain ⟨j, hj, hm⟩ := measured_operator o hs.head_ne
    show Spells .more (o.symbol :: (u.text ++ v.flatMap Part.text)) (')' :: y)
    exact .joined hj hm hs (ih u hl.2 ho)

open Value in
theorem arguments_spells {v : Value} (hv : v = [] ∨ v ∈ shape (Term.Of Token.Lexed))
    (hl : Value.Legible false v) (ho : Operated v) (y : Text) :
    Spells .arguments (v.flatMap Part.text) (')' :: y) := by
  obtain rfl | hv := hv
  · exact .empty
  · obtain ⟨_, ⟨t, ht, rfl⟩, w, hw, rfl⟩ := Language.mem_mul.mp hv
    exact .filled (argument_spells ht hl ho y) (moreArguments_spells hw hl.2 ho y)

/-- A call is legible if its arguments are, with an operator between any two of them, and if its
name opens no address. -/
theorem Term.legible_call (sign : Option Sign) {v : Value} (hn : n ∈ ident)
    (hurl : foldCase n ≠ "url".toList) (hv : v = [] ∨ v ∈ Value.shape (Term.Of Token.Lexed))
    (hl : v.Legible false) (ho : v.Operated) (p : Position) (spaced : Bool) :
    Term.Legible spaced
      (.ofSigned sign (n ++ ['('] ++ v.flatMap Value.Part.text ++ [')']) .function p) where
  string h := nomatch h
  name h := nomatch h
  address h := nomatch h
  call _ y := call_spells hn hurl (arguments_spells hv hl ho y)

end Stylesheet
