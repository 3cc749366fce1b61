import Stylesheet.Parse
import Stylesheet.Proofs.Characters

/-! Readings of style sheets that differ in the case of letters or in where things stand. What is
made of such texts differs in the same way. -/
namespace Stylesheet

/-- What two readings may differ in. Letters may be exchanged for others of the same lower case. -/
structure Blur where
  letter : Char → Char
  place : Position → Position
  toLower_letter : ∀ c, (letter c).toLower = c.toLower

namespace Blur

/-- No difference at all. -/
def none : Blur := ⟨id, id, fun _ => rfl⟩

/-- All places are taken for one. -/
def places : Blur := ⟨id, fun _ => .start, fun _ => rfl⟩

end Blur

/-- Things that are blurred with the texts and places in them. -/
class Blurred (α : Type) where
  blur : Blur → α → α
  blur_none : ∀ a, blur .none a = a

export Blurred (blur blur_none)

section
variable {α β : Type} [Blurred α] [Blurred β]

instance : Blurred Char := ⟨Blur.letter, fun _ => rfl⟩
instance : Blurred Position := ⟨Blur.place, fun _ => rfl⟩
instance : Blurred Unit := ⟨fun _ a => a, fun _ => rfl⟩

instance : Blurred (List α) where
  blur v := List.map (blur v)
  blur_none as := (List.map_congr_left fun a _ => blur_none a).trans (List.map_id as)

instance : Blurred (Option α) where
  blur v := Option.map (blur v)
  blur_none _ := (Option.map_congr fun a _ => blur_none a).trans Option.map_id_apply

instance : Blurred (α × β) where
  blur v a := (blur v a.1, blur v a.2)
  blur_none a := by rw [blur_none, blur_none]

instance : Blurred Token where
  blur v t := ⟨t.kind, blur v t.text, blur v t.position⟩
  blur_none t := by rw [blur_none, blur_none]

instance : Blurred ParseError where
  blur v e := ⟨blur v e.text, blur v e.position⟩
  blur_none e := by rw [blur_none, blur_none]

instance : Blurred ElementName where
  blur v
    | .named s => .named (blur v s)
    | .universal => .universal
  blur_none e := by cases e <;> simp only [blur_none]

instance : Blurred Modifier where
  blur v
    | .id s => .id (blur v s)
    | .className s => .className (blur v s)
    | .attrib s => .attrib (blur v s)
    | .pseudo s => .pseudo (blur v s)
  blur_none m := by cases m <;> simp only [blur_none]

instance : Blurred SimpleSelector where
  blur v u := ⟨blur v u.element, blur v u.modifiers, by
    simpa [blur, Option.isSome_map] using u.nonempty⟩
  blur_none u := by simp only [blur_none]

instance : Blurred Combinator := ⟨fun _ c => c, fun _ => rfl⟩

instance : Blurred Selector where
  blur v s := ⟨blur v s.first, blur v s.rest⟩
  blur_none s := by rw [blur_none, blur_none]

instance : Blurred MediaList where
  blur v l := ⟨blur v l.first, blur v l.rest⟩
  blur_none l := by rw [blur_none, blur_none]

instance : Blurred TermKind := ⟨fun _ k => k, fun _ => rfl⟩
instance : Blurred Sign := ⟨fun _ s => s, fun _ => rfl⟩
instance : Blurred Operator := ⟨fun _ o => o, fun _ => rfl⟩

instance : Blurred Term where
  blur v t := ⟨blur v t.text, t.kind, blur v t.position⟩
  blur_none t := by rw [blur_none, blur_none]

instance : Blurred Value.Part where
  blur v
    | .term t => .term (blur v t)
    | .operator o => .operator o
  blur_none p := by cases p <;> simp only [blur_none]

instance : Blurred Event where
  blur v
    | .startStylesheet => .startStylesheet
    | .charset s => .charset (blur v s)
    | .importSheet s l => .importSheet (blur v s) (blur v l)
    | .startMedia l => .startMedia (blur v l)
    | .endMedia l => .endMedia (blur v l)
    | .startPage s => .startPage (blur v s)
    | .endPage s => .endPage (blur v s)
    | .startRule ss => .startRule (blur v ss)
    | .endRule ss => .endRule (blur v ss)
    | .property s w b => .property (blur v s) (blur v w) b
    | .endStylesheet => .endStylesheet
  blur_none e := by cases e <;> simp only [blur_none]

instance : Blurred Parse where
  blur v p := ⟨blur v p.events, blur v p.error⟩
  blur_none p := by rw [blur_none, blur_none]

end

/-! What does not distinguish capital letters from small ones does not see the difference. -/

theorem toNat_toLower (c : Char) :
    c.toLower.toNat = if 65 ≤ c.toNat ∧ c.toNat ≤ 90 then c.toNat + 32 else c.toNat := by
  have hval : c.val.toNat = c.toNat := rfl
  unfold Char.toLower
  split
  next h =>
    have h' : 65 ≤ c.toNat ∧ c.toNat ≤ 90 := h
    have hsmall : (32 : UInt32).toNat = 32 := rfl
    rw [if_pos h']
    show (c.val + 32).toNat = c.toNat + 32
    rw [UInt32.toNat_add]
    omega
  next h =>
    have h' : ¬ (65 ≤ c.toNat ∧ c.toNat ≤ 90) := h
    rw [if_neg h']

theorem eq_of_toLower_eq {c d : Char} (hd : d.isAlpha = false) (h : c.toLower = d.toLower) :
    c = d := by
  have hn := congrArg Char.toNat h
  rw [toNat_toLower, toNat_toLower] at hn
  have hd' := mt (isAlpha_iff d).mpr (by simp [hd])
  apply Char.toNat_inj.mp
  split at hn <;> split at hn <;> omega

variable (v : Blur)

theorem letter_eq_iff {c d : Char} (hd : d.isAlpha = false) : v.letter c = d ↔ c = d := by
  constructor
  · intro h
    exact eq_of_toLower_eq hd (by rw [← v.toLower_letter, h])
  · rintro rfl
    exact eq_of_toLower_eq hd (v.toLower_letter _)

theorem letter_eq {c : Char} (hc : c.isAlpha = false) : v.letter c = c := (letter_eq_iff v hc).mpr rfl

/-- A class of characters that is the same for capital and small letters. -/
def CaseBlind (p : Char → Bool) : Prop := ∀ c, p c.toLower = p c

theorem CaseBlind.letter {p : Char → Bool} (h : CaseBlind p) (c : Char) : p (v.letter c) = p c := by
  rw [← h (v.letter c), v.toLower_letter, h c]

theorem foldCase_blur (s : Text) : foldCase (blur v s) = foldCase s := by
  show (s.map v.letter).map Char.toLower = _
  rw [List.map_map]
  exact List.map_congr_left fun c _ => v.toLower_letter c

theorem caseBlind_isHexDigit : CaseBlind isHexDigit := by
  intro c
  have h := toNat_toLower c
  rw [Bool.eq_iff_iff, isHexDigit_iff, isHexDigit_iff, h]
  split <;> omega

theorem caseBlind_isQuote : CaseBlind isQuote := by
  intro c
  rw [Bool.eq_iff_iff]
  simp only [isQuote, Bool.or_eq_true, beq_iff_eq, ← Char.toNat_inj]
  rw [toNat_toLower]
  have h₁ : '"'.toNat = 34 := rfl
  have h₂ : '\''.toNat = 39 := rfl
  split <;> omega

theorem caseBlind_isWhiteSpace : CaseBlind isWhiteSpace := by
  intro c
  rw [Bool.eq_iff_iff]
  simp only [isWhiteSpace, Bool.or_eq_true, Bool.and_eq_true, decide_eq_true_eq]
  rw [toNat_toLower]
  split <;> omega

theorem isHexColor_blur (s : Text) : isHexColor (blur v s) = isHexColor s := by
  have hall : (s.map v.letter).all isHexDigit = s.all isHexDigit := by
    rw [List.all_map]
    exact congrArg (s.all ·) (funext fun c => caseBlind_isHexDigit.letter v c)
  show isHexColor (s.map v.letter) = _
  simp only [isHexColor, List.length_map, hall]

theorem getLast?_blur {c : Char} (hc : c.isAlpha = false) (s : Text) :
    (blur v s).getLast? = some c ↔ s.getLast? = some c := by
  show (s.map v.letter).getLast? = some c ↔ _
  rw [List.getLast?_map, Option.map_eq_some_iff]
  constructor
  · rintro ⟨d, hd, h⟩
    rw [hd, (letter_eq_iff v hc).mp h]
  · intro h
    exact ⟨c, h, letter_eq v hc⟩

theorem not_isAlpha_of_isQuote {c : Char} (h : isQuote c = true) : c.isAlpha = false := by
  simp only [isQuote, Bool.or_eq_true, beq_iff_eq] at h
  rcases h with rfl | rfl <;> rfl

theorem unquote_blur (s : Text) : unquote (blur v s) = blur v (unquote s) := by
  cases s with
  | nil => rfl
  | cons c s =>
    show unquote (v.letter c :: blur v s) = _
    cases hq : isQuote c with
    | false => simp [unquote, caseBlind_isQuote.letter v, hq, blur]
    | true =>
      have hc := not_isAlpha_of_isQuote hq
      by_cases hl : s.getLast? = some c
      · simp [unquote, letter_eq v hc, hq, hl, blur]
      · simp [unquote, letter_eq v hc, hq, hl, getLast?_blur v hc]

theorem dropWhile_blur {p : Char → Bool} (h : CaseBlind p) (s : Text) :
    (blur v s).dropWhile p = blur v (s.dropWhile p) := by
  show (s.map v.letter).dropWhile p = (s.dropWhile p).map v.letter
  rw [List.dropWhile_map]
  exact congrArg (fun q => (s.dropWhile q).map v.letter) (funext fun c => h.letter v c)

theorem reverse_blur (s : Text) : (blur v s).reverse = blur v s.reverse := List.map_reverse.symm

theorem trim_blur (s : Text) : trim (blur v s) = blur v (trim s) := by
  simp only [trim, reverse_blur, dropWhile_blur v caseBlind_isWhiteSpace]

theorem importAddress_blur (s : Text) : importAddress (blur v s) = blur v (importAddress s) := by
  have htake : (blur v s).take 4 = blur v (s.take 4) := List.map_take.symm
  have hdrop : (blur v s).drop 4 = blur v (s.drop 4) := List.map_drop.symm
  have hinit : ∀ t : Text, (blur v t).dropLast = blur v t.dropLast := fun t => List.map_dropLast.symm
  simp only [importAddress, htake, hdrop, foldCase_blur, getLast?_blur v (show ')'.isAlpha = false by rfl),
    hinit, trim_blur, unquote_blur]
  split
  · split <;> simp only [trim_blur, unquote_blur]
  · rfl

end Stylesheet
