import Stylesheet.Text

/-! How far the parts of a lexeme reach. Each function measures, in characters, the longest part
of its class at the front of a text; nothing is consumed, and zero means that none starts there. -/
namespace Stylesheet

def blanksLength (s : Text) : Nat := (s.takeWhile isBlank).length

/-- At most one blank, where the pair CR LF counts as one. -/
def oneBlankLength : Text → Nat
  | '\r' :: '\n' :: _ => 2
  | c :: _ => if isBlank c then 1 else 0
  | [] => 0

/-- A backslash with one to six hexadecimal digits and at most one blank, or with one other
character that is no newline. -/
def escapeLength : Text → Nat
  | '\\' :: c :: s =>
    if isHexDigit c then
      let n := (((c :: s).take 6).takeWhile isHexDigit).length
      1 + n + oneBlankLength ((c :: s).drop n)
    else if isNewline c then 0 else 2
  | _ => 0

/-- The longest run of name characters and escapes. -/
def nameLength : Text → Nat
  | [] => 0
  | c :: s =>
    if isNameChar c then 1 + nameLength s
    else if escapeLength (c :: s) = 0 then 0
    else escapeLength (c :: s) + nameLength ((c :: s).drop (escapeLength (c :: s)))
termination_by s => s.length
decreasing_by
  · simp
  · simp only [List.length_drop, List.length_cons]; omega

def startsName : Text → Bool
  | [] => false
  | c :: s => isNameStart c || escapeLength (c :: s) != 0

/-- A name that starts like an identifier, with at most one hyphen in front. -/
def identLength (s : Text) : Nat :=
  if startsName (if s.head? = some '-' then s.tail else s) then nameLength s else 0

def digitsLength (s : Text) : Nat := (s.takeWhile Char.isDigit).length

/-- A point and the digits after it, of which there is at least one. -/
def fractionLength : Text → Nat
  | '.' :: s => if digitsLength s = 0 then 0 else 1 + digitsLength s
  | _ => 0

def numberLength (s : Text) : Nat :=
  digitsLength s + fractionLength (s.drop (digitsLength s))

/-- How a string ends: with its quote, before a newline, or with the text. -/
inductive Ending where
  | closed
  | broken
  | unclosed
deriving DecidableEq

/-- A backslash inside a string together with what it keeps from being read: the newline of a
continued row, an escape, or nothing at the end of the text. -/
def stringEscapeLength : Text → Nat
  | '\\' :: '\r' :: '\n' :: _ => 3
  | '\\' :: c :: s => if isNewline c then 2 else escapeLength ('\\' :: c :: s)
  | _ => 1

theorem stringEscapeLength_pos (s : Text) : 0 < stringEscapeLength s := by
  unfold stringEscapeLength
  split
  · omega
  · split
    · omega
    · unfold escapeLength
      simp_all
      split <;> omega
  · omega

/-- What follows the opening quote of a string, up to its closing quote, which is included, or up
to the newline that breaks it, which is not. -/
def stringTail (q : Char) : Text → Nat × Ending
  | [] => (0, .unclosed)
  | c :: s =>
    if c = q then (1, .closed)
    else if isNewline c then (0, .broken)
    else if c = '\\' then
      let tail := stringTail q ((c :: s).drop (stringEscapeLength (c :: s)))
      (stringEscapeLength (c :: s) + tail.1, tail.2)
    else
      let tail := stringTail q s
      (1 + tail.1, tail.2)
termination_by s => s.length
decreasing_by
  · have := stringEscapeLength_pos (c :: s)
    simp only [List.length_drop, List.length_cons]; omega
  · simp

/-- What follows the opening `/*` of a comment, through the first `*/`, and whether there is one. -/
def commentTail : Text → Nat × Bool
  | [] => (0, false)
  | '*' :: '/' :: _ => (2, true)
  | _ :: s =>
    let tail := commentTail s
    (1 + tail.1, tail.2)

/-- What follows the opening quote of a quoted address, through the closing quote. A backslash
keeps one character from being read. -/
def quotedAddressTail? (q : Char) : Text → Option Nat
  | [] => none
  | ['\\'] => none
  | '\\' :: _ :: s => (quotedAddressTail? q s).map (2 + ·)
  | c :: s =>
    if c = q then some 1
    else if isNewline c then none
    else (quotedAddressTail? q s).map (1 + ·)

/-- An address without quotes: up to a blank, a quote or a parenthesis. -/
def bareAddressLength : Text → Nat
  | [] => 0
  | ['\\'] => 1
  | '\\' :: _ :: s => 2 + bareAddressLength s
  | c :: s =>
    if c = '(' || c = ')' || isQuote c || isBlank c then 0 else 1 + bareAddressLength s

def addressLength? : Text → Option Nat
  | [] => some 0
  | c :: s =>
    if isQuote c then (quotedAddressTail? c s).map (1 + ·) else some (bareAddressLength (c :: s))

/-- What follows `url(` through the closing parenthesis, if it is an address between blanks. -/
def uriTail? (s : Text) : Option Nat := do
  let before := blanksLength s
  let address ← addressLength? (s.drop before)
  let inner := before + address + blanksLength (s.drop (before + address))
  if (s.drop inner).head? = some ')' then some (inner + 1) else none

/-- The longest run of blanks and closed comments. -/
def spacingLength : Text → Nat
  | [] => 0
  | c :: s =>
    if isBlank c then 1 + spacingLength s
    else if c = '/' ∧ s.head? = some '*' then
      let tail := commentTail s.tail
      if tail.2 then 2 + tail.1 + spacingLength ((c :: s).drop (2 + tail.1)) else 0
    else 0
termination_by s => s.length
decreasing_by
  · simp
  · simp only [List.length_drop, List.length_cons]; omega

/-- What follows the `!` of `!important`: spacing, and the word where no name goes on after it. -/
def importantTail? (s : Text) : Option Nat :=
  let word := s.drop (spacingLength s)
  if foldCase (word.take 9) = "important".toList ∧ ¬ (word.drop 9).head?.any isNameChar then
    some (spacingLength s + 9)
  else none

end Stylesheet
