import Stylesheet.Json
import Stylesheet.Proofs.LongestStrings

/-! A reader of compact JSON texts. What is written of a value is read as that value, and nothing in
it is a raw control character. -/
namespace Stylesheet.Json

/-- The value of a hexadecimal digit in lower case. -/
def digitValue (c : Char) : Nat := if c.isDigit then c.toNat - 48 else c.toNat - 87

/-- The character of a code of four hexadecimal digits. -/
def ofCode (a b c d : Char) : Char :=
  .ofNat (4096 * digitValue a + 256 * digitValue b + 16 * digitValue c + digitValue d)

/-- The character that a letter behind a backslash stands for. -/
def unescape? : Char → Option Char
  | '"' => some '"'
  | '\\' => some '\\'
  | 'b' => some '\x08'
  | 'f' => some '\x0c'
  | 'n' => some '\n'
  | 'r' => some '\r'
  | 't' => some '\t'
  | _ => none

/-- The content of a string up to its closing quote, and what follows that. -/
def readString : Text → Option (Text × Text)
  | [] => none
  | '"' :: s => some ([], s)
  | '\\' :: 'u' :: a :: b :: c :: d :: s => do
    let (t, r) ← readString s
    return (ofCode a b c d :: t, r)
  | '\\' :: c :: s => do
    let d ← unescape? c
    let (t, r) ← readString s
    return (d :: t, r)
  | c :: s => do
    let (t, r) ← readString s
    return (c :: t, r)

/-- The digits at the front of a text as a number, and what follows them. -/
def readNumber (s : Text) : Json × Text :=
  (.num (Nat.ofDigitChars 10 (s.take (digitsLength s)) 0), s.drop (digitsLength s))

mutual

/-- A value at the front of a text and what follows it, where values and lists of them are no more
than `n` deep. -/
def readValue : Nat → Text → Option (Json × Text)
  | 0, _ => none
  | n + 1, s =>
    if s.head?.any Char.isDigit then some (readNumber s)
    else match s with
      | 'n' :: 'u' :: 'l' :: 'l' :: s => some (null, s)
      | 't' :: 'r' :: 'u' :: 'e' :: s => some (bool true, s)
      | 'f' :: 'a' :: 'l' :: 's' :: 'e' :: s => some (bool false, s)
      | '"' :: s => do
        let (t, r) ← readString s
        return (str t, r)
      | '[' :: ']' :: s => some (arr [], s)
      | '[' :: s => do
        let (xs, r) ← readItems n s
        return (arr xs, r)
      | '{' :: '}' :: s => some (obj [], s)
      | '{' :: s => do
        let (ms, r) ← readMembers n s
        return (obj ms, r)
      | _ => none

def readItems : Nat → Text → Option (List Json × Text)
  | 0, _ => none
  | n + 1, s => do
    let (x, r) ← readValue n s
    match r with
    | ']' :: r => return ([x], r)
    | ',' :: r => do
      let (xs, r) ← readItems n r
      return (x :: xs, r)
    | _ => none

def readMembers : Nat → Text → Option (List (Text × Json) × Text)
  | n + 1, '"' :: s => do
    let (k, r) ← readString s
    match r with
    | ':' :: r => do
      let (x, r) ← readValue n r
      match r with
      | '}' :: r => return ([(k, x)], r)
      | ',' :: r => do
        let (ms, r) ← readMembers n r
        return ((k, x) :: ms, r)
      | _ => none
    | _ => none
  | _, _ => none

end

/-- The value that all of a text is written of. -/
def ofText? (s : Text) : Option Json :=
  match readValue s.length s with
  | some (x, []) => some x
  | _ => none

variable {c : Char} {s r : Text} {n : Nat}

/-! Strings. -/

theorem digitValue_digitChar (h : n < 16) : digitValue (Nat.digitChar n) = n := by
  have hall : ∀ n < 16, digitValue (Nat.digitChar n) = n := by decide
  exact hall n h

theorem readString_char (hq : c ≠ '"') (hb : c ≠ '\\') (s : Text) :
    readString (c :: s) = (readString s).map fun p => (c :: p.1, p.2) := by
  rw [readString]
  · cases readString s <;> rfl
  all_goals simp_all

theorem ofCode_hexPair (h : c.toNat < 32) :
    ofCode '0' '0' (Nat.digitChar (c.toNat / 16)) (Nat.digitChar (c.toNat % 16)) = c := by
  have hzero : digitValue '0' = 0 := rfl
  rw [ofCode, hzero, digitValue_digitChar (by omega), digitValue_digitChar (by omega)]
  simp only [Nat.mul_zero, Nat.zero_add, Nat.div_add_mod, Char.ofNat_toNat]

theorem readString_control (h : c.toNat < 32) (s : Text) :
    readString ("\\u00".toList ++ hexPair c.toNat ++ s) =
      (readString s).map fun p => (c :: p.1, p.2) := by
  show readString ('\\' :: 'u' :: '0' :: '0' :: Nat.digitChar (c.toNat / 16) ::
    Nat.digitChar (c.toNat % 16) :: s) = _
  rw [readString, ofCode_hexPair h]
  cases readString s <;> rfl

theorem readString_escape (c : Char) (s : Text) :
    readString (escape c ++ s) = (readString s).map fun p => (c :: p.1, p.2) := by
  unfold escape
  split
  case h_8 hq hb _ _ _ _ _ =>
    split
    next h => exact readString_control h s
    · exact readString_char hq hb s
  all_goals
    show readString (_ :: _ :: s) = _
    rw [readString]
    · cases readString s <;> rfl
    all_goals simp

theorem readString_quote (s r : Text) : readString (s.flatMap escape ++ '"' :: r) = some (s, r) := by
  induction s with
  | nil => rfl
  | cons c s ih => rw [List.flatMap_cons, List.append_assoc, readString_escape, ih, Option.map_some]

/-! Numbers. -/

/-- No number goes on with the front of `r`. -/
def Stops (r : Text) : Prop := ∀ c ∈ r.head?, c.isDigit = false

theorem stops_nil : Stops [] := by simp [Stops]

theorem stops_cons (hc : c.isDigit = false) (r : Text) : Stops (c :: r) := by simpa [Stops] using hc

theorem isDigit_of_mem_decimal {d : Char} (h : d ∈ decimal n) : d.isDigit :=
  Nat.isDigit_of_mem_toDigits (by decide) (by decide) h

theorem readNumber_decimal (n : Nat) (hr : Stops r) : readNumber (decimal n ++ r) = (num n, r) := by
  have hlen : digitsLength (decimal n ++ r) = (decimal n).length :=
    congrArg List.length (takeWhile_eq (fun _ => isDigit_of_mem_decimal) hr)
  rw [readNumber, hlen, List.take_left, List.drop_left, decimal, Nat.ofDigitChars_ten_toDigits]

/-! Values. -/

theorem readValue_decimal (m : Nat) (hr : Stops r) : readValue (n + 1) (decimal m ++ r) = some (num m, r) := by
  have hdigit : (decimal m ++ r).head?.any Char.isDigit := by
    obtain ⟨d, ds, hd⟩ := List.exists_cons_of_ne_nil (Nat.toDigits_ne_nil (n := m) (b := 10))
    have := isDigit_of_mem_decimal (n := m) (d := d) (by simp [decimal, hd])
    simpa [decimal, hd] using this
  rw [readValue.eq_def]
  simp only [hdigit, if_true, readNumber_decimal m hr]

theorem quote_append (s r : Text) : quote s ++ r = '"' :: (s.flatMap escape ++ '"' :: r) := by
  rw [quote, List.append_assoc]
  rfl

theorem readValue_quote (s r : Text) : readValue (n + 1) (quote s ++ r) = some (str s, r) := by
  rw [quote_append, readValue, if_neg (by simp), readString_quote]
  rfl

/-- No value starts like the end of a list. -/
theorem head_text (x : Json) : ∃ c s, x.text = c :: s ∧ c ≠ ']' := by
  cases x with
  | null => exact ⟨'n', _, rfl, by decide⟩
  | bool b => cases b <;> exact ⟨_, _, rfl, by decide⟩
  | num n =>
    obtain ⟨d, ds, hd⟩ := List.exists_cons_of_ne_nil (Nat.toDigits_ne_nil (n := n) (b := 10))
    refine ⟨d, ds, hd, ?_⟩
    rintro rfl
    exact absurd (isDigit_of_mem_decimal (n := n) (d := ']') (by simp [decimal, hd])) (by decide)
  | str s => exact ⟨'"', _, rfl, by decide⟩
  | arr xs => exact ⟨'[', _, rfl, by decide⟩
  | obj ms => exact ⟨'{', _, rfl, by decide⟩

theorem textItems_cons (x y : Json) (xs : List Json) :
    textItems (x :: y :: xs) = x.text ++ ',' :: textItems (y :: xs) := by
  rw [textItems]
  simp

theorem textMembers_cons (k : Text) (x : Json) (m : Text × Json) (ms : List (Text × Json)) :
    textMembers ((k, x) :: m :: ms) = quote k ++ ':' :: x.text ++ ',' :: textMembers (m :: ms) := by
  rw [textMembers]
  simp

theorem head_textItems (x : Json) (xs : List Json) : ∃ c s, textItems (x :: xs) = c :: s ∧ c ≠ ']' := by
  obtain ⟨c, s, hx, hc⟩ := head_text x
  cases xs with
  | nil => exact ⟨c, s, by rw [textItems, hx], hc⟩
  | cons y xs => exact ⟨c, _, by rw [textItems_cons, hx, List.cons_append], hc⟩

theorem readValue_arr {x : Json} {xs : List Json} (h : readItems n (textItems (x :: xs) ++ ']' :: r) = some (x :: xs, r)) :
    readValue (n + 1) ((arr (x :: xs)).text ++ r) = some (arr (x :: xs), r) := by
  obtain ⟨c, s, hs, hc⟩ := head_textItems x xs
  rw [hs] at h
  rw [text, hs, List.append_assoc, List.singleton_append, List.cons_append, readValue, if_neg (by simp)]
  · rw [h]
    rfl
  · simpa using hc

theorem head_textMembers (m : Text × Json) (ms : List (Text × Json)) :
    ∃ s, textMembers (m :: ms) = '"' :: s := by
  obtain ⟨k, x⟩ := m
  cases ms with
  | nil => exact ⟨_, by rw [textMembers, quote_append]⟩
  | cons m ms => exact ⟨_, by rw [textMembers_cons, List.append_assoc, quote_append]⟩

theorem readValue_obj {m : Text × Json} {ms : List (Text × Json)}
    (h : readMembers n (textMembers (m :: ms) ++ '}' :: r) = some (m :: ms, r)) :
    readValue (n + 1) ((obj (m :: ms)).text ++ r) = some (obj (m :: ms), r) := by
  obtain ⟨s, hs⟩ := head_textMembers m ms
  rw [hs, List.cons_append] at h
  rw [text, hs, List.append_assoc, List.singleton_append, List.cons_append, List.cons_append, readValue,
    if_neg (by simp)]
  · rw [h]
    rfl
  · simp

/-- What is written of a value is read as it, by as many steps as there are characters. -/
theorem read_text (n : Nat) :
    (∀ x r, x.text.length ≤ n → Stops r → readValue n (x.text ++ r) = some (x, r)) ∧
    (∀ x xs r, (textItems (x :: xs)).length < n →
      readItems n (textItems (x :: xs) ++ ']' :: r) = some (x :: xs, r)) ∧
    ∀ m ms r, (textMembers (m :: ms)).length < n →
      readMembers n (textMembers (m :: ms) ++ '}' :: r) = some (m :: ms, r) := by
  induction n with
  | zero =>
    refine ⟨fun x r hn _ => ?_, fun _ _ _ hn => absurd hn (Nat.not_lt_zero _), fun _ _ _ hn => absurd hn (Nat.not_lt_zero _)⟩
    obtain ⟨c, s, hx, -⟩ := head_text x
    simp [hx] at hn
  | succ n ih =>
    obtain ⟨hvalue, hitems, hmembers⟩ := ih
    refine ⟨fun x r hn hr => ?_, fun x xs r hn => ?_, fun m ms r hn => ?_⟩
    · cases x with
      | null => rfl
      | bool b => cases b <;> rfl
      | num m => exact readValue_decimal m hr
      | str s => exact readValue_quote s r
      | arr xs =>
        cases xs with
        | nil => rfl
        | cons x xs =>
          simp only [text, List.length_append, List.length_cons, List.length_nil] at hn
          exact readValue_arr (hitems x xs r (by omega))
      | obj ms =>
        cases ms with
        | nil => rfl
        | cons m ms =>
          simp only [text, List.length_append, List.length_cons, List.length_nil] at hn
          exact readValue_obj (hmembers m ms r (by omega))
    · cases xs with
      | nil =>
        have h := hvalue x (']' :: r) (by rw [textItems] at hn; omega) (stops_cons rfl r)
        simp [textItems, readItems, h]
      | cons y xs =>
        rw [textItems_cons, List.length_append, List.length_cons] at hn
        have h := hvalue x (',' :: (textItems (y :: xs) ++ ']' :: r)) (by omega) (stops_cons rfl _)
        have hrest := hitems y xs r (by omega)
        simp [textItems_cons, readItems, h, hrest]
    · obtain ⟨k, x⟩ := m
      cases ms with
      | nil =>
        rw [textMembers, List.length_append, List.length_cons] at hn
        have h := hvalue x ('}' :: r) (by omega) (stops_cons rfl r)
        rw [textMembers, List.append_assoc, quote_append, readMembers, readString_quote]
        simp [h]
      | cons m ms =>
        rw [textMembers_cons] at hn
        simp only [List.length_append, List.length_cons] at hn
        have h := hvalue x (',' :: (textMembers (m :: ms) ++ '}' :: r)) (by omega) (stops_cons rfl _)
        have hrest := hmembers m ms r (by omega)
        rw [textMembers_cons, List.append_assoc, List.append_assoc, quote_append, readMembers, readString_quote]
        simp [h, hrest]

theorem ofText?_text (x : Json) : ofText? x.text = some x := by
  have h := (read_text x.text.length).1 x [] le_rfl stops_nil
  rw [List.append_nil] at h
  rw [ofText?, h]

/-! Controls. -/

/-- A text without raw control characters. -/
def Uncontrolled (s : Text) : Prop := ∀ c ∈ s, 32 ≤ c.toNat

instance (s : Text) : Decidable (Uncontrolled s) :=
  decidable_of_iff (s.all fun c => 32 ≤ c.toNat) (by simp [Uncontrolled])

theorem uncontrolled_nil : Uncontrolled [] := List.forall_mem_nil _

theorem Uncontrolled.append {t : Text} (hs : Uncontrolled s) (ht : Uncontrolled t) :
    Uncontrolled (s ++ t) :=
  List.forall_mem_append.mpr ⟨hs, ht⟩

theorem Uncontrolled.cons (hc : 32 ≤ c.toNat) (hs : Uncontrolled s) : Uncontrolled (c :: s) :=
  List.forall_mem_cons.mpr ⟨hc, hs⟩

theorem uncontrolled_decimal (n : Nat) : Uncontrolled (decimal n) := by
  intro c hc
  have := (isDigit_iff c).mp (isDigit_of_mem_decimal hc)
  omega

theorem uncontrolled_hexPair (h : n < 32) : Uncontrolled (hexPair n) := by
  have hall : ∀ n < 16, 32 ≤ (Nat.digitChar n).toNat := by decide
  exact .cons (hall _ (by omega)) (.cons (hall _ (by omega)) uncontrolled_nil)

theorem uncontrolled_escape (c : Char) : Uncontrolled (escape c) := by
  unfold escape
  split
  case h_8 =>
    split
    next h => exact Uncontrolled.append (by decide) (uncontrolled_hexPair h)
    next h => exact .cons (Nat.not_lt.mp h) uncontrolled_nil
  all_goals decide

theorem uncontrolled_quote (s : Text) : Uncontrolled (quote s) := by
  have hs : Uncontrolled (s.flatMap escape) := by
    intro c hc
    obtain ⟨d, -, hd⟩ := List.mem_flatMap.mp hc
    exact uncontrolled_escape d c hd
  exact .append (.cons (by decide) hs) (by decide)

mutual

theorem uncontrolled_text : ∀ x : Json, Uncontrolled x.text
  | null => by decide
  | bool true => by decide
  | bool false => by decide
  | num n => uncontrolled_decimal n
  | str s => uncontrolled_quote s
  | arr xs => .append (.cons (by decide) (uncontrolled_textItems xs)) (by decide)
  | obj ms => .append (.cons (by decide) (uncontrolled_textMembers ms)) (by decide)

theorem uncontrolled_textItems : ∀ xs : List Json, Uncontrolled (textItems xs)
  | [] => uncontrolled_nil
  | [x] => uncontrolled_text x
  | x :: y :: xs => by
    rw [textItems_cons]
    exact (uncontrolled_text x).append (.cons (by decide) (uncontrolled_textItems (y :: xs)))

theorem uncontrolled_textMembers : ∀ ms : List (Text × Json), Uncontrolled (textMembers ms)
  | [] => uncontrolled_nil
  | [(k, x)] => (uncontrolled_quote k).append (.cons (by decide) (uncontrolled_text x))
  | (k, x) :: m :: ms => by
    rw [textMembers_cons]
    exact ((uncontrolled_quote k).append (.cons (by decide) (uncontrolled_text x))).append
      (.cons (by decide) (uncontrolled_textMembers (m :: ms)))

end

end Stylesheet.Json
