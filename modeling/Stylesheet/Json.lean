import Stylesheet.Text

/-! JSON values whose numbers are natural, and their compact text on one line. The members of an
object keep their order. -/
namespace Stylesheet

inductive Json where
  | null
  | bool (b : Bool)
  | num (n : Nat)
  | str (s : Text)
  | arr (xs : List Json)
  | obj (members : List (Text × Json))

namespace Json

/-- Two hexadecimal digits, in lower case. -/
def hexPair (n : Nat) : Text := [Nat.digitChar (n / 16), Nat.digitChar (n % 16)]

/-- A character as it stands inside a string: quotes, backslashes and controls are escaped. -/
def escape (c : Char) : Text :=
  match c with
  | '"' => ['\\', '"']
  | '\\' => ['\\', '\\']
  | '\x08' => ['\\', 'b']
  | '\x0c' => ['\\', 'f']
  | '\n' => ['\\', 'n']
  | '\r' => ['\\', 'r']
  | '\t' => ['\\', 't']
  | c => if c.toNat < 32 then "\\u00".toList ++ hexPair c.toNat else [c]

def quote (s : Text) : Text := '"' :: s.flatMap escape ++ ['"']

mutual

/-- The value on one line, without blanks. -/
def text : Json → Text
  | null => "null".toList
  | bool true => "true".toList
  | bool false => "false".toList
  | num n => decimal n
  | str s => quote s
  | arr xs => '[' :: textItems xs ++ [']']
  | obj ms => '{' :: textMembers ms ++ ['}']

def textItems : List Json → Text
  | [] => []
  | [x] => text x
  | x :: xs => text x ++ ',' :: textItems xs

def textMembers : List (Text × Json) → Text
  | [] => []
  | [(k, x)] => quote k ++ ':' :: text x
  | (k, x) :: ms => quote k ++ ':' :: text x ++ ',' :: textMembers ms

end

/-- Nothing becomes `null`. -/
def ofOption {α : Type} (f : α → Json) : Option α → Json
  | some a => f a
  | none => null

end Json
end Stylesheet
