import Stylesheet.Printable
import Stylesheet.Token

/-! Texts in double quotes, as messages and listings show them. -/
namespace Stylesheet

/-- A character between double quotes: five escapes of their own, and numbers in braces for what
cannot be shown. -/
def quotedChar (c : Char) : Text :=
  match c with
  | '\x00' => ['\\', '0']
  | '\t' => ['\\', 't']
  | '\n' => ['\\', 'n']
  | '\r' => ['\\', 'r']
  | '"' => ['\\', '"']
  | '\\' => ['\\', '\\']
  | c => if isPrintable c then [c] else ['\\', 'u', '{'] ++ Nat.toDigits 16 c.toNat ++ ['}']

def quoted (s : Text) : Text := '"' :: s.flatMap quotedChar ++ ['"']

/-- A token with its kind and place. -/
def Token.describe (t : Token) : Text :=
  '<' :: t.kind.name ++ ':' :: quoted t.text ++ " @".toList ++ decimal t.position.row ++
    ':' :: decimal t.position.column ++ ['>']

end Stylesheet
