import Stylesheet.Position

/-! Warnings about faults that do not end a parse. -/
namespace Stylesheet

structure Warning where
  component : Text
  message : Text
deriving DecidableEq

/-- The text under which a warning is recorded. -/
def Warning.text (w : Warning) : Text :=
  "[".toList ++ w.component ++ "] ".toList ++ w.message

/-- A lexical fault and the place where the faulty lexeme starts. -/
inductive Fault where
  | brokenString (p : Position)
  | unclosedString (p : Position)
  | unclosedComment (p : Position)
deriving DecidableEq

namespace Fault

def message : Fault → Text
  | brokenString p => "string broken by a newline at ".toList ++ p.describe
  | unclosedString p => "unterminated string at ".toList ++ p.describe
  | unclosedComment p => "unterminated comment at ".toList ++ p.describe

def warning (f : Fault) : Warning := ⟨"CSS".toList, f.message⟩

end Fault
end Stylesheet
