import Stylesheet.Text

/-! Lists of media, never empty. -/
namespace Stylesheet

structure MediaList where
  first : Text
  rest : List Text
deriving DecidableEq

namespace MediaList

def ofList? : List Text → Option MediaList
  | [] => none
  | m :: ms => some ⟨m, ms⟩

def toList (l : MediaList) : List Text := l.first :: l.rest

def text (l : MediaList) : Text := ", ".toList.intercalate l.toList

end MediaList
end Stylesheet
