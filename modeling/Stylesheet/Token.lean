import Stylesheet.Position

/-! Tokens: a kind, the exact source text, and the place of its first character. -/
namespace Stylesheet

/-- The kinds of tokens the grammar tells apart. Numbers are classified by the family of their
unit, and the reserved at-keywords and `!important` are kinds of their own. -/
inductive Kind where
  | space
  | cdo
  | cdc
  | includes
  | dashMatch
  | string
  | invalid
  | ident
  | hash
  | importSym
  | pageSym
  | mediaSym
  | charsetSym
  | atKeyword
  | importantSym
  | ems
  | exs
  | length
  | angle
  | time
  | freq
  | dimension
  | percentage
  | number
  | uri
  | function
  | lbrace
  | rbrace
  | lbracket
  | rbracket
  | lparen
  | rparen
  | colon
  | semicolon
  | comma
  | dot
  | star
  | plus
  | greater
  | minus
  | slash
  | equals
  | delim
  | eof
deriving DecidableEq

namespace Kind

def name : Kind → Text
  | space => "S".toList
  | cdo => "Cdo".toList
  | cdc => "Cdc".toList
  | includes => "Includes".toList
  | dashMatch => "DashMatch".toList
  | string => "String".toList
  | invalid => "Invalid".toList
  | ident => "Ident".toList
  | hash => "Hash".toList
  | importSym => "ImportSym".toList
  | pageSym => "PageSym".toList
  | mediaSym => "MediaSym".toList
  | charsetSym => "CharsetSym".toList
  | atKeyword => "AtKeyword".toList
  | importantSym => "ImportantSym".toList
  | ems => "Ems".toList
  | exs => "Exs".toList
  | length => "Length".toList
  | angle => "Angle".toList
  | time => "Time".toList
  | freq => "Freq".toList
  | dimension => "Dimension".toList
  | percentage => "Percentage".toList
  | number => "Number".toList
  | uri => "Uri".toList
  | function => "Function".toList
  | lbrace => "LBrace".toList
  | rbrace => "RBrace".toList
  | lbracket => "LBracket".toList
  | rbracket => "RBracket".toList
  | lparen => "LParen".toList
  | rparen => "RParen".toList
  | colon => "Colon".toList
  | semicolon => "Semicolon".toList
  | comma => "Comma".toList
  | dot => "Dot".toList
  | star => "Star".toList
  | plus => "Plus".toList
  | greater => "Greater".toList
  | minus => "Minus".toList
  | slash => "Slash".toList
  | equals => "Equals".toList
  | delim => "Delim".toList
  | eof => "Eof".toList

def all : List Kind :=
  [space, cdo, cdc, includes, dashMatch, string, invalid, ident, hash, importSym, pageSym,
    mediaSym, charsetSym, atKeyword, importantSym, ems, exs, length, angle, time, freq,
    dimension, percentage, number, uri, function, lbrace, rbrace, lbracket, rbracket, lparen,
    rparen, colon, semicolon, comma, dot, star, plus, greater, minus, slash, equals, delim, eof]

/-- The kind of a given name. -/
def ofName? (s : Text) : Option Kind := all.find? (·.name = s)

end Kind

structure Token where
  kind : Kind
  text : Text
  position : Position
deriving DecidableEq

namespace Token

def isSpace (t : Token) : Bool := t.kind = .space

def isEof (t : Token) : Bool := t.kind = .eof

/-- The content of a string token. -/
def content (t : Token) : Text := unquote t.text

end Token
end Stylesheet
