import HclLiteral.Text.Utf8

namespace HclLiteral

inductive Boundary
  | opening
  | closing
  | endOfText
  | other
deriving DecidableEq, Repr

inductive Tag
  | name
  | number
  | string
  | interpolationStart
  | interpolationEnd
  | plus
  | minus
  | times
  | divide
  | modulo
  | logicalNot
  | notEqual
  | equal
  | less
  | lessEqual
  | greater
  | greaterEqual
  | logicalAnd
  | logicalOr
  | question
  | colon
  | dot
  | comma
  | leftParen
  | rightParen
  | leftBracket
  | rightBracket
  | leftBrace
  | rightBrace
  | dollar
  | blank
  | invalid
  | openString
  | nul
  | endOfText
deriving DecidableEq, Repr

namespace Tag

/-- The codes come in groups: values from 0, interpolation delimiters from 16, operators from 32,
brackets from 80, blanks at 112 and errors from 240. -/
def code : Tag → Nat
  | name => 0
  | number => 1
  | string => 2
  | interpolationStart => 16
  | interpolationEnd => 17
  | plus => 32
  | minus => 33
  | times => 34
  | divide => 35
  | modulo => 36
  | logicalNot => 37
  | notEqual => 38
  | equal => 39
  | less => 40
  | lessEqual => 41
  | greater => 42
  | greaterEqual => 43
  | logicalAnd => 44
  | logicalOr => 45
  | question => 46
  | colon => 47
  | dot => 48
  | comma => 49
  | leftParen => 80
  | rightParen => 81
  | leftBracket => 82
  | rightBracket => 83
  | leftBrace => 84
  | rightBrace => 85
  | dollar => 86
  | blank => 112
  | invalid => 240
  | openString => 241
  | nul => 242
  | endOfText => 255

def boundary : Tag → Boundary
  | interpolationStart => .opening
  | interpolationEnd => .closing
  | endOfText => .endOfText
  | _ => .other

def spelling? : Tag → Option (List Char)
  | interpolationStart => some ['$', '{']
  | interpolationEnd => some ['}']
  | plus => some ['+']
  | minus => some ['-']
  | times => some ['*']
  | divide => some ['/']
  | modulo => some ['%']
  | logicalNot => some ['!']
  | notEqual => some ['!', '=']
  | equal => some ['=', '=']
  | less => some ['<']
  | lessEqual => some ['<', '=']
  | greater => some ['>']
  | greaterEqual => some ['>', '=']
  | logicalAnd => some ['&', '&']
  | logicalOr => some ['|', '|']
  | question => some ['?']
  | colon => some [':']
  | dot => some ['.']
  | comma => some [',']
  | leftParen => some ['(']
  | rightParen => some [')']
  | leftBracket => some ['[']
  | rightBracket => some [']']
  | leftBrace => some ['{']
  | rightBrace => some ['}']
  | dollar => some ['$']
  | name | number | string | blank | invalid | openString | nul | endOfText => none

def lexeme? (tag : Tag) : Option String := tag.spelling?.map String.ofList

def bytes (tag : Tag) : List UInt8 := Text.encode (tag.spelling?.getD [])

end Tag

end HclLiteral
