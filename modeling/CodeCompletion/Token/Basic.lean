import CodeCompletion.Number.Layout
import CodeCompletion.Text.Position
import CodeCompletion.Text.Quoted

/-! Tokens of JavaScript source text, and lexemes: tokens with the span they were read from. Names
and keywords are both words; which is which is decided where it matters. -/
namespace CodeCompletion

inductive Token where
  | word (text : String)
  /-- A quoted string, its escapes resolved. -/
  | str (value : String)
  /-- A template literal, as it stands between its backticks. -/
  | template (raw : String)
  | num (value : Binary64)
  | regex (pattern flags : String)
  | leftBrace
  | rightBrace
  | leftBracket
  | rightBracket
  | leftParen
  | rightParen
  | semicolon
  | comma
  | colon
  | dot
  | ellipsis
  | question
  | questionDot
  | arrow
  /-- Every other operator, by its text. -/
  | op (text : String)
  | endOfInput
deriving DecidableEq, Inhabited

namespace Token

def describe : Token → String
  | word text => "Word(" ++ quoted text ++ ")"
  | str value => "Str(" ++ quoted value ++ ")"
  | template raw => "Template(" ++ quoted raw ++ ")"
  | num value => "Num(" ++ NumberLayout.diagnostic.write value ++ ")"
  | regex pattern flags =>
    "Regex \x7b pattern: " ++ quoted pattern ++ ", flags: " ++ quoted flags ++ " \x7d"
  | leftBrace => "LBrace"
  | rightBrace => "RBrace"
  | leftBracket => "LBracket"
  | rightBracket => "RBracket"
  | leftParen => "LParen"
  | rightParen => "RParen"
  | semicolon => "Semi"
  | comma => "Comma"
  | colon => "Colon"
  | dot => "Dot"
  | ellipsis => "Ellipsis"
  | question => "Question"
  | questionDot => "QuestionDot"
  | arrow => "Arrow"
  | op text => "Op(" ++ quoted text ++ ")"
  | endOfInput => "Eof"

/-- The two marks that separate a value from the name of its member. -/
def isDot : Token → Bool
  | dot | questionDot => true
  | _ => false

end Token

structure Lexeme where
  token : Token
  span : Span
  /-- Whether a line feed stands between the token before and this one. -/
  newlineBefore : Bool
deriving DecidableEq, Inhabited

end CodeCompletion
