import CodeCompletion.Token.Basic

/-! Why a text is not a program. A reason says what was wrong and an error adds the position: that
of the construct that does not end for lexical reasons, and of the token at which the reader
stopped for grammatical ones. -/
namespace CodeCompletion

inductive SyntaxError.Reason where
  | unterminatedComment
  | unterminatedString
  | unterminatedEscape
  | invalidHexEscape
  | unterminatedUnicodeEscape
  | invalidUnicodeEscape
  | unterminatedTemplate
  | unterminatedRegex
  | missingDigits
  | missingExponent
  | numberTooLarge (digits : String)
  | nameAfterNumber
  | escapedName
  | unexpectedCharacter (c : Char)
  | nestingTooDeep
  | missingEndOfInput
  | unexpectedToken (got : Token)
  | expectedToken (wanted got : Token)
  | expectedWord (wanted : String) (got : Token)
  | expectedIdentifier (got : Token)
  | expectedPropertyName (got : Token)
  | expectedSemicolon (got : Token)
  | unclosedBrace
  | moduleDeclaration
  | newlineAfterThrow
  | newlineBeforeArrow
  | severalLoopBindings
  | expectedCase (got : Token)
  | tryAlone
  | unnamedFunction
  | unnamedClass
  | invalidAssignmentTarget
  | invalidUpdateTarget
  | generatorWithoutParameters
  | expectedPropertyColon (got : Token)
  | expectedParameters (got : Token)
deriving DecidableEq

def SyntaxError.Reason.message : SyntaxError.Reason → String
  | unterminatedComment => "unterminated block comment"
  | unterminatedString => "unterminated string literal"
  | unterminatedEscape => "unterminated escape in string"
  | invalidHexEscape => "invalid hexadecimal escape"
  | unterminatedUnicodeEscape => "unterminated unicode escape"
  | invalidUnicodeEscape => "invalid unicode escape"
  | unterminatedTemplate => "unterminated template literal"
  | unterminatedRegex => "unterminated regular expression"
  | missingDigits => "missing digits in numeric literal"
  | missingExponent => "missing exponent in numeric literal"
  | numberTooLarge digits => "invalid numeric literal '" ++ digits ++ "'"
  | nameAfterNumber => "identifier starts immediately after numeric literal"
  | escapedName => "unicode escapes in identifiers are not supported"
  | unexpectedCharacter c => "unexpected character '" ++ c.toString ++ "'"
  | nestingTooDeep => "nesting too deep"
  | missingEndOfInput => "missing end of input"
  | unexpectedToken got => "unexpected token " ++ got.describe
  | expectedToken wanted got => "expected " ++ wanted.describe ++ ", got " ++ got.describe
  | expectedWord wanted got => "expected '" ++ wanted ++ "', got " ++ got.describe
  | expectedIdentifier got => "expected identifier, got " ++ got.describe
  | expectedPropertyName got => "expected property name, got " ++ got.describe
  | expectedSemicolon got => "expected ';', got " ++ got.describe
  | unclosedBrace => "expected '\x7d', got end of input"
  | moduleDeclaration => "module declarations are not supported"
  | newlineAfterThrow => "illegal newline after throw"
  | newlineBeforeArrow => "illegal newline before '=>'"
  | severalLoopBindings => "for-in/of head declares more than one binding"
  | expectedCase got => "expected 'case' or 'default', got " ++ got.describe
  | tryAlone => "expected 'catch' or 'finally' after try block"
  | unnamedFunction => "function declaration requires a name"
  | unnamedClass => "class declaration requires a name"
  | invalidAssignmentTarget => "invalid assignment target"
  | invalidUpdateTarget => "invalid update target"
  | generatorWithoutParameters => "expected '(' after generator method name"
  | expectedPropertyColon got => "expected ':' in object literal, got " ++ got.describe
  | expectedParameters got => "expected '(', got " ++ got.describe

structure SyntaxError where
  reason : SyntaxError.Reason
  position : Position
deriving DecidableEq

/-- The whole message, with the position as people count it. -/
def SyntaxError.message (e : SyntaxError) : String :=
  "syntax error at " ++ e.position.display ++ ": " ++ e.reason.message

end CodeCompletion
