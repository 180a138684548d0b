import CodeCompletion.Token.Reading

/-! Punctuators and operators. The table is ordered so that no entry stands behind one that begins
it, and the first entry that begins the text is the token. -/
namespace CodeCompletion

open Token

def namedPunctuators : List (String × Token) :=
  [("...", ellipsis), ("=>", arrow), ("?.", questionDot), ("\x7b", leftBrace),
    ("\x7d", rightBrace), ("(", leftParen), (")", rightParen), ("[", leftBracket),
    ("]", rightBracket), (";", semicolon), (",", comma), (":", colon), (".", dot)]

/-- Operators that keep their text. The slash is not among them: what it starts depends on
the token before it. -/
def operatorTexts : List String :=
  [">>>=", "===", "!==", "**=", "<<=", ">>=", ">>>", "&&=", "||=", "??=", "==", "!=", "<=",
    ">=", "&&", "||", "??", "++", "--", "+=", "-=", "*=", "%=", "&=", "|=", "^=", "**", "<<",
    ">>", "<", ">", "+", "-", "*", "%", "&", "|", "^", "!", "~", "=", "@"]

def punctuators : List (List Char × Token) :=
  namedPunctuators.map (fun (text, token) => (text.toList, token)) ++
    operatorTexts.map (fun text => (text.toList, op text)) ++
    [(['?'], question)]

/-- The punctuator at the front of a text. Before a digit, `?.` is a question mark and the
start of a number. -/
def punctuator? (text : List Char) : Option (Reading Token) :=
  match text with
  | '?' :: '.' :: digit :: _ =>
    if digit.isDigit then some ⟨question, 1⟩ else some ⟨questionDot, 2⟩
  | _ =>
    (punctuators.find? fun (chars, _) => chars.isPrefixOf text).map fun (chars, token) =>
      ⟨token, chars.length⟩

end CodeCompletion
