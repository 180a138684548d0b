import CodeCompletion.Text.CharClass

/-! Words that have a meaning of their own in JavaScript and so cannot name a variable. -/
namespace CodeCompletion

def reservedWords : List String :=
  ["break", "case", "catch", "class", "const", "continue", "debugger", "default", "delete",
    "do", "else", "enum", "export", "extends", "false", "finally", "for", "function", "if",
    "import", "in", "instanceof", "new", "null", "return", "super", "switch", "this",
    "throw", "true", "try", "typeof", "var", "void", "while", "with"]

def isReserved (word : String) : Bool :=
  reservedWords.contains word

/-- Reserved words that stand for a value, so that an operator can follow them. -/
def isValueWord (word : String) : Bool :=
  ["this", "super", "null", "true", "false"].contains word

end CodeCompletion
