import CodeCompletion.Candidate.Basic

/-! Keywords as candidates. They rank below everything that is known about the program. -/
namespace CodeCompletion

/-- The keywords, the most frequent in scripts first. -/
def keywords : List String :=
  ["this", "function", "return", "var", "if", "else", "true", "false", "null", "new",
    "typeof", "for", "const", "let", "in", "undefined", "break", "case", "while",
    "instanceof", "throw", "catch", "try", "delete", "switch", "default", "class",
    "continue", "of", "do", "void", "finally", "extends", "super", "static", "debugger",
    "with"]

/-- The score of the keyword at a place in the list: at most -2. -/
def scoreAtRank (rank : Nat) : Int :=
  -(rank + 2)

def keywordsAfter (typed : String) : Completions :=
  .ofList <| keywords.zipIdx.filterMap fun (word, rank) =>
    if properlyExtends typed word then some ⟨word, typed, scoreAtRank rank⟩ else none

end CodeCompletion
