import CodeCompletion.SyntaxError

/-! Readers look at the front of a text and say what they found and how many characters it took.
The text that is left follows from the count, so no reader can move backwards. -/
namespace CodeCompletion

structure Reading (α : Type) where
  value : α
  /-- How many characters were read. -/
  size : Nat

/-- A reader whose failures are all at its first character. -/
abbrev Reader (α : Type) := List Char → Except SyntaxError.Reason (Reading α)

def runLength (p : Char → Bool) (text : List Char) : Nat :=
  (text.takeWhile p).length

end CodeCompletion
