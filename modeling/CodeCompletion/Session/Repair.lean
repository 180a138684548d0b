import CodeCompletion.Candidate.Lookup
import CodeCompletion.Caret.Context
import CodeCompletion.Parser.Statement

/-! Parsing a text that is being edited. Right after a dot the name is usually still missing, so a
text that cannot be parsed there is tried again with a placeholder at the caret. -/
namespace CodeCompletion

def caretOffset? (source : String) (caret : Position) : Option Nat :=
  (LineTable.ofChars source.toList).offset? source.toList caret

/-- The text with the placeholder at the caret, if it lies in the text. -/
def withPlaceholder? (source : String) (caret : Position) : Option String := do
  let (before, after) ← splitAtByte source.toList (← caretOffset? source caret)
  return String.ofList (before ++ placeholder.toList ++ after)

/-- Parses a text, given the intent at the caret. The error is that of the text itself. -/
def parseEdited (source : String) (caret : Position) (intent : Option Intent) :
    Except SyntaxError Program :=
  match parseText source with
  | .ok program => .ok program
  | .error e =>
    if intent.any (·.kind = .property) then
      match (withPlaceholder? source caret).map parseText with
      | some (.ok program) => .ok program
      | _ => .error e
    else .error e

def parseAt (source : String) (caret : Position) : Except SyntaxError Program :=
  parseEdited source caret (contextAt source caret)

end CodeCompletion
