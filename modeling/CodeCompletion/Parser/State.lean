import CodeCompletion.Program.Tree
import CodeCompletion.Token.Stream

/-! The parsing monad. A state stands on one lexeme and knows those after it, the span of the one
before, how deep the node being built lies in the tree, and whether the word `in` is an operator.
Failures keep the state they arose in and are reported at its lexeme. -/
namespace CodeCompletion

structure Parser.State where
  /-- Span of the lexeme consumed last. -/
  previous : Option Span
  current : Lexeme
  upcoming : List Lexeme
  depth : Nat
  /-- Set in the head of a loop, where `in` is no operator. -/
  noIn : Bool

abbrev Parser := EStateM SyntaxError Parser.State

namespace Parser

def maxDepth : Nat := 1024

def fail {α : Type} (reason : SyntaxError.Reason) : Parser α := fun s =>
  .error ⟨reason, s.current.span.start.position⟩ s

def peek : Parser Token := fun s => .ok s.current.token s

/-- The token after the current one; at the end of input, the current one. -/
def peekNext : Parser Token := fun s =>
  .ok (s.upcoming.head?.getD s.current).token s

def newlineBefore : Parser Bool := fun s => .ok s.current.newlineBefore s

def currentSpan : Parser Span := fun s => .ok s.current.span s

/-- Span of the lexeme consumed last, or of the first one before any is. -/
def previousSpan : Parser Span := fun s => .ok (s.previous.getD s.current.span) s

/-- Moves on and gives the span of the lexeme left behind. The last lexeme stays. -/
def advance : Parser Span := fun s =>
  match s.upcoming with
  | [] => .ok s.current.span s
  | next :: rest =>
    .ok s.current.span
      { s with previous := some s.current.span, current := next, upcoming := rest }

def finish (start : Span) : Parser Span := do
  return start.cover (← previousSpan)

def accept (token : Token) : Parser Bool := do
  if (← peek) = token then
    let _ ← advance
    return true
  else return false

def require (token : Token) : Parser Span := do
  let got ← peek
  if got = token then advance else fail (.expectedToken token got)

def requireWord (word : String) : Parser Span := do
  let got ← peek
  if got = .word word then advance else fail (.expectedWord word got)

def ident : Parser Ident := do
  match ← peek with
  | .word name =>
    if isReserved name then fail (.expectedIdentifier (.word name))
    else return ⟨name, ← advance⟩
  | got => fail (.expectedIdentifier got)

/-- The name of a member, which may be a reserved word. -/
def propertyName : Parser Ident := do
  match ← peek with
  | .word name => return ⟨name, ← advance⟩
  | got => fail (.expectedPropertyName got)

/-- The end of a statement: a semicolon, which may be left out before a closing brace, at
the end of input and at a line break. -/
def semicolon : Parser Unit := do
  if ← accept .semicolon then return
  let got ← peek
  if got = .rightBrace ∨ got = .endOfInput ∨ (← newlineBefore) then return
  fail (.expectedSemicolon got)

def descend : Parser Unit := fun s =>
  if maxDepth ≤ s.depth then fail .nestingTooDeep s
  else .ok () { s with depth := s.depth + 1 }

/-- Runs a parser and then restores what it may have changed, whether it fails or not. -/
def restoring {α : Type} (restore : State → State) (p : Parser α) : Parser α := fun s =>
  match p s with
  | .ok a s => .ok a (restore s)
  | .error e s => .error e (restore s)

def deeper {α : Type} (p : Parser α) : Parser α := do
  descend
  restoring (fun s => { s with depth := s.depth - 1 }) p

/-- Sets the depth back after a parser that leaves it raised. -/
def levelled {α : Type} (p : Parser α) : Parser α := fun s =>
  match p s with
  | .ok a s' => .ok a { s' with depth := s.depth }
  | .error e s' => .error e s'

def withIn {α : Type} (p : Parser α) : Parser α := fun s =>
  restoring (fun s' => { s' with noIn := s.noIn }) p { s with noIn := false }

/-- Runs a parser with `in` as no operator, as at the start of a loop head. -/
def withoutIn {α : Type} (p : Parser α) : Parser α := fun s =>
  restoring (fun s' => { s' with noIn := false }) p { s with noIn := true }

/-- Repeats a step until it gives a result, at most `limit` times. Only lexemes without an end of
input need more. -/
def loop {α β : Type} (step : α → Parser (α ⊕ β)) : Nat → α → Parser β
  | 0, _ => fail .missingEndOfInput
  | limit + 1, a => do
    match ← step a with
    | .inl a => loop step limit a
    | .inr b => return b

def collect {α : Type} (limit : Nat) (step : Parser (Option α)) : Parser (List α) :=
  loop (fun found : List α => do
    match ← step with
    | some a => return .inl (a :: found)
    | none => return .inr found.reverse) limit []

end Parser

end CodeCompletion
