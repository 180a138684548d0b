import CodeCompletion.Parser.State

/-! The rules through which the grammar refers back to itself. Each rule is written against a
`Grammar`, the rules for what it contains; the knot is tied on the number of lexemes left, since
every such reference comes after one of them has been consumed. -/
namespace CodeCompletion.Parser

structure Grammar where
  /-- No list is longer than this. -/
  limit : Nat
  statement : Parser Stmt
  /-- An expression that is not a comma list. -/
  assignment : Parser Expr
  expression : Parser Expr
  /-- An expression of operators that bind at least as tightly as the given level. -/
  binary : Nat → Parser Expr
  unary : Parser Expr
  /-- A value with the member accesses and calls that follow it. -/
  chain : Parser Expr
  /-- A `new` expression without what follows its arguments. -/
  construct : Parser Expr

def Grammar.empty : Grammar where
  limit := 0
  statement := fail .missingEndOfInput
  assignment := fail .missingEndOfInput
  expression := fail .missingEndOfInput
  binary _ := fail .missingEndOfInput
  unary := fail .missingEndOfInput
  chain := fail .missingEndOfInput
  construct := fail .missingEndOfInput

/-- Items separated by commas up to a closing token; a comma may stand before it. An item
may say that it has to be the last one. -/
def Grammar.commaList {α : Type} (g : Grammar) (close : Token) (item : Parser (α × Bool)) :
    Parser (List α) :=
  loop (fun found : List α => do
    if ← accept close then return .inr found.reverse
    let (a, isLast) ← item
    let goesOn ← if isLast then pure false else accept .comma
    if goesOn then return .inl (a :: found)
    let _ ← require close
    return .inr (a :: found).reverse) g.limit []

def anywhere {α : Type} (p : Parser α) : Parser (α × Bool) := do
  return (← p, false)

def Grammar.computed (g : Grammar) : Parser Expr := do
  let _ ← require .leftBracket
  let value ← withIn g.expression
  let _ ← require .rightBracket
  return value

def Grammar.block (g : Grammar) : Parser Block := do
  let start ← require .leftBrace
  let body ← collect g.limit do
    match ← peek with
    | .rightBrace => return none
    | .endOfInput => fail .unclosedBrace
    | _ => return some (← g.statement)
  let _ ← advance
  return ⟨body, ← finish start⟩

end CodeCompletion.Parser
