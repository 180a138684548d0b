import CodeCompletion.Parser.Value

/-! Operators, from the tightest to the loosest: unary, binary by precedence, conditional,
assignment and the comma. -/
namespace CodeCompletion.Parser

def precedence? : String → Option Nat
  | "??" | "||" => some 1
  | "&&" => some 2
  | "|" => some 3
  | "^" => some 4
  | "&" => some 5
  | "==" | "!=" | "===" | "!==" => some 6
  | "<" | ">" | "<=" | ">=" | "instanceof" | "in" => some 7
  | "<<" | ">>" | ">>>" => some 8
  | "+" | "-" => some 9
  | "*" | "/" | "%" => some 10
  | "**" => some 11
  | _ => none

/-- The least level at which the right operand of an operator is read: only `**` groups to
the right. -/
def rightLevel (op : String) (level : Nat) : Nat :=
  if op = "**" then level else level + 1

def assignmentOperators : List String :=
  ["=", "+=", "-=", "*=", "/=", "%=", "**=", "<<=", ">>=", ">>>=", "&=", "|=", "^=", "&&=",
    "||=", "??="]

def binaryOperator? : Parser (Option (String × Nat)) := fun s =>
  let op :=
    match s.current.token with
    | .op text => some text
    | .word "instanceof" => some "instanceof"
    | .word "in" => if s.noIn then none else some "in"
    | _ => none
  .ok (op.bind fun text => (precedence? text).map (text, ·)) s

def unaryOperator? : Parser (Option String) := do
  match ← peek with
  | .op text => return if ["!", "~", "+", "-"].contains text then some text else none
  | .word text => return if ["typeof", "void", "delete"].contains text then some text else none
  | _ => return none

def updateOperator? : Parser (Option String) := do
  match ← peek with
  | .op text => return if ["++", "--"].contains text then some text else none
  | _ => return none

/-- A chain and an increment or decrement on the same line. -/
def Grammar.postfixRule (g : Grammar) : Parser Expr := do
  let start ← currentSpan
  let operand ← g.chainRule
  match ← updateOperator?, ← newlineBefore with
  | some op, false =>
    if !operand.isTarget then fail .invalidUpdateTarget
    let _ ← advance
    return .update (← finish start) op false operand
  | _, _ => return operand

def Grammar.unaryRule (g : Grammar) : Parser Expr := do
  let start ← currentSpan
  match ← unaryOperator? with
  | some op =>
    let _ ← advance
    let operand ← deeper g.unary
    return .unary (← finish start) op operand
  | none =>
    match ← updateOperator? with
    | some op =>
      let _ ← advance
      let operand ← deeper g.unary
      if !operand.isTarget then fail .invalidUpdateTarget
      return .update (← finish start) op true operand
    | none => g.postfixRule

/-- Precedence climbing. Each operator lies one level deeper, since it wraps all to its
left. -/
def Grammar.binaryRule (g : Grammar) (least : Nat) : Parser Expr :=
  levelled do
    let first ← g.unaryRule
    loop (fun left => do
      match ← binaryOperator? with
      | none => return .inr left
      | some (op, level) =>
        if level < least then return .inr left
        descend
        let _ ← advance
        let right ← g.binary (rightLevel op level)
        return .inl (.binary (left.span.cover right.span) op left right)) g.limit first

def Grammar.conditionalRule (g : Grammar) : Parser Expr := do
  let test ← g.binaryRule 1
  if ← accept .question then
    let consequent ← withIn g.assignment
    let _ ← require .colon
    let alternate ← g.assignment
    return .conditional (test.span.cover alternate.span) test consequent alternate
  else return test

/-- Whether the bracket that closes the first one of a list is followed by an arrow. -/
def arrowAfterBrackets (depth : Nat) : List Lexeme → Bool
  | [] => false
  | lexeme :: rest =>
    match lexeme.token with
    | .leftParen | .leftBracket | .leftBrace => arrowAfterBrackets (depth + 1) rest
    | .rightParen | .rightBracket | .rightBrace =>
      if depth ≤ 1 then (rest.head?.getD lexeme).token = .arrow
      else arrowAfterBrackets (depth - 1) rest
    | .endOfInput => false
    | _ => arrowAfterBrackets depth rest

def arrowAhead : Parser Bool := fun s =>
  let answer :=
    match s.current.token with
    | .word name =>
      !isReserved name && (s.upcoming.head?.getD s.current).token = .arrow
    | .leftParen => arrowAfterBrackets 0 (s.current :: s.upcoming)
    | _ => false
  .ok answer s

def assignmentOperator? : Parser (Option String) := do
  match ← peek with
  | .op text => return if assignmentOperators.contains text then some text else none
  | _ => return none

def Grammar.assignmentRule (g : Grammar) : Parser Expr := deeper do
  if ← arrowAhead then g.arrow
  else
    let target ← g.conditionalRule
    match ← assignmentOperator? with
    | none => return target
    | some op =>
      if !target.isTarget then fail .invalidAssignmentTarget
      let _ ← advance
      let value ← g.assignment
      return .assign (target.span.cover value.span) op target value

def Grammar.expressionRule (g : Grammar) : Parser Expr := do
  let first ← g.assignmentRule
  if (← peek) = .comma then
    let others ← collect g.limit do
      if ← accept .comma then some <$> g.assignmentRule else return none
    return .sequence (← finish first.span) (first :: others)
  else return first

end CodeCompletion.Parser
