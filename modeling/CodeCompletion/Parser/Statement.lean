import CodeCompletion.Parser.Operator

/-! Statements. A semicolon that may be left out is handled by `semicolon`; a line break also ends
`return`, and may not follow `throw`. -/
namespace CodeCompletion.Parser

def Grammar.declarator (g : Grammar) : Parser Declarator := do
  let target ← ident
  let init ← if ← accept (.op "=") then some <$> g.assignment else pure none
  return ⟨target, init, ← finish target.span⟩

def Grammar.declarators (g : Grammar) : Parser (List Declarator) :=
  loop (fun found : List Declarator => do
    let found := (← g.declarator) :: found
    if ← accept .comma then return .inl found
    return .inr found.reverse) g.limit []

/-- Whether the word `let` declares something: only before a name or a pattern. -/
def startsLet : Parser Bool := do
  match ← peekNext with
  | .word _ | .leftBracket | .leftBrace => return true
  | _ => return false

def bindingKind? : Parser (Option BindingKind) := do
  match ← peek with
  | .word "var" => return some .varBinding
  | .word "const" => return some .constBinding
  | .word "let" => return if ← startsLet then some .letBinding else none
  | _ => return none

def Grammar.condition (g : Grammar) : Parser Expr := do
  let _ ← require .leftParen
  let value ← g.expression
  let _ ← require .rightParen
  return value

def Grammar.returnRule (g : Grammar) : Parser (Span → Stmt) := do
  let _ ← advance
  let got ← peek
  let isBare := got = .semicolon ∨ got = .rightBrace ∨ got = .endOfInput ∨ (← newlineBefore)
  let value ← if isBare then pure none else some <$> g.expression
  semicolon
  return (.returns · value)

def Grammar.ifRule (g : Grammar) : Parser (Span → Stmt) := do
  let _ ← advance
  let test ← g.condition
  let consequent ← g.statement
  let alternate ← if ← accept (.word "else") then some <$> g.statement else pure none
  return (.ifElse · test consequent alternate)

def Grammar.loopStart (g : Grammar) : Parser LoopStart := do
  let start ← currentSpan
  let kind ← bindingKind?
  withoutIn do
    match kind with
    | some kind =>
      let _ ← advance
      let declarators ← g.declarators
      return .bindings (← finish start) kind declarators
    | none => LoopStart.expr <$> g.expression

def Grammar.forEachRest (g : Grammar) (left : LoopStart) (ofValues : Bool) :
    Parser (Span → Stmt) := do
  if let .bindings _ _ declarators := left then
    if declarators.length ≠ 1 then fail .severalLoopBindings
  let _ ← advance
  let right ← if ofValues then g.assignment else g.expression
  let _ ← require .rightParen
  let body ← g.statement
  return (.forEach · left right body ofValues)

def Grammar.forRest (g : Grammar) (init : Option LoopStart) : Parser (Span → Stmt) := do
  let _ ← require .semicolon
  let test ← if (← peek) = .semicolon then pure none else some <$> g.expression
  let _ ← require .semicolon
  let update ← if (← peek) = .rightParen then pure none else some <$> g.expression
  let _ ← require .rightParen
  let body ← g.statement
  return (.forLoop · init test update body)

def Grammar.forRule (g : Grammar) : Parser (Span → Stmt) := do
  let _ ← advance
  let _ ← require .leftParen
  if (← peek) = .semicolon then g.forRest none
  else
    let left ← g.loopStart
    match ← peek with
    | .word "of" => g.forEachRest left true
    | .word "in" => g.forEachRest left false
    | _ => g.forRest (some left)

def Grammar.whileRule (g : Grammar) : Parser (Span → Stmt) := do
  let _ ← advance
  let test ← g.condition
  let body ← g.statement
  return (.whileLoop · test body)

def Grammar.doRule (g : Grammar) : Parser (Span → Stmt) := do
  let _ ← advance
  let body ← g.statement
  let _ ← requireWord "while"
  let test ← g.condition
  let _ ← accept .semicolon
  return (.doWhile · body test)

/-- What introduces a case: its value, or `none` for the default. -/
def Grammar.caseHead (g : Grammar) : Parser (Option Expr) := do
  if ← accept (.word "case") then some <$> g.expression
  else if ← accept (.word "default") then return none
  else fail (.expectedCase (← peek))

def Grammar.switchCase (g : Grammar) : Parser SwitchCase := do
  let start ← currentSpan
  let test ← g.caseHead
  let _ ← require .colon
  let body ← collect g.limit do
    match ← peek with
    | .word "case" | .word "default" | .rightBrace | .endOfInput => return none
    | _ => return some (← g.statement)
  return ⟨test, body, ← finish start⟩

def Grammar.switchRule (g : Grammar) : Parser (Span → Stmt) := do
  let _ ← advance
  let discriminant ← g.condition
  let _ ← require .leftBrace
  let cases ← collect g.limit do
    if ← accept .rightBrace then return none
    return some (← g.switchCase)
  return (.switch · discriminant cases)

def Grammar.catchClause (g : Grammar) : Parser CatchClause := do
  let start ← advance
  let param ←
    if ← accept .leftParen then
      let name ← ident
      let _ ← require .rightParen
      pure (some name)
    else pure none
  let body ← g.block
  return ⟨param, body, ← finish start⟩

def Grammar.tryRule (g : Grammar) : Parser (Span → Stmt) := do
  let _ ← advance
  let block ← g.block
  let handler ← if (← peek) = .word "catch" then some <$> g.catchClause else pure none
  let finalizer ← if ← accept (.word "finally") then some <$> g.block else pure none
  if handler.isNone && finalizer.isNone then fail .tryAlone
  return (.tryCatch · block handler finalizer)

def Grammar.throwRule (g : Grammar) : Parser (Span → Stmt) := do
  let _ ← advance
  if ← newlineBefore then fail .newlineAfterThrow
  let value ← g.expression
  semicolon
  return (.throws · value)

/-- The rest of `break` or `continue`: a label on the same line, if any. -/
def jumpLabel : Parser (Option String) := do
  let _ ← advance
  let label ←
    match ← peek with
    | .word name =>
      if (← newlineBefore) || isReserved name then pure none
      else pure (some (← ident).name)
    | _ => pure none
  semicolon
  return label

def Grammar.declarationRule (g : Grammar) (kind : BindingKind) : Parser (Span → Stmt) := do
  let _ ← advance
  let declarators ← g.declarators
  semicolon
  return (.declare · kind declarators)

def Grammar.expressionStatement (g : Grammar) : Parser (Span → Stmt) := do
  let value ← g.expressionRule
  semicolon
  return (.expr · value)

def Grammar.wordStatement (g : Grammar) (word : String) : Parser (Span → Stmt) := do
  match word with
  | "var" => g.declarationRule .varBinding
  | "const" => g.declarationRule .constBinding
  | "function" => let value ← g.function true; return (.function · value)
  | "class" => let value ← g.class true; return (.classDeclaration · value)
  | "return" => g.returnRule
  | "if" => g.ifRule
  | "for" => g.forRule
  | "while" => g.whileRule
  | "do" => g.doRule
  | "switch" => g.switchRule
  | "try" => g.tryRule
  | "throw" => g.throwRule
  | "break" => let label ← jumpLabel; return (.breaks · label)
  | "continue" => let label ← jumpLabel; return (.continues · label)
  | "debugger" =>
    let _ ← advance
    semicolon
    return .debugger
  | "import" | "export" => fail .moduleDeclaration
  | _ =>
    if word = "let" && (← startsLet) then g.declarationRule .letBinding
    else if !isReserved word && (← peekNext) = .colon then
      let _ ← advance
      let _ ← advance
      let body ← g.statement
      return (.labeled · word body)
    else g.expressionStatement

def Grammar.statementRule (g : Grammar) : Parser Stmt := deeper do
  let start ← currentSpan
  match ← peek with
  | .leftBrace =>
    let block ← g.block
    return .block block.span block
  | .semicolon =>
    let _ ← advance
    return .empty start
  | .word word =>
    let build ← g.wordStatement word
    return build (← finish start)
  | _ =>
    let build ← g.expressionStatement
    return build (← finish start)

/-- The rules for texts of fewer than the given number of lexemes. -/
def Grammar.ofSize : Nat → Grammar
  | 0 => Grammar.empty
  | size + 1 =>
    let g := ofSize size
    { limit := size + 1
      statement := g.statementRule
      assignment := g.assignmentRule
      expression := g.expressionRule
      binary := g.binaryRule
      unary := g.unaryRule
      chain := g.chainRule
      construct := g.constructRule }

def Grammar.program (g : Grammar) : Parser Program := do
  let start ← currentSpan
  let body ← collect g.limit do
    if (← peek) = .endOfInput then return none
    return some (← g.statement)
  return ⟨body, start.cover (← currentSpan)⟩

end CodeCompletion.Parser

namespace CodeCompletion

/-- The program that lexemes spell. The last of them is taken for the end of input. -/
def parseLexemes : List Lexeme → Except SyntaxError Program
  | [] => .ok ⟨[], ⟨Place.origin, Place.origin⟩⟩
  | first :: rest =>
    let start : Parser.State :=
      { previous := none, current := first, upcoming := rest, depth := 0, noIn := false }
    match (Parser.Grammar.ofSize (rest.length + 1)).program start with
    | .ok program _ => .ok program
    | .error e _ => .error e

def parseText (text : String) : Except SyntaxError Program :=
  match lexText text with
  | .ok lexemes => parseLexemes lexemes
  | .error e => .error e

end CodeCompletion
