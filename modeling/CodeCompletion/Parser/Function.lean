import CodeCompletion.Parser.Grammar

/-! Functions and classes: parameters, bodies, methods and members. -/
namespace CodeCompletion.Parser

/-- One parameter. One that takes all remaining arguments has no default and comes last. -/
def Grammar.param (g : Grammar) : Parser (Param × Bool) := do
  let isRest ← accept .ellipsis
  let name ← ident
  let hasDefault ← if isRest then pure false else accept (.op "=")
  let fallback ← if hasDefault then some <$> g.assignment else pure none
  return (⟨name, fallback, isRest⟩, isRest)

def Grammar.params (g : Grammar) : Parser (List Param) := do
  let _ ← require .leftParen
  withIn (g.commaList .rightParen g.param)

def Grammar.functionBlock (g : Grammar) : Parser Block :=
  withIn g.block

/-- A name if one is next, which a declaration must have. -/
def optionalName (isDeclaration : Bool) (missing : SyntaxError.Reason) :
    Parser (Option Ident) := do
  match ← peek with
  | .word name =>
    if !isReserved name then return some (← ident)
    else if isDeclaration then fail missing
    else return none
  | _ => if isDeclaration then fail missing else return none

def Grammar.function (g : Grammar) (isDeclaration : Bool) : Parser Function := do
  let start ← requireWord "function"
  let _ ← accept (.op "*")
  let name ← optionalName isDeclaration .unnamedFunction
  let params ← g.params
  let body ← g.functionBlock
  return ⟨name, params, .block body, false, ← finish start⟩

def Grammar.method (g : Grammar) (start : Span) : Parser Function := do
  let params ← g.params
  let body ← g.functionBlock
  return ⟨none, params, .block body, false, ← finish start⟩

def Grammar.arrow (g : Grammar) : Parser Expr := do
  let start ← currentSpan
  let params ←
    if (← peek) = .leftParen then g.params
    else pure [⟨← ident, none, false⟩]
  if ← newlineBefore then fail .newlineBeforeArrow
  let _ ← require .arrow
  let body ←
    if (← peek) = .leftBrace then FunctionBody.block <$> g.functionBlock
    else FunctionBody.expr <$> g.assignment
  let span ← finish start
  return .function span ⟨none, params, body, true, span⟩

def Grammar.propertyKey (g : Grammar) : Parser PropertyKey := do
  match ← peek with
  | .word name => let _ ← advance; return .ident name
  | .str value => let _ ← advance; return .str value
  | .num value => let _ ← advance; return .num value
  | .leftBracket => PropertyKey.computed <$> g.computed
  | got => fail (.expectedPropertyName got)

/-- Whether the current word modifies a class member rather than naming it. -/
def modifies (word : String) : Parser Bool := do
  if (← peek) = .word word then
    match ← peekNext with
    | .leftParen | .op "=" | .semicolon | .rightBrace => return false
    | _ => return true
  else return false

inductive Accessor where
  | getter
  | setter

def accessor : Parser (Option Accessor) := do
  if ← modifies "get" then
    let _ ← advance
    return some .getter
  else if ← modifies "set" then
    let _ ← advance
    return some .setter
  else return none

def memberKind (key : PropertyKey) (isStatic : Bool) (which : Option Accessor)
    (function : Function) : MemberKind :=
  match which with
  | some .getter => .getter function
  | some .setter => .setter function
  | none =>
    match key with
    | .ident "constructor" | .str "constructor" =>
      if isStatic then .method function else .constructor function
    | _ => .method function

def Grammar.classMember (g : Grammar) : Parser ClassMember := do
  let start ← currentSpan
  let isStatic ← modifies "static"
  if isStatic then let _ ← advance
  let which ← accessor
  let isGenerator ← accept (.op "*")
  let key ← g.propertyKey
  let kind ←
    if (← peek) = .leftParen then
      memberKind key isStatic which <$> withIn (g.method start)
    else
      if which.isSome || isGenerator then fail (.expectedParameters (← peek))
      let init ← if ← accept (.op "=") then some <$> withIn g.assignment else pure none
      semicolon
      pure (MemberKind.field init)
  return ⟨key, isStatic, kind, ← finish start⟩

def Grammar.classBody (g : Grammar) : Parser (List ClassMember) :=
  loop (fun found : List ClassMember => do
    if ← accept .rightBrace then return .inr found.reverse
    if ← accept .semicolon then return .inl found
    if (← peek) = .endOfInput then fail .unclosedBrace
    return .inl ((← g.classMember) :: found)) g.limit []

def Grammar.class (g : Grammar) (isDeclaration : Bool) : Parser Class := do
  let start ← requireWord "class"
  let name ← optionalName isDeclaration .unnamedClass
  let parent ← if ← accept (.word "extends") then some <$> g.chain else pure none
  let bodyStart ← require .leftBrace
  let members ← g.classBody
  let bodySpan ← finish bodyStart
  return ⟨name, parent, members, bodySpan, ← finish start⟩

end CodeCompletion.Parser
