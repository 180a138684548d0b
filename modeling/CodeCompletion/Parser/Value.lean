import CodeCompletion.Parser.Function

/-! Values and what is chained to them: literals, arrays, objects, `new`, member accesses and
calls. -/
namespace CodeCompletion.Parser

def Grammar.spreadable (g : Grammar) : Parser Expr := do
  if (← peek) = .ellipsis then
    let start ← advance
    let operand ← g.assignment
    return .spread (← finish start) operand
  else g.assignment

def Grammar.arguments (g : Grammar) : Parser (List Expr) := do
  let _ ← require .leftParen
  withIn (g.commaList .rightParen (anywhere g.spreadable))

/-- The elements of an array literal; a comma without an element before it makes a hole. -/
def Grammar.elements (g : Grammar) : Parser (List (Option Expr)) :=
  loop (fun found : List (Option Expr) => do
    if ← accept .rightBracket then return .inr found.reverse
    if ← accept .comma then return .inl (none :: found)
    let element ← g.spreadable
    if ← accept .comma then return .inl (some element :: found)
    let _ ← require .rightBracket
    return .inr (some element :: found).reverse) g.limit []

def propertyAccessor : Parser (Option PropertyKind) := do
  let kind ←
    match ← peek with
    | .word "get" => pure (some PropertyKind.getter)
    | .word "set" => pure (some PropertyKind.setter)
    | _ => pure none
  match ← peekNext with
  | .colon | .leftParen | .comma | .rightBrace => return none
  | _ => return kind

def Grammar.methodValue (g : Grammar) (start : Span) : Parser Expr := do
  let function ← g.method start
  return .function function.span function

/-- The value of a property after its key. `first` is the token that the key started with:
a name alone stands for the variable of that name. -/
def Grammar.propertyValue (g : Grammar) (start : Span) (isGenerator : Bool) (first : Token) :
    Parser Expr := do
  if (← peek) = .leftParen then g.methodValue start
  else if isGenerator then fail .generatorWithoutParameters
  else if ← accept .colon then g.assignment
  else
    match first, ← peek with
    | .word name, .comma | .word name, .rightBrace =>
      if isReserved name then fail (.expectedPropertyColon (← peek))
      else return .ident (← previousSpan) name
    | _, got => fail (.expectedPropertyColon got)

def Grammar.plainProperty (g : Grammar) (start : Span) : Parser Property := do
  let isGenerator ← accept (.op "*")
  let first ← peek
  let key ← g.propertyKey
  let value ← g.propertyValue start isGenerator first
  return ⟨key, value, .value, ← finish start⟩

def Grammar.property (g : Grammar) : Parser Property := do
  let start ← currentSpan
  match ← propertyAccessor with
  | some kind =>
    let _ ← advance
    let key ← g.propertyKey
    let value ← g.methodValue start
    return ⟨key, value, kind, ← finish start⟩
  | none => g.plainProperty start

/-- The properties of an object literal. A spread names none. -/
def Grammar.properties (g : Grammar) : Parser (List Property) := do
  let entries ← g.commaList .rightBrace (anywhere do
    if ← accept .ellipsis then
      let _ ← g.assignment
      return none
    else some <$> g.property)
  return entries.filterMap id

def Grammar.wordValue (g : Grammar) (word : String) : Parser (Span → Expr) := do
  match word with
  | "this" => let _ ← advance; return .thisRef
  | "super" => let _ ← advance; return .superRef
  | "null" => let _ ← advance; return (.literal · .null)
  | "true" => let _ ← advance; return (.literal · (.bool true))
  | "false" => let _ ← advance; return (.literal · (.bool false))
  | "function" => let value ← g.function false; return (.function · value)
  | "class" => let value ← g.class false; return (.classValue · value)
  | _ => let name ← ident; return (.ident · name.name)

/-- A value on its own. Parentheses leave no trace, not even in the span. -/
def Grammar.value (g : Grammar) : Parser Expr := do
  let start ← currentSpan
  let literal (value : Literal) : Parser Expr := do
    let _ ← advance
    return .literal (← finish start) value
  match ← peek with
  | .word word =>
    let build ← g.wordValue word
    return build (← finish start)
  | .num value => literal (.num value)
  | .str value => literal (.str value)
  | .template raw => literal (.template raw)
  | .regex pattern flags => literal (.regex pattern flags)
  | .leftParen =>
    let _ ← advance
    let inner ← withIn g.expression
    let _ ← require .rightParen
    return inner
  | .leftBracket =>
    let _ ← advance
    let elements ← withIn g.elements
    return .array (← finish start) elements
  | .leftBrace =>
    let _ ← advance
    let properties ← withIn g.properties
    return .object (← finish start) properties
  | got => fail (.unexpectedToken got)

def Grammar.constructorLink (g : Grammar) (callee : Expr) : Parser (Expr ⊕ Expr) := do
  let link (property : MemberName) : Parser (Expr ⊕ Expr) := do
    return .inl (.member (callee.span.cover (← previousSpan)) callee property false)
  match ← peek with
  | .dot =>
    descend
    let _ ← advance
    link (.name (← propertyName))
  | .leftBracket =>
    descend
    link (.computed (← g.computed))
  | _ => return .inr callee

/-- A `new` expression. Arguments belong to the innermost one, and no call is part of the
constructor. -/
def Grammar.constructRule (g : Grammar) : Parser Expr := do
  let start ← requireWord "new"
  let callee ← levelled do
    let base ← if (← peek) = .word "new" then deeper g.construct else g.value
    loop g.constructorLink g.limit base
  let arguments ← if (← peek) = .leftParen then g.arguments else pure []
  return .construct (← finish start) callee arguments

def Grammar.link (g : Grammar) (base : Expr) : Parser (Option (Span → Expr)) := do
  match ← peek with
  | .dot =>
    descend
    let _ ← advance
    let name ← propertyName
    return some (.member · base (.name name) false)
  | .questionDot =>
    descend
    let _ ← advance
    match ← peek with
    | .leftParen =>
      let arguments ← g.arguments
      return some (.call · base arguments true)
    | .leftBracket =>
      let value ← g.computed
      return some (.member · base (.computed value) true)
    | _ =>
      let name ← propertyName
      return some (.member · base (.name name) true)
  | .leftBracket =>
    descend
    let value ← g.computed
    return some (.member · base (.computed value) false)
  | .leftParen =>
    descend
    let arguments ← g.arguments
    return some (.call · base arguments false)
  | .template raw =>
    descend
    let span ← advance
    return some (.call · base [.literal span (.template raw)] false)
  | _ => return none

/-- A value, or a `new` expression, and all links after it. Each link lies one level
deeper, since it wraps all before it. -/
def Grammar.chainRule (g : Grammar) : Parser Expr := do
  let start ← currentSpan
  levelled do
    let base ← if (← peek) = .word "new" then g.constructRule else g.value
    loop (fun base => do
      match ← g.link base with
      | some build => return .inl (build (← finish start))
      | none => return .inr base) g.limit base

end CodeCompletion.Parser
