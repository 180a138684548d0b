import CodeCompletion.Number.Layout
import CodeCompletion.Text.Position

/-! Syntax trees. They keep what completion looks at: names, kinds of literals, structure, and a
span on every statement, expression and clause. Operators are kept as their text, and a spread in
an object literal leaves no trace. -/
namespace CodeCompletion

structure Ident where
  name : String
  span : Span
deriving DecidableEq

inductive Literal where
  | null
  | bool (value : Bool)
  | num (value : Binary64)
  | str (value : String)
  /-- The raw text between the backticks. -/
  | template (raw : String)
  | regex (pattern flags : String)
deriving DecidableEq

/-- The built-in constructor whose instances a literal evaluates to. -/
def Literal.typeName? : Literal → Option String
  | null => none
  | bool _ => some "Boolean"
  | num _ => some "Number"
  | str _ | template _ => some "String"
  | regex _ _ => some "RegExp"

inductive BindingKind where
  | varBinding
  | letBinding
  | constBinding
deriving DecidableEq

inductive PropertyKind where
  | value
  | getter
  | setter
deriving DecidableEq

mutual

structure Block where
  body : List Stmt
  span : Span

structure Declarator where
  target : Ident
  init : Option Expr
  span : Span

inductive LoopStart where
  | bindings (span : Span) (kind : BindingKind) (declarators : List Declarator)
  | expr (value : Expr)

structure CatchClause where
  param : Option Ident
  body : Block
  span : Span

structure SwitchCase where
  /-- `none` for the default case. -/
  test : Option Expr
  body : List Stmt
  span : Span

structure Param where
  name : Ident
  fallback : Option Expr
  /-- Whether it takes all remaining arguments. -/
  isRest : Bool

inductive FunctionBody where
  | block (block : Block)
  /-- The body of an arrow without braces. -/
  | expr (value : Expr)

structure Function where
  name : Option Ident
  params : List Param
  body : FunctionBody
  isArrow : Bool
  span : Span

inductive PropertyKey where
  | ident (name : String)
  | str (value : String)
  | num (value : Binary64)
  | computed (value : Expr)

inductive MemberKind where
  | constructor (function : Function)
  | method (function : Function)
  | getter (function : Function)
  | setter (function : Function)
  | field (init : Option Expr)

structure ClassMember where
  key : PropertyKey
  isStatic : Bool
  kind : MemberKind
  span : Span

structure Class where
  name : Option Ident
  parent : Option Expr
  members : List ClassMember
  /-- The braces and what is between them. -/
  bodySpan : Span
  span : Span

structure Property where
  key : PropertyKey
  value : Expr
  kind : PropertyKind
  span : Span

inductive MemberName where
  | name (ident : Ident)
  | computed (value : Expr)

inductive Expr where
  | ident (span : Span) (name : String)
  | thisRef (span : Span)
  | superRef (span : Span)
  | literal (span : Span) (value : Literal)
  /-- `none` marks a hole. -/
  | array (span : Span) (elements : List (Option Expr))
  | object (span : Span) (properties : List Property)
  | function (span : Span) (value : Function)
  | classValue (span : Span) (value : Class)
  | unary (span : Span) (op : String) (operand : Expr)
  | update (span : Span) (op : String) (isPrefix : Bool) (operand : Expr)
  | binary (span : Span) (op : String) (left right : Expr)
  | assign (span : Span) (op : String) (target value : Expr)
  | conditional (span : Span) (test consequent alternate : Expr)
  | call (span : Span) (callee : Expr) (arguments : List Expr) (isOptional : Bool)
  | construct (span : Span) (callee : Expr) (arguments : List Expr)
  | member (span : Span) (object : Expr) (property : MemberName) (isOptional : Bool)
  | sequence (span : Span) (members : List Expr)
  | spread (span : Span) (operand : Expr)

inductive Stmt where
  | declare (span : Span) (kind : BindingKind) (declarators : List Declarator)
  | function (span : Span) (value : Function)
  | classDeclaration (span : Span) (value : Class)
  | returns (span : Span) (value : Option Expr)
  | ifElse (span : Span) (test : Expr) (consequent : Stmt) (alternate : Option Stmt)
  | block (span : Span) (block : Block)
  | expr (span : Span) (value : Expr)
  | tryCatch (span : Span) (block : Block) (handler : Option CatchClause)
      (finalizer : Option Block)
  | forLoop (span : Span) (init : Option LoopStart) (test update : Option Expr) (body : Stmt)
  /-- A loop over keys, or over values when `ofValues` is set. -/
  | forEach (span : Span) (left : LoopStart) (right : Expr) (body : Stmt) (ofValues : Bool)
  | whileLoop (span : Span) (test : Expr) (body : Stmt)
  | doWhile (span : Span) (body : Stmt) (test : Expr)
  | switch (span : Span) (discriminant : Expr) (cases : List SwitchCase)
  | throws (span : Span) (value : Expr)
  | breaks (span : Span) (label : Option String)
  | continues (span : Span) (label : Option String)
  | labeled (span : Span) (label : String) (body : Stmt)
  | empty (span : Span)
  | debugger (span : Span)

end

structure Program where
  body : List Stmt
  span : Span

def Expr.span : Expr → Span
  | .ident span _ | .thisRef span | .superRef span | .literal span _ | .array span _
  | .object span _ | .function span _ | .classValue span _ | .unary span _ _
  | .update span _ _ _ | .binary span _ _ _ | .assign span _ _ _ | .conditional span _ _ _
  | .call span _ _ _ | .construct span _ _ | .member span _ _ _ | .sequence span _
  | .spread span _ => span

def Stmt.span : Stmt → Span
  | .declare span _ _ | .function span _ | .classDeclaration span _ | .returns span _
  | .ifElse span _ _ _ | .block span _ | .expr span _ | .tryCatch span _ _ _
  | .forLoop span _ _ _ _ | .forEach span _ _ _ _ | .whileLoop span _ _ | .doWhile span _ _
  | .switch span _ _ | .throws span _ | .breaks span _ | .continues span _
  | .labeled span _ _ | .empty span | .debugger span => span

def FunctionBody.span : FunctionBody → Span
  | .block braces => braces.span
  | .expr value => value.span

/-- The name of a property, when it can be told without running the program. -/
def PropertyKey.name? : PropertyKey → Option String
  | .ident name => some name
  | .str value => some value
  | .num value => some value.key
  | .computed _ => none

def Expr.isTarget : Expr → Bool
  | .ident _ _ | .member _ _ _ _ => true
  | _ => false

/-- The names along `a.b.c` or `this.b.c`; `none` when a part is not a plain name. -/
def Expr.path? : Expr → Option (List String)
  | .ident _ name => some [name]
  | .thisRef _ => some ["this"]
  | .member _ base (.name part) _ => base.path?.map (· ++ [part.name])
  | _ => none

end CodeCompletion
