import CodeCompletion.Analysis.Value

/-! The parts of a tree that an analysis looks at. From a viewpoint, each statement and expression
has parts that are visited after it: declarations always, but function bodies, branches, loop
bodies and arguments only around the caret. A part carries the depth at which what it declares is
found. -/
namespace CodeCompletion

structure Viewpoint where
  caret : Position
  /-- Whether all blocks are entered, those of nested functions excepted. -/
  everyBlock : Bool

namespace Viewpoint

def isIn (v : Viewpoint) (span : Span) : Bool :=
  span.contains v.caret

/-- Whether a block, branch or loop body is entered. -/
def opens (v : Viewpoint) (span : Span) : Bool :=
  v.everyBlock || v.isIn span

end Viewpoint

inductive Node where
  | stmt (value : Stmt)
  | expr (value : Expr)

structure Task where
  node : Node
  depth : Nat

namespace Task

def stmts (depth : Nat) (body : List Stmt) : List Task :=
  body.map (⟨.stmt ·, depth⟩)

def exprs (depth : Nat) (values : List Expr) : List Task :=
  values.map (⟨.expr ·, depth⟩)

def inits (depth : Nat) (declarators : List Declarator) : List Task :=
  exprs depth (declarators.filterMap (·.init))

/-- The body of a branch or loop, one level deeper. -/
def branch (v : Viewpoint) (depth : Nat) (body : Stmt) : List Task :=
  if v.opens body.span then
    match body with
    | .block _ block => stmts (depth + 1) block.body
    | _ => [⟨.stmt body, depth + 1⟩]
  else []

def block (v : Viewpoint) (depth : Nat) (block : Block) : List Task :=
  if v.opens block.span then stmts (depth + 1) block.body else []

def functionBody (v : Viewpoint) (depth : Nat) (function : Function) : List Task :=
  if v.isIn function.body.span then
    match function.body with
    | .block block => stmts (depth + 1) block.body
    | .expr value => [⟨.expr value, depth + 1⟩]
  else []

def memberBody (v : Viewpoint) (depth : Nat) (member : ClassMember) : List Task :=
  match member.kind with
  | .constructor function | .method function | .getter function | .setter function =>
    functionBody v depth function
  | .field (some init) => if v.isIn init.span then [⟨.expr init, depth + 1⟩] else []
  | .field none => []

def classBody (v : Viewpoint) (depth : Nat) (definition : Class) : List Task :=
  if v.isIn definition.bodySpan then definition.members.flatMap (memberBody v depth)
  else []

def ofStmt (v : Viewpoint) (depth : Nat) : Stmt → List Task
  | .declare _ _ declarators => inits depth declarators
  | .function _ function => functionBody v depth function
  | .classDeclaration _ definition => classBody v depth definition
  | .returns _ (some value) | .throws _ value | .expr _ value => exprs depth [value]
  | .ifElse _ test consequent alternate =>
    exprs depth [test] ++ branch v depth consequent ++
      (alternate.elim [] (branch v depth))
  | .block _ body => block v depth body
  | .tryCatch _ body handler finalizer =>
    block v depth body ++ handler.elim [] (fun clause => block v depth clause.body) ++
      finalizer.elim [] (block v depth)
  | .forLoop _ init _ _ body =>
    (match init with
      | some (.bindings _ _ declarators) => inits depth declarators
      | some (.expr value) => exprs depth [value]
      | none => []) ++ branch v depth body
  | .forEach _ _ _ body _ | .whileLoop _ _ body | .doWhile _ body _ => branch v depth body
  | .switch _ _ cases =>
    cases.flatMap fun clause =>
      if v.opens clause.span then stmts (depth + 1) clause.body else []
  | .labeled _ _ body => stmts depth [body]
  | .returns _ none | .breaks _ _ | .continues _ _ | .empty _ | .debugger _ => []

def ofExpr (v : Viewpoint) (depth : Nat) : Expr → List Task
  | .assign _ _ _ value => exprs depth [value]
  | .call span callee arguments _ =>
    exprs depth (callee :: if v.isIn span then arguments else [])
  | .construct span _ arguments => exprs depth (if v.isIn span then arguments else [])
  | .function _ function => functionBody v depth function
  | .classValue _ definition => classBody v depth definition
  | .object span properties =>
    exprs depth (if v.isIn span then properties.map (·.value) else [])
  | .array span elements => exprs depth (if v.isIn span then elements.filterMap id else [])
  | .member _ base _ _ => exprs depth [base]
  | .sequence _ members => exprs depth members
  | .conditional _ test consequent alternate => exprs depth [test, consequent, alternate]
  | .binary _ _ left right => exprs depth [left, right]
  | .unary _ _ operand | .spread _ operand => exprs depth [operand]
  | .ident _ _ | .thisRef _ | .superRef _ | .literal _ _ | .update _ _ _ _ => []

def parts (v : Viewpoint) (task : Task) : List Task :=
  match task.node with
  | .stmt value => ofStmt v task.depth value
  | .expr value => ofExpr v task.depth value

noncomputable def size (task : Task) : Nat :=
  match task.node with
  | .stmt value => sizeOf value
  | .expr value => sizeOf value

noncomputable def totalSize (tasks : List Task) : Nat :=
  tasks.foldr (fun task rest => task.size + rest) 0

end Task

end CodeCompletion
