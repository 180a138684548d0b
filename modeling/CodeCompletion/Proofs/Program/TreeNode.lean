import CodeCompletion.Program.Tree
import Mathlib.Logic.Relation

/-! One view of the nodes of a syntax tree, whatever their types. A node's children are the
nodes right below it, in the order of the tree's fields; names, plain keys, parameters and
loop heads are no nodes, and what they hold counts as right below. -/
namespace CodeCompletion

inductive TreeNode where
  | program (value : Program)
  | stmt (value : Stmt)
  | block (value : Block)
  | declarator (value : Declarator)
  | catchClause (value : CatchClause)
  | switchCase (value : SwitchCase)
  | function (value : Function)
  | classDef (value : Class)
  | member (value : ClassMember)
  | property (value : Property)
  | expr (value : Expr)

namespace TreeNode

def span : TreeNode → Span
  | program value => value.span
  | stmt value => value.span
  | block value => value.span
  | declarator value => value.span
  | catchClause value => value.span
  | switchCase value => value.span
  | function value => value.span
  | classDef value => value.span
  | member value => value.span
  | property value => value.span
  | expr value => value.span

def stmts (body : List Stmt) : List TreeNode := body.map stmt

def exprs (values : List Expr) : List TreeNode := values.map expr

def exprs? (value : Option Expr) : List TreeNode := exprs value.toList

def ofLoopStart : LoopStart → List TreeNode
  | .bindings _ _ declarators => declarators.map declarator
  | .expr value => [expr value]

def ofKey : PropertyKey → List TreeNode
  | .computed value => [expr value]
  | _ => []

def ofMemberName : MemberName → List TreeNode
  | .name _ => []
  | .computed value => [expr value]

def ofParams (params : List Param) : List TreeNode := params.flatMap fun p => exprs? p.fallback

def ofFunctionBody : FunctionBody → List TreeNode
  | .block braces => [block braces]
  | .expr value => [expr value]

def ofMemberKind : MemberKind → List TreeNode
  | .constructor value | .method value | .getter value | .setter value => [function value]
  | .field init => exprs? init

def ofStmt : Stmt → List TreeNode
  | .declare _ _ declarators => declarators.map declarator
  | .function _ value => [function value]
  | .classDeclaration _ value => [classDef value]
  | .returns _ value => exprs? value
  | .ifElse _ test consequent alternate =>
    expr test :: stmt consequent :: stmts alternate.toList
  | .block _ braces => [block braces]
  | .expr _ value => [expr value]
  | .tryCatch _ body handler finalizer =>
    block body :: (handler.toList.map catchClause ++ finalizer.toList.map block)
  | .forLoop _ init test update body =>
    init.toList.flatMap ofLoopStart ++ (exprs? test ++ (exprs? update ++ [stmt body]))
  | .forEach _ left right body _ => ofLoopStart left ++ [expr right, stmt body]
  | .whileLoop _ test body => [expr test, stmt body]
  | .doWhile _ body test => [stmt body, expr test]
  | .switch _ discriminant cases => expr discriminant :: cases.map switchCase
  | .throws _ value => [expr value]
  | .breaks _ _ | .continues _ _ | .empty _ | .debugger _ => []
  | .labeled _ _ body => [stmt body]

def ofExpr : Expr → List TreeNode
  | .ident _ _ | .thisRef _ | .superRef _ | .literal _ _ => []
  | .array _ elements => exprs (elements.filterMap id)
  | .object _ properties => properties.map property
  | .function _ value => [function value]
  | .classValue _ value => [classDef value]
  | .unary _ _ operand | .update _ _ _ operand | .spread _ operand => [expr operand]
  | .binary _ _ left right | .assign _ _ left right => [expr left, expr right]
  | .conditional _ test consequent alternate => [expr test, expr consequent, expr alternate]
  | .call _ callee arguments _ | .construct _ callee arguments =>
    expr callee :: exprs arguments
  | .member _ object name _ => expr object :: ofMemberName name
  | .sequence _ members => exprs members

def children : TreeNode → List TreeNode
  | program value => stmts value.body
  | stmt value => ofStmt value
  | block value => stmts value.body
  | declarator value => exprs? value.init
  | catchClause value => [block value.body]
  | switchCase value => exprs? value.test ++ stmts value.body
  | function value => ofParams value.params ++ ofFunctionBody value.body
  | classDef value => exprs? value.parent ++ value.members.map member
  | member value => ofKey value.key ++ ofMemberKind value.kind
  | property value => ofKey value.key ++ [expr value.value]
  | expr value => ofExpr value

/-- Whether the children stand one after the other in the text. The function of a method
starts where its key does, so that the parts of a property or class member may overlap. -/
def isSequential : TreeNode → Bool
  | member _ | property _ => false
  | _ => true

def isStatement : TreeNode → Bool
  | stmt _ | block _ | catchClause _ | switchCase _ => true
  | _ => false

def Below : TreeNode → TreeNode → Prop := Relation.ReflTransGen fun n c => c ∈ n.children

theorem Below.child {n c m : TreeNode} (member : c ∈ n.children) (path : Below c m) : Below n m :=
  Relation.ReflTransGen.head member path

/-- A node at or below another one, reached through statements alone. -/
def Enclosed : TreeNode → TreeNode → Prop :=
  Relation.ReflTransGen fun n c => c ∈ n.children ∧ c.isStatement = true

theorem Enclosed.below {n m : TreeNode} (path : Enclosed n m) : Below n m :=
  Relation.ReflTransGen.mono (fun _ _ step => step.1) _ _ path

end TreeNode

end CodeCompletion
