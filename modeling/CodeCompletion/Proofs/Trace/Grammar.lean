import CodeCompletion.Proofs.Trace.Plan

/-! The plans of the grammar, and the balance of the mode in every run of the parser. An expression may
be read in a loop head, where `in` is no operator; the statements in it are those of function bodies,
where it is one again. -/
namespace CodeCompletion

namespace Parser

structure Grammar.Plans (g : Grammar) (h : Replacement → Grammar) : Type 1 where
  /-- Statements are read only where `in` is an operator. -/
  statement : ∀ {raises : Bool}, Plan raises true g.statement fun r => (h r).statement
  assignment : ∀ {raises operator : Bool}, Plan raises operator g.assignment fun r => (h r).assignment
  expression : ∀ {raises operator : Bool}, Plan raises operator g.expression fun r => (h r).expression
  binary : ∀ {raises operator : Bool} (least : Nat),
    Plan raises operator (g.binary least) fun r => (h r).binary least
  unary : ∀ {raises operator : Bool}, Plan raises operator g.unary fun r => (h r).unary
  chain : ∀ {raises operator : Bool}, Plan raises operator g.chain fun r => (h r).chain
  construct : ∀ {raises operator : Bool}, Plan raises operator g.construct fun r => (h r).construct

namespace Plan

variable {α : Type} {g : Grammar} {h : Replacement → Grammar} {raises operator : Bool}

section Primitives

def peek : PlainPlan raises operator Parser.peek := .look _

def peekNext : PlainPlan raises operator Parser.peekNext := .look _

def newlineBefore : PlainPlan raises operator Parser.newlineBefore := .look _

def currentSpan : PlainPlan raises operator Parser.currentSpan := .look _

def previousSpan : PlainPlan raises operator Parser.previousSpan := .look _

def arrowAhead : PlainPlan raises operator Parser.arrowAhead := .look _

def binaryOperator? : PlainPlan raises operator Parser.binaryOperator? := .look _

def finish (start : Span) : PlainPlan raises operator (Parser.finish start) :=
  previousSpan.bind fun _ => .pure _

def accept (token : Token) : PlainPlan raises operator (Parser.accept token) :=
  peek.bind fun _ => .ite (advance.bind fun _ => .pure _) (.pure _)

def require (token : Token) : PlainPlan raises operator (Parser.require token) :=
  peek.bind fun _ => .ite advance (.fail _)

def requireWord (word : String) : PlainPlan raises operator (Parser.requireWord word) :=
  peek.bind fun _ => .ite advance (.fail _)

def ident : PlainPlan raises operator Parser.ident := peek.bind fun got => by
  split
  · exact .ite (.fail _) (advance.bind fun _ => .pure _)
  · exact .fail _

def propertyName : PlainPlan raises operator Parser.propertyName := peek.bind fun got => by
  split
  · exact advance.bind fun _ => .pure _
  · exact .fail _

def semicolon : PlainPlan raises operator Parser.semicolon :=
  (accept _).bind fun _ => .ite (.pure _)
    (peek.bind fun _ => newlineBefore.bind fun _ => .ite (.pure _) (.fail _))

def optionalName (isDeclaration : Bool) (missing : SyntaxError.Reason) :
    PlainPlan raises operator (Parser.optionalName isDeclaration missing) := peek.bind fun got => by
  split
  · exact .ite (ident.bind fun _ => .pure _) (.ite (.fail _) (.pure _))
  · exact .ite (.fail _) (.pure _)

def modifies (word : String) : PlainPlan raises operator (Parser.modifies word) :=
  peek.bind fun _ => .ite (peekNext.bind fun next => by split <;> exact .pure _) (.pure _)

def accessor : PlainPlan raises operator Parser.accessor :=
  (modifies _).bind fun _ => .ite (advance.bind fun _ => .pure _) <|
    (modifies _).bind fun _ => .ite (advance.bind fun _ => .pure _) (.pure _)

def propertyAccessor : PlainPlan raises operator Parser.propertyAccessor := peek.bind fun got => by
  split
  all_goals
    refine (Plan.pure _).bind fun kind => peekNext.bind fun next => ?_
    split <;> exact .pure _

def unaryOperator? : PlainPlan raises operator Parser.unaryOperator? := peek.bind fun got => by
  split <;> exact .pure _

def updateOperator? : PlainPlan raises operator Parser.updateOperator? := peek.bind fun got => by
  split <;> exact .pure _

def assignmentOperator? : PlainPlan raises operator Parser.assignmentOperator? := peek.bind fun got => by
  split <;> exact .pure _

def startsLet : PlainPlan raises operator Parser.startsLet := peekNext.bind fun next => by
  split <;> exact .pure _

def bindingKind? : PlainPlan raises operator Parser.bindingKind? := peek.bind fun got => by
  split
  case h_3 => exact startsLet.bind fun _ => .pure _
  all_goals exact .pure _

def jumpLabel : PlainPlan raises operator Parser.jumpLabel :=
  let rest (label : Option String) : PlainPlan raises operator (do
      Parser.semicolon
      return label) := semicolon.bind fun _ => .pure _
  advance.bind fun _ => peek.bind fun got => by
    split
    · exact newlineBefore.bind fun _ => .ite (rest none) (ident.bind fun name => rest (some name.name))
    · exact rest none

end Primitives

def commaList {close : Token} {item : Parser (α × Bool)} {other : Replacement → Parser (α × Bool)}
    (each : Plan raises operator item other) : Plan raises operator (g.commaList close item)
      fun r => ((h r).upTo g.limit).commaList close (other r) :=
  loop (fun _ => (accept _).bind fun _ => .ite (.pure _) <| each.bind fun _ =>
    iteBind (.pure _) (accept _) fun _ => .ite (.pure _) <| (require _).bind fun _ => .pure _) _ _

variable (plans : g.Plans h)

section Functions

def computed : RulePlan raises operator g h Grammar.computed :=
  .calling g .computed <| (require _).bind fun _ => plans.expression.withIn.bind fun _ =>
    (require _).bind fun _ => .pure _

def block : RulePlan raises true g h Grammar.block := by
  refine .calling g .block <| (require _).bind fun _ => (collect (peek.bind fun token => ?_) _).bind
    fun _ => advance.bind fun _ => (finish _).bind fun _ => .pure _
  split
  · exact .pure _
  · exact .fail _
  · exact plans.statement.bind fun _ => .pure _

def param : RulePlan raises operator g h Grammar.param :=
  .calling g .param <| (accept _).bind fun _ => ident.bind fun _ =>
    iteBind (.pure _) (accept _) fun _ => iteBind plans.assignment.map (.pure _) fun _ => .pure _

def params : RulePlan raises operator g h Grammar.params :=
  .calling g .params <| (require _).bind fun _ => .withIn (commaList (param plans))

def functionBlock : RulePlan raises operator g h Grammar.functionBlock :=
  .calling g .functionBlock (block plans).withIn

def function (isDeclaration : Bool) : RulePlan raises operator g h (·.function isDeclaration) :=
  .calling g (.function isDeclaration) <| (requireWord _).bind fun _ => (accept _).bind fun _ =>
    (optionalName _ _).bind fun _ => (params plans).bind fun _ => (functionBlock plans).bind fun _ =>
    (finish _).bind fun _ => .pure _

def method (start : Span) : RulePlan raises operator g h (·.method start) :=
  .calling g (.method start) <| (params plans).bind fun _ => (functionBlock plans).bind fun _ =>
    (finish _).bind fun _ => .pure _

def arrowRest {start : Span} {params : List Param} : RulePlan raises operator g h fun g => (do
    if ← Parser.newlineBefore then Parser.fail .newlineBeforeArrow
    let _ ← Parser.require .arrow
    let body ←
      if (← Parser.peek) = .leftBrace then FunctionBody.block <$> g.functionBlock
      else FunctionBody.expr <$> g.assignment
    let span ← Parser.finish start
    return Expr.function span ⟨none, params, body, true, span⟩) :=
  newlineBefore.bind fun _ => when (.fail _) <| (require _).bind fun _ => peek.bind fun _ =>
    iteBind (functionBlock plans).map plans.assignment.map fun _ => (finish _).bind fun _ => .pure _

def arrow : RulePlan raises operator g h Grammar.arrow :=
  .calling g .arrow <| currentSpan.bind fun _ => peek.bind fun _ =>
    .ite ((params plans).bind fun _ => arrowRest plans) (ident.bind fun _ => arrowRest plans)

def propertyKey : RulePlan raises operator g h Grammar.propertyKey := by
  refine .calling g .propertyKey <| peek.bind fun token => ?_
  split
  case h_4 => exact (computed plans).map
  case h_5 => exact .fail _
  all_goals exact advance.bind fun _ => .pure _

def field {start : Span} {key : PropertyKey} {isStatic : Bool} : RulePlan raises operator g h fun g => (do
    let init ← if ← Parser.accept (.op "=") then some <$> Parser.withIn g.assignment else Pure.pure none
    Parser.semicolon
    let kind ← Pure.pure (MemberKind.field init)
    return (⟨key, isStatic, kind, ← Parser.finish start⟩ : ClassMember)) :=
  (accept _).bind fun _ => iteBind plans.assignment.withIn.map (.pure _) fun _ =>
    semicolon.bind fun _ => (Plan.pure _).bind fun _ => (finish _).bind fun _ => .pure _

def classMember : RulePlan raises operator g h Grammar.classMember :=
  .calling g .classMember <| currentSpan.bind fun _ => (modifies _).bind fun _ =>
    when advance <| accessor.bind fun _ => (accept _).bind fun _ => (propertyKey plans).bind fun _ =>
    peek.bind fun _ => .ite ((method plans _).withIn.map.bind fun _ => (finish _).bind fun _ => .pure _)
      (.ite (peek.bind fun _ => (Plan.fail _).bind fun _ => field plans) (field plans))

def classBody : RulePlan raises operator g h Grammar.classBody :=
  .calling g .classBody <| loop (fun _ => (accept _).bind fun _ => .ite (.pure _) <|
    (accept _).bind fun _ => .ite (.pure _) <| peek.bind fun _ => when (.fail _) <|
    (classMember plans).bind fun _ => .pure _) _ _

def classDef (isDeclaration : Bool) : RulePlan raises operator g h (·.class isDeclaration) :=
  .calling g (.classDef isDeclaration) <| (requireWord _).bind fun _ => (optionalName _ _).bind fun _ =>
    (accept _).bind fun _ => iteBind plans.chain.map (.pure _) fun _ => (require _).bind fun _ =>
    (classBody plans).bind fun _ => (finish _).bind fun _ => (finish _).bind fun _ => .pure _

end Functions

section Values

def spreadable : RulePlan raises operator g h Grammar.spreadable :=
  .calling g .spreadable <| peek.bind fun _ => .ite (advance.bind fun _ => plans.assignment.bind fun _ =>
    (finish _).bind fun _ => .pure _) plans.assignment

def arguments : RulePlan raises operator g h Grammar.arguments :=
  .calling g .arguments <| (require _).bind fun _ =>
    .withIn (commaList ((spreadable plans).bind fun _ => .pure _))

def elements : RulePlan raises operator g h Grammar.elements :=
  .calling g .elements <| loop (fun _ => (accept _).bind fun _ => .ite (.pure _) <|
    (accept _).bind fun _ => .ite (.pure _) <| (spreadable plans).bind fun _ =>
    (accept _).bind fun _ => .ite (.pure _) <| (require _).bind fun _ => .pure _) _ _

def methodValue (start : Span) : RulePlan raises operator g h (·.methodValue start) :=
  .calling g (.methodValue start) <| (method plans start).bind fun _ => .pure _

def propertyValue (start : Span) (isGenerator : Bool) (first : Token) :
    RulePlan raises operator g h (·.propertyValue start isGenerator first) := by
  refine .calling g (.propertyValue start isGenerator first) <| peek.bind fun _ =>
    .ite (methodValue plans start) <| .ite (.fail _) <| (accept _).bind fun _ =>
    .ite plans.assignment <| peek.bind fun token => ?_
  split
  case h_3 => exact .fail _
  all_goals exact .ite (peek.bind fun _ => .fail _) (previousSpan.bind fun _ => .pure _)

def plainProperty (start : Span) : RulePlan raises operator g h (·.plainProperty start) :=
  .calling g (.plainProperty start) <| (accept _).bind fun _ => peek.bind fun _ =>
    (propertyKey plans).bind fun _ => (propertyValue plans _ _ _).bind fun _ =>
    (finish _).bind fun _ => .pure _

def property : RulePlan raises operator g h Grammar.property := by
  refine .calling g .property <| currentSpan.bind fun start => propertyAccessor.bind fun kind => ?_
  split
  · exact advance.bind fun _ => (propertyKey plans).bind fun _ => (methodValue plans start).bind fun _ =>
      (finish _).bind fun _ => .pure _
  · exact plainProperty plans start

def properties : RulePlan raises operator g h Grammar.properties :=
  .calling g .properties <| (commaList (Plan.bind ((accept _).bind fun _ =>
    .ite (plans.assignment.bind fun _ => .pure _) (property plans).map) fun _ => .pure _)).bind
    fun _ => .pure _

def wordValue (word : String) : RulePlan raises operator g h (·.wordValue word) := by
  refine .calling g (.wordValue word) ?_
  unfold Grammar.wordValue
  split
  case h_6 => exact (function plans false).bind fun _ => .pure _
  case h_7 => exact (classDef plans false).bind fun _ => .pure _
  case h_8 => exact ident.bind fun _ => .pure _
  all_goals exact advance.bind fun _ => .pure _

def value : RulePlan raises operator g h Grammar.value := by
  refine .calling g .value <| currentSpan.bind fun start => peek.bind fun token => ?_
  split
  case h_1 => exact (wordValue plans _).bind fun _ => (finish _).bind fun _ => .pure _
  case h_6 =>
    exact advance.bind fun _ => plans.expression.withIn.bind fun _ => (require _).bind fun _ => .pure _
  case h_7 =>
    exact advance.bind fun _ => (elements plans).withIn.bind fun _ => (finish _).bind fun _ => .pure _
  case h_8 =>
    exact advance.bind fun _ => (properties plans).withIn.bind fun _ => (finish _).bind fun _ => .pure _
  case h_9 => exact .fail _
  all_goals exact advance.bind fun _ => (finish _).bind fun _ => .pure _

/-- Each link raises the depth, and none brings it back. -/
def constructorLink (callee : Expr) : RulePlan true operator g h (·.constructorLink callee) := by
  refine peek.bind fun token => ?_
  split
  · exact descend.bind fun _ => advance.bind fun _ => propertyName.bind fun _ =>
      previousSpan.bind fun _ => .pure _
  · exact descend.bind fun _ => (computed plans).bind fun _ => previousSpan.bind fun _ => .pure _
  · exact .pure _

def constructBody : RulePlan raises operator g h Grammar.constructRule :=
  (requireWord _).bind fun _ => Plan.bind (.levelled <| peek.bind fun _ =>
    iteBind plans.construct.deeper (value plans) fun _ => loop (constructorLink plans) _ _) fun _ =>
    peek.bind fun _ => iteBind (arguments plans) (.pure _) fun _ => (finish _).bind fun _ => .pure _

def link (base : Expr) : RulePlan true operator g h (·.link base) := by
  refine peek.bind fun token => ?_
  split
  · exact descend.bind fun _ => advance.bind fun _ => propertyName.bind fun _ => .pure _
  · refine descend.bind fun _ => advance.bind fun _ => peek.bind fun token => ?_
    split
    · exact (arguments plans).bind fun _ => .pure _
    · exact (computed plans).bind fun _ => .pure _
    · exact propertyName.bind fun _ => .pure _
  · exact descend.bind fun _ => (computed plans).bind fun _ => .pure _
  · exact descend.bind fun _ => (arguments plans).bind fun _ => .pure _
  · exact descend.bind fun _ => advance.bind fun _ => .pure _
  · exact .pure _

def construct : RulePlan raises operator g h Grammar.constructRule :=
  .calling g .construct (constructBody plans)

def chainBody : RulePlan raises operator g h Grammar.chainRule := by
  refine currentSpan.bind fun start => .levelled <| peek.bind fun _ =>
    iteBind (construct plans) (value plans) fun _ =>
    loop (fun base => (link plans base).bind fun found => ?_) _ _
  split
  · exact (finish _).bind fun _ => .pure _
  · exact .pure _

def chain : RulePlan raises operator g h Grammar.chainRule := .calling g .chain (chainBody plans)

end Values

section Operators

def update : RulePlan raises operator g h Grammar.postfixRule := by
  refine .calling g .update <| currentSpan.bind fun _ => (chain plans).bind fun _ =>
    updateOperator?.bind fun op => newlineBefore.bind fun newline => ?_
  split
  · exact when (.fail _) <| advance.bind fun _ => (finish _).bind fun _ => .pure _
  · exact .pure _

def unaryBody : RulePlan raises operator g h Grammar.unaryRule := by
  refine currentSpan.bind fun start => unaryOperator?.bind fun op => ?_
  split
  · exact advance.bind fun _ => plans.unary.deeper.bind fun _ => (finish _).bind fun _ => .pure _
  refine updateOperator?.bind fun op => ?_
  split
  · exact advance.bind fun _ => plans.unary.deeper.bind fun _ => when (.fail _) <|
      (finish _).bind fun _ => .pure _
  · exact update plans

def unary : RulePlan raises operator g h Grammar.unaryRule := .calling g .unary (unaryBody plans)

def binaryBody (least : Nat) : RulePlan raises operator g h (·.binaryRule least) := by
  refine .levelled <| (unary plans).bind fun _ =>
    loop (fun left => binaryOperator?.bind fun op => ?_) _ _
  split
  · exact .pure _
  · exact .ite (.pure _) <| descend.bind fun _ => advance.bind fun _ => (plans.binary _).bind fun _ =>
      .pure _

def binary (least : Nat) : RulePlan raises operator g h (·.binaryRule least) :=
  .calling g (.binary least) (binaryBody plans least)

def conditional : RulePlan raises operator g h Grammar.conditionalRule :=
  .calling g .conditional <| (binary plans 1).bind fun _ => (accept _).bind fun _ =>
    .ite (plans.assignment.withIn.bind fun _ => (require _).bind fun _ => plans.assignment.bind fun _ =>
      .pure _) (.pure _)

def assignmentBody : RulePlan raises operator g h Grammar.assignmentRule := by
  refine .deeper <| arrowAhead.bind fun _ => .ite (arrow plans) <|
    (conditional plans).bind fun _ => assignmentOperator?.bind fun op => ?_
  split
  · exact .pure _
  · exact when (.fail _) <| advance.bind fun _ => plans.assignment.bind fun _ => .pure _

def assignment : RulePlan raises operator g h Grammar.assignmentRule :=
  .calling g .assignment (assignmentBody plans)

def expressionBody : RulePlan raises operator g h Grammar.expressionRule :=
  (assignment plans).bind fun _ => peek.bind fun _ =>
    .ite ((collect ((accept _).bind fun _ => .ite (assignment plans).map (.pure _)) _).bind fun _ =>
      (finish _).bind fun _ => .pure _) (.pure _)

def expression : RulePlan raises operator g h Grammar.expressionRule :=
  .calling g .expression (expressionBody plans)

end Operators

section Statements

def declarator : RulePlan raises operator g h Grammar.declarator :=
  .calling g .declarator <| ident.bind fun _ => (accept _).bind fun _ =>
    iteBind plans.assignment.map (.pure _) fun _ => (finish _).bind fun _ => .pure _

def declarators : RulePlan raises operator g h Grammar.declarators :=
  .calling g .declarators <| loop (fun _ => (declarator plans).bind fun _ =>
    (accept _).bind fun _ => .ite (.pure _) (.pure _)) _ _

def condition : RulePlan raises operator g h Grammar.condition :=
  .calling g .condition <| (require _).bind fun _ => plans.expression.bind fun _ =>
    (require _).bind fun _ => .pure _

def returns : RulePlan raises operator g h Grammar.returnRule :=
  .calling g .returns <| advance.bind fun _ => peek.bind fun _ => newlineBefore.bind fun _ =>
    iteBind (.pure _) plans.expression.map fun _ => semicolon.bind fun _ => .pure _

def ifElse : RulePlan raises true g h Grammar.ifRule :=
  .calling g .ifElse <| advance.bind fun _ => (condition plans).bind fun _ => plans.statement.bind fun _ =>
    (accept _).bind fun _ => iteBind plans.statement.map (.pure _) fun _ => .pure _

/-- The only place where `in` stops being an operator. -/
def loopStart : RulePlan raises true g h Grammar.loopStart := by
  refine .calling g .loopStart <| currentSpan.bind fun start => bindingKind?.bind fun kind =>
    .withoutIn ?_
  split
  · exact advance.bind fun _ => (declarators plans).bind fun _ => (finish _).bind fun _ => .pure _
  · exact plans.expression.map

def forEachRest (left : LoopStart) (ofValues : Bool) :
    RulePlan raises true g h (·.forEachRest left ofValues) := by
  let rest : RulePlan false true g h fun g => (do
      let _ ← Parser.advance
      let right ← if ofValues then g.assignment else g.expression
      let _ ← Parser.require .rightParen
      let body ← g.statement
      return (Stmt.forEach · left right body ofValues)) :=
    advance.bind fun _ => iteBind plans.assignment plans.expression fun _ => (require _).bind fun _ =>
      plans.statement.bind fun _ => .pure _
  refine .calling g (.forEachRest left ofValues) ?_
  cases left with
  | bindings => exact when (.fail _) rest
  | expr => exact rest

def forRest (init : Option LoopStart) : RulePlan raises true g h (·.forRest init) :=
  .calling g (.forRest init) <| (require _).bind fun _ => peek.bind fun _ =>
    iteBind (.pure _) plans.expression.map fun _ => (require _).bind fun _ => peek.bind fun _ =>
    iteBind (.pure _) plans.expression.map fun _ => (require _).bind fun _ =>
    plans.statement.bind fun _ => .pure _

def loops : RulePlan raises true g h Grammar.forRule := by
  refine .calling g .loops <| advance.bind fun _ => (require _).bind fun _ => peek.bind fun _ =>
    .ite (forRest plans none) <| (loopStart plans).bind fun left => peek.bind fun token => ?_
  split
  · exact forEachRest plans left true
  · exact forEachRest plans left false
  · exact forRest plans (some left)

def whileLoop : RulePlan raises true g h Grammar.whileRule :=
  .calling g .whileLoop <| advance.bind fun _ => (condition plans).bind fun _ =>
    plans.statement.bind fun _ => .pure _

def doWhile : RulePlan raises true g h Grammar.doRule :=
  .calling g .doWhile <| advance.bind fun _ => plans.statement.bind fun _ => (requireWord _).bind fun _ =>
    (condition plans).bind fun _ => (accept _).bind fun _ => .pure _

def caseHead : RulePlan raises operator g h Grammar.caseHead :=
  .calling g .caseHead <| (accept _).bind fun _ => .ite plans.expression.map <|
    (accept _).bind fun _ => .ite (.pure _) <| peek.bind fun _ => .fail _

def switchCase : RulePlan raises true g h Grammar.switchCase := by
  refine .calling g .switchCase <| currentSpan.bind fun _ => (caseHead plans).bind fun _ =>
    (require _).bind fun _ => (collect (peek.bind fun token => ?_) _).bind fun _ =>
    (finish _).bind fun _ => .pure _
  split
  case h_5 => exact plans.statement.bind fun _ => .pure _
  all_goals exact .pure _

def switch : RulePlan raises true g h Grammar.switchRule :=
  .calling g .switch <| advance.bind fun _ => (condition plans).bind fun _ => (require _).bind fun _ =>
    (collect ((accept _).bind fun _ => .ite (.pure _) <| (switchCase plans).bind fun _ => .pure _)
      _).bind fun _ => .pure _

def catchClause : RulePlan raises true g h Grammar.catchClause :=
  let rest {param : Option Ident} {start : Span} : RulePlan false true g h fun g => (do
      let body ← g.block
      return (⟨param, body, ← Parser.finish start⟩ : CatchClause)) :=
    (block plans).bind fun _ => (finish _).bind fun _ => .pure _
  .calling g .catchClause <| advance.bind fun _ => (accept _).bind fun _ =>
    .ite (ident.bind fun _ => (require _).bind fun _ => (Plan.pure _).bind fun _ => rest)
      ((Plan.pure _).bind fun _ => rest)

def tryCatch : RulePlan raises true g h Grammar.tryRule :=
  .calling g .tryCatch <| advance.bind fun _ => (block plans).bind fun _ => peek.bind fun _ =>
    iteBind (catchClause plans).map (.pure _) fun _ => (accept _).bind fun _ =>
    iteBind (block plans).map (.pure _) fun _ => when (.fail _) (.pure _)

def throws : RulePlan raises operator g h Grammar.throwRule :=
  .calling g .throws <| advance.bind fun _ => newlineBefore.bind fun _ => when (.fail _) <|
    plans.expression.bind fun _ => semicolon.bind fun _ => .pure _

def declaration (kind : BindingKind) : RulePlan raises operator g h (·.declarationRule kind) :=
  .calling g (.declaration kind) <| advance.bind fun _ => (declarators plans).bind fun _ =>
    semicolon.bind fun _ => .pure _

def expressionStatement : RulePlan raises operator g h Grammar.expressionStatement :=
  .calling g .expressionStatement <| (expression plans).bind fun _ => semicolon.bind fun _ => .pure _

def wordStatement (word : String) : RulePlan raises true g h (·.wordStatement word) := by
  refine .calling g (.wordStatement word) ?_
  unfold Grammar.wordStatement
  split
  · exact declaration plans _
  · exact declaration plans _
  · exact (function plans true).bind fun _ => .pure _
  · exact (classDef plans true).bind fun _ => .pure _
  · exact returns plans
  · exact ifElse plans
  · exact loops plans
  · exact whileLoop plans
  · exact doWhile plans
  · exact switch plans
  · exact tryCatch plans
  · exact throws plans
  · exact jumpLabel.bind fun _ => .pure _
  · exact jumpLabel.bind fun _ => .pure _
  · exact advance.bind fun _ => semicolon.bind fun _ => .pure _
  · exact .fail _
  · exact .fail _
  · exact startsLet.bind fun _ => .ite (declaration plans _) <| peekNext.bind fun _ =>
      .ite (advance.bind fun _ => advance.bind fun _ => plans.statement.bind fun _ => .pure _)
        (expressionStatement plans)

def statementBody : RulePlan raises true g h Grammar.statementRule := by
  refine .deeper <| currentSpan.bind fun start => peek.bind fun token => ?_
  split
  · exact (block plans).bind fun _ => .pure _
  · exact advance.bind fun _ => .pure _
  · exact (wordStatement plans _).bind fun _ => (finish _).bind fun _ => .pure _
  · exact (expressionStatement plans).bind fun _ => (finish _).bind fun _ => .pure _

def program : RulePlan raises true g h Grammar.program :=
  .calling g .program <| currentSpan.bind fun _ =>
    (collect (peek.bind fun _ => .ite (.pure _) <| plans.statement.bind fun _ => .pure _) _).bind
    fun _ => currentSpan.bind fun _ => .pure _

end Statements

end Plan

def Grammar.plans : ∀ size, (Grammar.ofSize size).Plans (·.rules size)
  | 0 => ⟨.fail _, .fail _, .fail _, fun _ => .fail _, .fail _, .fail _, .fail _⟩
  | size + 1 =>
    let plans := Grammar.plans size
    let g := Grammar.ofSize size
    { statement := .call g .statement (Plan.statementBody plans) fun _ _ follows => follows size rfl
      assignment := .call g .assignment (Plan.assignmentBody plans) fun _ _ follows => follows size rfl
      expression := .call g .expression (Plan.expressionBody plans) fun _ _ follows => follows size rfl
      binary least := .call g (.binary least) (Plan.binaryBody plans least)
        fun _ _ follows => follows size rfl
      unary := .call g .unary (Plan.unaryBody plans) fun _ _ follows => follows size rfl
      chain := .call g .chain (Plan.chainBody plans) fun _ _ follows => follows size rfl
      construct := .call g .construct (Plan.constructBody plans) fun _ _ follows => follows size rfl }

end Parser

def parseTrace : List Lexeme → List Parser.Event
  | [] => []
  | first :: rest =>
    (Parser.Plan.program (Parser.Grammar.plans (rest.length + 1)) : Parser.Plan false true _ _).trace
      { previous := none, current := first, upcoming := rest, depth := 0, noIn := false }

theorem parseTrace_sound (ls : List Lexeme) : ∀ event ∈ parseTrace ls, event.Sound := by
  cases ls with
  | nil => simp [parseTrace]
  | cons first rest => exact Parser.Plan.sound _ _ (Nat.zero_le _) fun _ => rfl

theorem parseTrace_complete (first : Lexeme) (rest : List Lexeme) (r : Parser.Replacement)
    (nothing : r 0 = .empty) (limit : ∀ size, (r size).limit = size)
    (followed : ∀ size rule s, .call (Parser.Grammar.ofSize size) rule s ∈ parseTrace (first :: rest) →
      rule.Follows (r (size + 1)) (r size) s) :
    (r (rest.length + 1)).program ⟨none, first, rest, 0, false⟩ =
      (Parser.Grammar.ofSize (rest.length + 1)).program ⟨none, first, rest, 0, false⟩ := by
  have rules (size : Nat) :
      (r.rules size).upTo (Parser.Grammar.ofSize size).limit = r size := by
    cases size with
    | zero =>
      rw [nothing]
      rfl
    | succ size =>
      calc (r (size + 1)).upTo (size + 1)
        _ = (r (size + 1)).upTo (r (size + 1)).limit := by rw [limit]
        _ = r (size + 1) := rfl
  have each : ∀ event ∈ parseTrace (first :: rest), event.Followed r := by
    intro event member
    cases event with
    | call g rule s =>
      rintro size rfl
      rw [rules]
      exact followed size rule s member
    | nested | stands => trivial
  have same := Parser.Plan.run_eq_of_followed _ _ each
  rwa [rules] at same

/-- The mode of the parser is balanced. Wherever a rule of the grammar is called, it gives back the
depth and whether `in` is an operator if it succeeds; if it fails, the latter and no lesser depth. The
same holds of what is run one level deeper, whose last state has a level to be taken off. No state is
too deep. Where a statement or the start of a loop head is read, `in` is an operator, so that a loop
head gives back what it found when it makes `in` an operator at its end. The first event is the call
of the program, whose result is that of the whole, and no call is missing: whatever the rules that the
grammar refers back to do elsewhere, the result is the same if they do what they say in the calls of the
trace. -/
theorem parseTrace_balanced (ls : List Lexeme) :
    (∀ g rule s, .call g rule s ∈ parseTrace ls → Parser.Balanced s ((rule.parser g).2 s)) ∧
    (∀ α (p : Parser α) s, .nested p s ∈ parseTrace ls →
      Parser.Balanced s (p s) ∧ 0 < (Parser.lastState (p s)).depth) ∧
    (∀ s, .stands s ∈ parseTrace ls → s.depth ≤ Parser.maxDepth) ∧
    (∀ g s, .call g .statement s ∈ parseTrace ls → s.noIn = false) ∧
    (∀ g s, .call g .loopStart s ∈ parseTrace ls →
      s.noIn = false ∧ (Parser.lastState (g.loopStart s)).noIn = s.noIn) ∧
    ∀ first rest, ls = first :: rest → ∃ g s later, parseTrace ls = .call g .program s :: later ∧
      s = ⟨none, first, rest, 0, false⟩ ∧
      (∀ program, parseLexemes ls = .ok program ↔ ∃ t, g.program s = .ok program t) ∧
      (∀ e, parseLexemes ls = .error e ↔ ∃ t, g.program s = .error e t) ∧
      ∀ other : Nat → Parser.Grammar, other 0 = .empty → (∀ size, (other size).limit = size) →
        (∀ size rule t, .call (Parser.Grammar.ofSize size) rule t ∈ parseTrace ls →
          rule.Follows (other (size + 1)) (other size) t) →
        (other (rest.length + 1)).program s = g.program s := by
  have sound := parseTrace_sound ls
  refine ⟨fun g rule s member => (sound _ member).2, fun α p s member => sound _ member,
    fun s member => sound _ member, fun g s member => (sound _ member).1 rfl, fun g s member => ?_, ?_⟩
  · obtain ⟨needed, balanced⟩ := sound _ member
    exact ⟨needed rfl, balanced.noIn⟩
  · rintro first rest rfl
    let start : Parser.State := ⟨none, first, rest, 0, false⟩
    have result : (∀ program, parseLexemes (first :: rest) = .ok program ↔
          ∃ t, (Parser.Grammar.ofSize (rest.length + 1)).program start = .ok program t) ∧
        ∀ e, parseLexemes (first :: rest) = .error e ↔
          ∃ t, (Parser.Grammar.ofSize (rest.length + 1)).program start = .error e t := by
      unfold parseLexemes
      dsimp only
      cases (Parser.Grammar.ofSize (rest.length + 1)).program start <;> simp
    exact ⟨_, _, _, rfl, rfl, result.1, result.2, parseTrace_complete first rest⟩

/-- A function in a loop head: `in` is an operator in the statement of its body, and the depth is that
of the loop again in the statement that the loop repeats. -/
example : ((lexText "for (x = function () \x7b a in b \x7d, 1; ; ) y").toOption.map fun ls =>
    (parseTrace ls).filterMap fun event =>
      match event with
      | .call _ .statement s => some (s.depth, s.noIn)
      | _ => none) = some [(0, false), (3, false), (1, false)] := by
  decide +kernel

end CodeCompletion
