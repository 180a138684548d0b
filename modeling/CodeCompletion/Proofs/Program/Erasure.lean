import CodeCompletion.Program.Tree

/-! Syntax trees without their spans. Two trees are equal once their spans are erased when they
differ in nothing but where their nodes lie in a text. -/
namespace CodeCompletion

def Ident.erase (name : Ident) : Ident := { name with span := default }

mutual

def Block.erase : Block → Block
  | ⟨body, _⟩ => ⟨eraseStmts body, default⟩

def Declarator.erase : Declarator → Declarator
  | ⟨target, init, _⟩ => ⟨target.erase, eraseExpr? init, default⟩

def LoopStart.erase : LoopStart → LoopStart
  | .bindings _ kind declarators => .bindings default kind (eraseDeclarators declarators)
  | .expr value => .expr value.erase

def CatchClause.erase : CatchClause → CatchClause
  | ⟨param, body, _⟩ => ⟨param.map Ident.erase, body.erase, default⟩

def SwitchCase.erase : SwitchCase → SwitchCase
  | ⟨test, body, _⟩ => ⟨eraseExpr? test, eraseStmts body, default⟩

def Param.erase : Param → Param
  | ⟨name, fallback, isRest⟩ => ⟨name.erase, eraseExpr? fallback, isRest⟩

def FunctionBody.erase : FunctionBody → FunctionBody
  | .block block => .block block.erase
  | .expr value => .expr value.erase

def Function.erase : Function → Function
  | ⟨name, params, body, isArrow, _⟩ =>
    ⟨name.map Ident.erase, eraseParams params, body.erase, isArrow, default⟩

def PropertyKey.erase : PropertyKey → PropertyKey
  | .computed value => .computed value.erase
  | .ident name => .ident name
  | .str value => .str value
  | .num value => .num value

def MemberKind.erase : MemberKind → MemberKind
  | .constructor value => .constructor value.erase
  | .method value => .method value.erase
  | .getter value => .getter value.erase
  | .setter value => .setter value.erase
  | .field init => .field (eraseExpr? init)

def ClassMember.erase : ClassMember → ClassMember
  | ⟨key, isStatic, kind, _⟩ => ⟨key.erase, isStatic, kind.erase, default⟩

def Class.erase : Class → Class
  | ⟨name, parent, members, _, _⟩ =>
    ⟨name.map Ident.erase, eraseExpr? parent, eraseMembers members, default, default⟩

def Property.erase : Property → Property
  | ⟨key, value, kind, _⟩ => ⟨key.erase, value.erase, kind, default⟩

def MemberName.erase : MemberName → MemberName
  | .name ident => .name ident.erase
  | .computed value => .computed value.erase

def Expr.erase : Expr → Expr
  | .ident _ name => .ident default name
  | .thisRef _ => .thisRef default
  | .superRef _ => .superRef default
  | .literal _ value => .literal default value
  | .array _ elements => .array default (eraseElements elements)
  | .object _ properties => .object default (eraseProperties properties)
  | .function _ value => .function default value.erase
  | .classValue _ value => .classValue default value.erase
  | .unary _ op operand => .unary default op operand.erase
  | .update _ op isPrefix operand => .update default op isPrefix operand.erase
  | .binary _ op left right => .binary default op left.erase right.erase
  | .assign _ op target value => .assign default op target.erase value.erase
  | .conditional _ test consequent alternate =>
    .conditional default test.erase consequent.erase alternate.erase
  | .call _ callee arguments isOptional =>
    .call default callee.erase (eraseExprs arguments) isOptional
  | .construct _ callee arguments => .construct default callee.erase (eraseExprs arguments)
  | .member _ object property isOptional =>
    .member default object.erase property.erase isOptional
  | .sequence _ members => .sequence default (eraseExprs members)
  | .spread _ operand => .spread default operand.erase

def Stmt.erase : Stmt → Stmt
  | .declare _ kind declarators => .declare default kind (eraseDeclarators declarators)
  | .function _ value => .function default value.erase
  | .classDeclaration _ value => .classDeclaration default value.erase
  | .returns _ value => .returns default (eraseExpr? value)
  | .ifElse _ test consequent alternate =>
    .ifElse default test.erase consequent.erase (eraseStmt? alternate)
  | .block _ block => .block default block.erase
  | .expr _ value => .expr default value.erase
  | .tryCatch _ block handler finalizer =>
    .tryCatch default block.erase (eraseCatchClause? handler) (eraseBlock? finalizer)
  | .forLoop _ init test update body =>
    .forLoop default (eraseLoopStart? init) (eraseExpr? test) (eraseExpr? update) body.erase
  | .forEach _ left right body ofValues =>
    .forEach default left.erase right.erase body.erase ofValues
  | .whileLoop _ test body => .whileLoop default test.erase body.erase
  | .doWhile _ body test => .doWhile default body.erase test.erase
  | .switch _ discriminant cases => .switch default discriminant.erase (eraseCases cases)
  | .throws _ value => .throws default value.erase
  | .breaks _ label => .breaks default label
  | .continues _ label => .continues default label
  | .labeled _ label body => .labeled default label body.erase
  | .empty _ => .empty default
  | .debugger _ => .debugger default

def eraseStmts : List Stmt → List Stmt
  | [] => []
  | head :: rest => head.erase :: eraseStmts rest

def eraseExprs : List Expr → List Expr
  | [] => []
  | head :: rest => head.erase :: eraseExprs rest

def eraseElements : List (Option Expr) → List (Option Expr)
  | [] => []
  | head :: rest => eraseExpr? head :: eraseElements rest

def eraseDeclarators : List Declarator → List Declarator
  | [] => []
  | head :: rest => head.erase :: eraseDeclarators rest

def eraseParams : List Param → List Param
  | [] => []
  | head :: rest => head.erase :: eraseParams rest

def eraseMembers : List ClassMember → List ClassMember
  | [] => []
  | head :: rest => head.erase :: eraseMembers rest

def eraseProperties : List Property → List Property
  | [] => []
  | head :: rest => head.erase :: eraseProperties rest

def eraseCases : List SwitchCase → List SwitchCase
  | [] => []
  | head :: rest => head.erase :: eraseCases rest

def eraseExpr? : Option Expr → Option Expr
  | none => none
  | some value => some value.erase

def eraseStmt? : Option Stmt → Option Stmt
  | none => none
  | some value => some value.erase

def eraseLoopStart? : Option LoopStart → Option LoopStart
  | none => none
  | some value => some value.erase

def eraseCatchClause? : Option CatchClause → Option CatchClause
  | none => none
  | some value => some value.erase

def eraseBlock? : Option Block → Option Block
  | none => none
  | some value => some value.erase

end

attribute [simp] Block.erase Declarator.erase LoopStart.erase CatchClause.erase SwitchCase.erase
  Param.erase FunctionBody.erase Function.erase PropertyKey.erase MemberKind.erase
  ClassMember.erase Class.erase Property.erase MemberName.erase Expr.erase Stmt.erase

section Lists

@[simp] theorem eraseStmts_eq (body : List Stmt) : eraseStmts body = body.map Stmt.erase := by
  induction body with
  | nil => rfl
  | cons head rest ih => simp [eraseStmts,ih]

@[simp] theorem eraseExprs_eq (values : List Expr) : eraseExprs values = values.map Expr.erase := by
  induction values with
  | nil => rfl
  | cons head rest ih => simp [eraseExprs,ih]

@[simp] theorem eraseExpr?_eq (value : Option Expr) : eraseExpr? value = value.map Expr.erase := by
  cases value <;> rfl

@[simp] theorem eraseElements_eq (elements : List (Option Expr)) :
    eraseElements elements = elements.map (Option.map Expr.erase) := by
  induction elements with
  | nil => rfl
  | cons head rest ih => simp [eraseElements,ih]

@[simp] theorem eraseDeclarators_eq (declarators : List Declarator) :
    eraseDeclarators declarators = declarators.map Declarator.erase := by
  induction declarators with
  | nil => rfl
  | cons head rest ih => simp only [eraseDeclarators,ih,List.map_cons]

@[simp] theorem eraseParams_eq (params : List Param) :
    eraseParams params = params.map Param.erase := by
  induction params with
  | nil => rfl
  | cons head rest ih => simp only [eraseParams,ih,List.map_cons]

@[simp] theorem eraseMembers_eq (members : List ClassMember) :
    eraseMembers members = members.map ClassMember.erase := by
  induction members with
  | nil => rfl
  | cons head rest ih => simp only [eraseMembers,ih,List.map_cons]

@[simp] theorem eraseProperties_eq (properties : List Property) :
    eraseProperties properties = properties.map Property.erase := by
  induction properties with
  | nil => rfl
  | cons head rest ih => simp only [eraseProperties,ih,List.map_cons]

@[simp] theorem eraseCases_eq (cases : List SwitchCase) :
    eraseCases cases = cases.map SwitchCase.erase := by
  induction cases with
  | nil => rfl
  | cons head rest ih => simp only [eraseCases,ih,List.map_cons]

@[simp] theorem eraseStmt?_eq (value : Option Stmt) : eraseStmt? value = value.map Stmt.erase := by
  cases value <;> rfl

@[simp] theorem eraseLoopStart?_eq (value : Option LoopStart) :
    eraseLoopStart? value = value.map LoopStart.erase := by
  cases value <;> rfl

@[simp] theorem eraseCatchClause?_eq (value : Option CatchClause) :
    eraseCatchClause? value = value.map CatchClause.erase := by
  cases value <;> rfl

@[simp] theorem eraseBlock?_eq (value : Option Block) :
    eraseBlock? value = value.map Block.erase := by
  cases value <;> rfl

end Lists

theorem isTarget_erase (e : Expr) : e.erase.isTarget = e.isTarget := by
  cases e <;> simp [Expr.isTarget]

end CodeCompletion
