import CodeCompletion.Analysis.Task

/-! The parts of a node together are smaller than the node, so following parts comes to an end. -/
namespace CodeCompletion.Task

@[simp] theorem totalSize_nil : totalSize [] = 0 := rfl

@[simp] theorem totalSize_cons (task : Task) (rest : List Task) :
    totalSize (task :: rest) = task.size + totalSize rest := rfl

@[simp] theorem totalSize_append (xs ys : List Task) :
    totalSize (xs ++ ys) = totalSize xs + totalSize ys := by
  induction xs with
  | nil => exact (Nat.zero_add _).symm
  | cons head rest ih => rw [List.cons_append,totalSize_cons,totalSize_cons,ih,Nat.add_assoc]

theorem size_stmt (value : Stmt) (depth : Nat) :
    size ⟨.stmt value, depth⟩ = sizeOf value := rfl

theorem size_expr (value : Expr) (depth : Nat) :
    size ⟨.expr value, depth⟩ = sizeOf value := rfl

theorem totalSize_stmts (depth : Nat) (body : List Stmt) :
    totalSize (stmts depth body) < sizeOf body := by
  induction body with
  | nil => exact Nat.lt_of_lt_of_eq Nat.one_pos List.nil.sizeOf_spec.symm
  | cons head rest ih =>
    have : totalSize (stmts depth (head :: rest)) =
        sizeOf head + totalSize (stmts depth rest) := totalSize_cons ..
    rw [this,List.cons.sizeOf_spec]
    omega

theorem totalSize_exprs_cons (depth : Nat) (head : Expr) (rest : List Expr) :
    totalSize (exprs depth (head :: rest)) = sizeOf head + totalSize (exprs depth rest) :=
  totalSize_cons ..

theorem totalSize_exprs_nil (depth : Nat) : totalSize (exprs depth []) = 0 := rfl

theorem totalSize_exprs (depth : Nat) (values : List Expr) :
    totalSize (exprs depth values) < sizeOf values := by
  induction values with
  | nil => exact Nat.lt_of_lt_of_eq Nat.one_pos List.nil.sizeOf_spec.symm
  | cons head rest ih =>
    rw [totalSize_exprs_cons,List.cons.sizeOf_spec]
    omega

theorem totalSize_values (depth : Nat) (properties : List Property) :
    totalSize (exprs depth (properties.map (·.value))) < sizeOf properties := by
  induction properties with
  | nil => exact Nat.lt_of_lt_of_eq Nat.one_pos List.nil.sizeOf_spec.symm
  | cons head rest ih =>
    cases head
    simp only [List.map_cons,totalSize_exprs_cons,List.cons.sizeOf_spec,
      Property.mk.sizeOf_spec]
    omega

theorem totalSize_elements (depth : Nat) (elements : List (Option Expr)) :
    totalSize (exprs depth (elements.filterMap id)) < sizeOf elements := by
  induction elements with
  | nil => exact Nat.lt_of_lt_of_eq Nat.one_pos List.nil.sizeOf_spec.symm
  | cons head rest ih =>
    cases head with
    | none =>
      have : (none :: rest).filterMap id = rest.filterMap id := rfl
      rw [this,List.cons.sizeOf_spec]
      omega
    | some value =>
      have : (some value :: rest).filterMap id = value :: rest.filterMap id := rfl
      rw [this,totalSize_exprs_cons,List.cons.sizeOf_spec,Option.some.sizeOf_spec]
      omega

theorem totalSize_inits (depth : Nat) (declarators : List Declarator) :
    totalSize (inits depth declarators) < sizeOf declarators := by
  unfold inits
  induction declarators with
  | nil => exact Nat.lt_of_lt_of_eq Nat.one_pos List.nil.sizeOf_spec.symm
  | cons head rest ih =>
    obtain ⟨target, init, span⟩ := head
    cases init with
    | none =>
      simp only [List.filterMap_cons,List.cons.sizeOf_spec]
      omega
    | some value =>
      simp only [List.filterMap_cons,totalSize_exprs_cons,List.cons.sizeOf_spec,
        Declarator.mk.sizeOf_spec,Option.some.sizeOf_spec]
      omega

theorem totalSize_branch (v : Viewpoint) (depth : Nat) (body : Stmt) :
    totalSize (branch v depth body) ≤ sizeOf body := by
  unfold branch
  by_cases entered : v.opens body.span = true
  · rw [if_pos entered]
    clear entered
    split
    · next span inner =>
      have := totalSize_stmts (depth + 1) inner.body
      cases inner
      simp only [Stmt.block.sizeOf_spec,Block.mk.sizeOf_spec] at this ⊢
      omega
    · exact Nat.le_refl _
  · rw [if_neg entered]
    exact Nat.zero_le _

theorem totalSize_block (v : Viewpoint) (depth : Nat) (body : Block) :
    totalSize (block v depth body) < sizeOf body := by
  have := totalSize_stmts (depth + 1) body.body
  unfold block
  split
  · cases body
    simp only [Block.mk.sizeOf_spec] at this ⊢
    omega
  · cases body
    simp only [Block.mk.sizeOf_spec,totalSize_nil]
    omega

theorem totalSize_functionBody (v : Viewpoint) (depth : Nat) (function : Function) :
    totalSize (functionBody v depth function) < sizeOf function := by
  obtain ⟨name, params, body, isArrow, span⟩ := function
  unfold functionBody
  split
  · cases body with
    | block inner =>
      have := totalSize_stmts (depth + 1) inner.body
      cases inner
      simp only [Function.mk.sizeOf_spec,FunctionBody.block.sizeOf_spec,
        Block.mk.sizeOf_spec] at this ⊢
      omega
    | expr value =>
      simp only [totalSize_cons,totalSize_nil,size_expr,Function.mk.sizeOf_spec,
        FunctionBody.expr.sizeOf_spec]
      omega
  · simp only [totalSize_nil,Function.mk.sizeOf_spec]
    omega

theorem totalSize_memberBody (v : Viewpoint) (depth : Nat) (member : ClassMember) :
    totalSize (memberBody v depth member) < sizeOf member := by
  obtain ⟨key, isStatic, kind, span⟩ := member
  cases kind with
  | constructor function | method function | getter function | setter function =>
    have := totalSize_functionBody v depth function
    simp only [memberBody,ClassMember.mk.sizeOf_spec,MemberKind.constructor.sizeOf_spec,
      MemberKind.method.sizeOf_spec,MemberKind.getter.sizeOf_spec,
      MemberKind.setter.sizeOf_spec]
    omega
  | field init =>
    rw [ClassMember.mk.sizeOf_spec,MemberKind.field.sizeOf_spec]
    cases init with
    | none =>
      simp only [memberBody,totalSize_nil]
      omega
    | some value =>
      rw [Option.some.sizeOf_spec]
      simp only [memberBody]
      split
      · simp only [totalSize_cons,totalSize_nil,size_expr]
        omega
      · simp only [totalSize_nil]
        omega

theorem totalSize_flatMap {α : Type} [SizeOf α] (f : α → List Task) (items : List α)
    (smaller : ∀ a, totalSize (f a) ≤ sizeOf a) :
    totalSize (items.flatMap f) < sizeOf items := by
  induction items with
  | nil => simp only [List.flatMap_nil,totalSize_nil,List.nil.sizeOf_spec,Nat.lt_add_one]
  | cons head rest ih =>
    have := smaller head
    rw [List.flatMap_cons,totalSize_append,List.cons.sizeOf_spec]
    omega

theorem totalSize_classBody (v : Viewpoint) (depth : Nat) (definition : Class) :
    totalSize (classBody v depth definition) < sizeOf definition := by
  obtain ⟨name, parent, members, bodySpan, span⟩ := definition
  unfold classBody
  rw [Class.mk.sizeOf_spec]
  split
  · have := totalSize_flatMap (memberBody v depth) members
      fun member => Nat.le_of_lt (totalSize_memberBody v depth member)
    dsimp only
    omega
  · rw [totalSize_nil]
    omega

theorem totalSize_handler (v : Viewpoint) (depth : Nat) (handler : Option CatchClause) :
    totalSize (handler.elim [] fun clause => block v depth clause.body) ≤ sizeOf handler := by
  cases handler with
  | none => exact Nat.zero_le _
  | some clause =>
    have := totalSize_block v depth clause.body
    cases clause
    simp only [Option.elim_some,Option.some.sizeOf_spec,CatchClause.mk.sizeOf_spec] at this ⊢
    omega

theorem totalSize_finalizer (v : Viewpoint) (depth : Nat) (finalizer : Option Block) :
    totalSize (finalizer.elim [] (block v depth)) ≤ sizeOf finalizer := by
  cases finalizer with
  | none => exact Nat.zero_le _
  | some last =>
    have := totalSize_block v depth last
    simp only [Option.elim_some,Option.some.sizeOf_spec]
    omega

theorem totalSize_case (v : Viewpoint) (depth : Nat) (clause : SwitchCase) :
    totalSize (if v.opens clause.span then stmts (depth + 1) clause.body else []) ≤
      sizeOf clause := by
  have := totalSize_stmts (depth + 1) clause.body
  split
  · cases clause
    simp only [SwitchCase.mk.sizeOf_spec] at this ⊢
    omega
  · exact Nat.zero_le _

theorem totalSize_ofStmt (v : Viewpoint) (depth : Nat) (value : Stmt) :
    totalSize (ofStmt v depth value) < sizeOf value := by
  cases value with
  | declare span kind declarators =>
    have := totalSize_inits depth declarators
    simp only [ofStmt,Stmt.declare.sizeOf_spec]
    omega
  | function span function =>
    have := totalSize_functionBody v depth function
    simp only [ofStmt,Stmt.function.sizeOf_spec]
    omega
  | classDeclaration span definition =>
    have := totalSize_classBody v depth definition
    simp only [ofStmt,Stmt.classDeclaration.sizeOf_spec]
    omega
  | returns span value =>
    rw [Stmt.returns.sizeOf_spec]
    cases value with
    | none =>
      simp only [ofStmt,totalSize_nil]
      omega
    | some value =>
      simp only [ofStmt,totalSize_exprs_cons,totalSize_exprs_nil,Option.some.sizeOf_spec]
      omega
  | ifElse span test consequent alternate =>
    have := totalSize_branch v depth consequent
    rw [Stmt.ifElse.sizeOf_spec]
    cases alternate with
    | none =>
      simp only [ofStmt,totalSize_append,totalSize_exprs_cons,totalSize_exprs_nil,
        Option.elim_none,totalSize_nil]
      omega
    | some other =>
      have := totalSize_branch v depth other
      simp only [ofStmt,totalSize_append,totalSize_exprs_cons,totalSize_exprs_nil,
        Option.elim_some,Option.some.sizeOf_spec]
      omega
  | block span body =>
    have := totalSize_block v depth body
    simp only [ofStmt,Stmt.block.sizeOf_spec]
    omega
  | expr span value =>
    simp only [ofStmt,totalSize_exprs_cons,totalSize_exprs_nil,Stmt.expr.sizeOf_spec]
    omega
  | tryCatch span body handler finalizer =>
    have := totalSize_block v depth body
    have := totalSize_handler v depth handler
    have := totalSize_finalizer v depth finalizer
    simp only [ofStmt,totalSize_append,Stmt.tryCatch.sizeOf_spec]
    omega
  | forLoop span init test update body =>
    have := totalSize_branch v depth body
    rw [Stmt.forLoop.sizeOf_spec]
    cases init with
    | none =>
      simp only [ofStmt,totalSize_append,totalSize_nil]
      omega
    | some start =>
      rw [Option.some.sizeOf_spec]
      cases start with
      | bindings span kind declarators =>
        have := totalSize_inits depth declarators
        simp only [ofStmt,totalSize_append,LoopStart.bindings.sizeOf_spec]
        omega
      | expr value =>
        simp only [ofStmt,totalSize_append,totalSize_exprs_cons,totalSize_exprs_nil,
          LoopStart.expr.sizeOf_spec]
        omega
  | forEach span left right body ofValues =>
    have := totalSize_branch v depth body
    simp only [ofStmt,Stmt.forEach.sizeOf_spec]
    omega
  | whileLoop span test body =>
    have := totalSize_branch v depth body
    simp only [ofStmt,Stmt.whileLoop.sizeOf_spec]
    omega
  | doWhile span body test =>
    have := totalSize_branch v depth body
    simp only [ofStmt,Stmt.doWhile.sizeOf_spec]
    omega
  | switch span discriminant cases =>
    have := totalSize_flatMap _ cases (totalSize_case v depth)
    simp only [ofStmt,Stmt.switch.sizeOf_spec]
    omega
  | throws span value =>
    simp only [ofStmt,totalSize_exprs_cons,totalSize_exprs_nil,Stmt.throws.sizeOf_spec]
    omega
  | labeled span label body =>
    have : totalSize (stmts depth [body]) = sizeOf body := totalSize_cons ..
    rw [ofStmt,this,Stmt.labeled.sizeOf_spec]
    omega
  | breaks | continues | empty | debugger =>
    simp only [ofStmt,totalSize_nil,Stmt.breaks.sizeOf_spec,Stmt.continues.sizeOf_spec,
      Stmt.empty.sizeOf_spec,Stmt.debugger.sizeOf_spec]
    omega

theorem totalSize_ofExpr (v : Viewpoint) (depth : Nat) (value : Expr) :
    totalSize (ofExpr v depth value) < sizeOf value := by
  cases value with
  | function span function =>
    have := totalSize_functionBody v depth function
    simp only [ofExpr,Expr.function.sizeOf_spec]
    omega
  | classValue span definition =>
    have := totalSize_classBody v depth definition
    simp only [ofExpr,Expr.classValue.sizeOf_spec]
    omega
  | call span callee arguments isOptional =>
    have := totalSize_exprs depth arguments
    rw [ofExpr,totalSize_exprs_cons,Expr.call.sizeOf_spec]
    split
    · omega
    · rw [totalSize_exprs_nil]
      omega
  | construct span callee arguments =>
    have := totalSize_exprs depth arguments
    rw [ofExpr,Expr.construct.sizeOf_spec]
    split
    · omega
    · rw [totalSize_exprs_nil]
      omega
  | object span properties =>
    have := totalSize_values depth properties
    rw [ofExpr,Expr.object.sizeOf_spec]
    split
    · omega
    · rw [totalSize_exprs_nil]
      omega
  | array span elements =>
    have := totalSize_elements depth elements
    rw [ofExpr,Expr.array.sizeOf_spec]
    split
    · omega
    · rw [totalSize_exprs_nil]
      omega
  | sequence span members =>
    have := totalSize_exprs depth members
    simp only [ofExpr,Expr.sequence.sizeOf_spec]
    omega
  | assign | member | conditional | binary | unary | spread =>
    simp only [ofExpr,totalSize_exprs_cons,totalSize_exprs_nil,Expr.assign.sizeOf_spec,
      Expr.member.sizeOf_spec,Expr.conditional.sizeOf_spec,Expr.binary.sizeOf_spec,
      Expr.unary.sizeOf_spec,Expr.spread.sizeOf_spec]
    omega
  | ident | thisRef | superRef | literal | update =>
    simp only [ofExpr,totalSize_nil,Expr.ident.sizeOf_spec,Expr.thisRef.sizeOf_spec,
      Expr.superRef.sizeOf_spec,Expr.literal.sizeOf_spec,Expr.update.sizeOf_spec]
    omega

theorem totalSize_parts (v : Viewpoint) (task : Task) :
    totalSize (task.parts v) < task.size := by
  obtain ⟨node, depth⟩ := task
  cases node with
  | stmt value => exact totalSize_ofStmt v depth value
  | expr value => exact totalSize_ofExpr v depth value

end CodeCompletion.Task
