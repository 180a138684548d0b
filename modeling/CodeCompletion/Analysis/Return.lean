import CodeCompletion.Program.Tree

/-! The first `return` with a value in a list of statements, in the order of the text. Nested
statements are looked through, nested functions and classes are not. -/
namespace CodeCompletion

def Stmt.inner : Stmt → List Stmt
  | .block _ braces => braces.body
  | .ifElse _ _ consequent alternate => consequent :: alternate.toList
  | .tryCatch _ braces handler finalizer =>
    braces.body ++ (handler.elim [] (·.body.body) ++ finalizer.elim [] (·.body))
  | .forLoop _ _ _ _ body | .forEach _ _ _ body _ | .whileLoop _ _ body | .doWhile _ body _
  | .labeled _ _ body => [body]
  | .switch _ _ cases => cases.flatMap (·.body)
  | _ => []

section Size

theorem sizeOf_append {α : Type} [SizeOf α] (xs ys : List α) :
    sizeOf (xs ++ ys) + 1 = sizeOf xs + sizeOf ys := by
  induction xs with
  | nil => rw [List.nil_append,List.nil.sizeOf_spec,Nat.add_comm]
  | cons head rest ih =>
    rw [List.cons_append,List.cons.sizeOf_spec,List.cons.sizeOf_spec]
    omega

theorem sizeOf_body (braces : Block) : sizeOf braces.body < sizeOf braces := by
  cases braces
  simp only [Block.mk.sizeOf_spec]
  omega

theorem sizeOf_elim {α : Type} [SizeOf α] (part : Option α) (body : α → List Stmt)
    (smaller : ∀ a, sizeOf (body a) < sizeOf a) : sizeOf (part.elim [] body) ≤ sizeOf part := by
  cases part with
  | none => exact Nat.le_refl _
  | some a =>
    have := smaller a
    rw [Option.elim_some,Option.some.sizeOf_spec]
    omega

theorem sizeOf_caseBodies (cases : List SwitchCase) :
    sizeOf (cases.flatMap (·.body)) ≤ sizeOf cases := by
  induction cases with
  | nil => exact Nat.le_refl _
  | cons head rest ih =>
    have := sizeOf_append head.body (rest.flatMap (·.body))
    cases head
    simp only [List.flatMap_cons,List.cons.sizeOf_spec,SwitchCase.mk.sizeOf_spec] at this ⊢
    omega

/-- What is inside a statement is smaller, up to the list that it stands in. -/
theorem sizeOf_inner (s : Stmt) : sizeOf s.inner ≤ sizeOf s + 1 := by
  cases s with
  | block span braces =>
    have := sizeOf_body braces
    simp only [Stmt.inner,Stmt.block.sizeOf_spec]
    omega
  | ifElse span test consequent alternate =>
    cases alternate <;>
      simp only [Stmt.inner,Option.toList,List.cons.sizeOf_spec,List.nil.sizeOf_spec,
        Stmt.ifElse.sizeOf_spec,Option.some.sizeOf_spec,Option.none.sizeOf_spec]
    all_goals omega
  | tryCatch span braces handler finalizer =>
    have := sizeOf_body braces
    have := sizeOf_elim handler (·.body.body) fun clause => by
      have := sizeOf_body clause.body
      cases clause
      simp only [CatchClause.mk.sizeOf_spec] at this ⊢
      omega
    have := sizeOf_elim finalizer (·.body) sizeOf_body
    simp only [Stmt.inner,Stmt.tryCatch.sizeOf_spec]
    have := sizeOf_append (handler.elim [] (·.body.body)) (finalizer.elim [] (·.body))
    have := sizeOf_append braces.body
      (handler.elim [] (·.body.body) ++ finalizer.elim [] (·.body))
    omega
  | switch span discriminant cases =>
    have := sizeOf_caseBodies cases
    simp only [Stmt.inner,Stmt.switch.sizeOf_spec]
    omega
  | _ =>
    simp only [Stmt.inner,List.cons.sizeOf_spec,List.nil.sizeOf_spec,
      Stmt.forLoop.sizeOf_spec,Stmt.forEach.sizeOf_spec,Stmt.whileLoop.sizeOf_spec,
      Stmt.doWhile.sizeOf_spec,Stmt.labeled.sizeOf_spec]
    omega

end Size

/-- The span and the value of the first `return` in some statements. They are a stack: what is
inside the first of them comes before the others. -/
def firstReturn? : List Stmt → Option (Span × Expr)
  | [] => none
  | .returns span (some value) :: _ => some (span, value)
  | s :: rest => firstReturn? (s.inner ++ rest)
termination_by stack => sizeOf stack
decreasing_by
  have := sizeOf_append s.inner rest
  have := sizeOf_inner s
  rw [List.cons.sizeOf_spec]
  omega

end CodeCompletion
