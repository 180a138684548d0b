import CodeCompletion.Proofs.Parser.Depth.Value

/-! Operators and statements fit at the depth they are read at. A statement and a unary
operator are counted before their parts are read; a binary operator is counted before its right
operand is. -/
namespace CodeCompletion.Parser

open TreeNode

variable {g : Grammar} {m : Mode}

/-- An operator that has been counted before its only operand was read. -/
theorem limited_unary {e operand : Expr} (room : m.depth < maxDepth)
    (inside : TreeNode.inner (.expr e) = [.expr operand]) (before : wrapped (.expr e) = [])
    (fits : Limited (m.below room).depth ((m.below room).most 2) (.expr operand)) :
    Limited m.depth (m.most 2) (.expr e) := by
  have counted : Limited m.depth ((m.below room).most 2 + 1) (.expr e) := by
    apply limited_counted room rfl
    · rw [inside]
      simpa using fits
    · simp [before]
  have enough := m.most_mono (Nat.zero_le 2)
  rw [← m.most_below room,Mode.most_succ] at enough
  exact counted.mono (Nat.le_refl _) (by omega)

def Grammar.operators (g : Grammar) (least : Nat) (first : Expr) : Parser Expr :=
  Parser.loop (fun left => do
    match ← binaryOperator? with
    | none => return .inr left
    | some (op, level) =>
      if level < least then return .inr left
      descend
      let _ ← advance
      let right ← g.binary (rightLevel op level)
      return .inl (.binary (left.span.cover right.span) op left right)) g.limit first

theorem Grammar.binaryRule_eq (g : Grammar) (least : Nat) :
    g.binaryRule least = levelled (g.unaryRule >>= g.operators least) := rfl

namespace Grammar.Bounded

variable (bounded : g.Bounded)
include bounded

theorem postfixRule : Keeps m g.postfixRule fun e => Limited m.depth (m.most 2) (.expr e) := by
  apply steady_currentSpan.before
  intro start
  apply bounded.chainRule.bind
  intro operand fits
  apply steady_updateOperator?.before
  intro op
  apply steady_newlineBefore.before
  intro newline
  split
  · apply Keeps.ite (fun _ => .fail_bind)
    intro _
    apply steady_advance.before
    intro _
    apply steady_finish.before
    intro span
    exact .pure (limited_uncounted rfl m.room (by simpa [children,ofExpr] using fits))
  · exact .pure fits

theorem unaryRule : Keeps m g.unaryRule fun e => Limited m.depth (m.most 2) (.expr e) := by
  -- Both kinds of operators make a counted node of an operand that is read below them.
  have operator : ∀ (op : String) (f : Expr → Parser Expr), (∀ room operand,
      Limited (m.below room).depth ((m.below room).most 2) (.expr operand) →
        Keeps m (f operand) fun e => Limited m.depth (m.most 2) (.expr e)) →
      Keeps m (do
        let _ ← advance
        let operand ← Parser.deeper g.unary
        f operand) fun e => Limited m.depth (m.most 2) (.expr e) := by
    intro op f next
    apply steady_advance.before
    intro _
    have below : Keeps m (Parser.deeper g.unary) fun operand =>
        ∃ room, Limited (m.below room).depth ((m.below room).most 2) (.expr operand) := by
      apply Keeps.deeper
      intro room
      exact (bounded.unary _).mono fun e fits => ⟨room, fits⟩
    apply below.bind
    rintro operand ⟨room, fits⟩
    exact next room operand fits
  apply steady_currentSpan.before
  intro start
  apply steady_unaryOperator?.before
  intro op
  split
  next op =>
    apply operator op
    intro room operand fits
    apply steady_finish.before
    intro span
    exact .pure (limited_unary room rfl rfl fits)
  next =>
    apply steady_updateOperator?.before
    intro op
    split
    next op =>
      apply operator op
      intro room operand fits
      apply Keeps.ite (fun _ => .fail_bind)
      intro _
      apply steady_finish.before
      intro span
      exact .pure (limited_unary room rfl rfl fits)
    next => exact bounded.postfixRule

theorem operators {least : Nat} {first : Expr} (fits : Limited m.depth (m.most 2) (.expr first)) :
    Leads m (g.operators least first) (Wraps m 2 first) := by
  refine .loop (I := Wraps m 2 first) ?_ g.limit first (.start fits)
  intro k left wraps
  apply steady_binaryOperator?.leads
  intro op
  split
  · exact .pure wraps
  next op level =>
    apply Leads.ite
    · intro _
      exact .pure wraps
    intro _
    apply Leads.descend_bind
    intro room
    apply steady_advance.leads
    intro _
    apply (bounded.binary _ _).steps
    intro right fits'
    refine .pure (wraps.link room rfl ?_)
    rw [k.most_below room,k.most_zero] at fits'
    simpa [TreeNode.inner] using fits'

theorem binaryRule (least : Nat) :
    Keeps m (g.binaryRule least) fun e => Limited m.depth (m.most 3) (.expr e) := by
  rw [g.binaryRule_eq]
  refine (keeps_levelled bounded.unaryRule fun _ => bounded.operators).mono fun e fits => ?_
  exact fits.mono (Nat.le_refl _) (by rw [m.most_succ 2]; omega)

theorem chains_binaryRule (least : Nat) : Chains g.unaryRule (g.binaryRule least) :=
  chains_levelled (fun _ => bounded.unaryRule) fun _ _ => bounded.operators

theorem conditionalRule :
    Keeps m g.conditionalRule fun e => Limited m.depth (m.most 3) (.expr e) := by
  apply (bounded.binaryRule 1).bind
  intro test fits
  apply steady_accept.before
  intro asks
  apply Keeps.ite
  · intro _
    apply Keeps.bind (.withIn (bounded.assignment _))
    intro consequent fits'
    apply steady_require.before
    intro _
    apply (bounded.assignment m).bind
    intro alternate fits''
    refine .pure (limited_uncounted rfl m.room ?_)
    simpa [children,ofExpr] using
      ⟨fits, limited_of_fits (m := m) fits' 3, limited_of_fits fits'' 3⟩
  · intro _
    exact .pure fits

theorem assignmentRule : Keeps m g.assignmentRule fun e => FitsAt m.depth (.expr e) := by
  apply Keeps.deeper
  intro room
  -- All loops of the level below are behind it.
  refine Keeps.mono (P := fun e => Limited (m.below room).depth ((m.below room).most 3) (.expr e)) ?_
    fun e fits => fits.mono (Nat.le_succ _) (by rw [m.most_below room,m.most_zero])
  apply steady_arrowAhead.before
  intro isArrow
  apply Keeps.ite (fun _ => bounded.arrow.mono fun e fits => limited_of_fits fits 3)
  intro _
  apply bounded.conditionalRule.bind
  intro target fits
  apply steady_assignmentOperator?.before
  intro op
  split
  · exact .pure fits
  · apply Keeps.ite (fun _ => .fail_bind)
    intro _
    apply steady_advance.before
    intro _
    apply (bounded.assignment _).bind
    intro value fits'
    refine .pure (limited_uncounted rfl (m.below room).room ?_)
    simpa [children,ofExpr] using ⟨fits, limited_of_fits fits' 3⟩

theorem expressionRule : Keeps m g.expressionRule fun e => FitsAt m.depth (.expr e) := by
  apply bounded.assignmentRule.bind
  intro first fits
  apply steady_peek.before
  intro got
  apply Keeps.ite
  · intro _
    have others : Keeps m (Parser.collect g.limit do
        if ← accept .comma then some <$> g.assignmentRule else return none) fun others =>
          ∀ e ∈ others, FitsAt m.depth (.expr e) := by
      refine .collect ?_ g.limit
      apply steady_accept.before
      intro goesOn
      apply Keeps.ite
      · intro _
        apply Keeps.map
        exact bounded.assignmentRule.mono fun e fits => by simpa using fits
      · intro _
        exact .pure (by simp)
    apply others.bind
    intro others fits'
    apply steady_finish.before
    intro span
    exact .pure (fits_plain rfl (by simpa [children,ofExpr] using ⟨fits, fits'⟩))
  · intro _
    exact .pure fits

theorem declarator : Keeps m g.declarator fun d => FitsAt m.depth (.declarator d) := by
  apply steady_ident.before
  intro target
  apply steady_accept.before
  intro given
  apply Keeps.ite_bind (keeps_optional (bounded.assignment m))
  intro init fits
  apply steady_finish.before
  intro span
  exact .pure (fits_plain rfl fits)

theorem declarators : Keeps m g.declarators fun found =>
    AllFit m.depth (found.map .declarator) := by
  refine .loop (I := fun found => ∀ d ∈ found, FitsAt m.depth (.declarator d)) ?_ g.limit []
    (by simp)
  intro found fits
  apply (bounded.declarator).bind
  intro next first
  have both : ∀ d ∈ next :: found, FitsAt m.depth (.declarator d) := by simpa using ⟨first, fits⟩
  apply steady_accept.before
  intro goesOn
  apply Keeps.ite
  · intro _
    exact .pure both
  · intro _
    exact .pure (allFit_map.mpr fun d member => both d (List.mem_reverse.mp member))

theorem condition : Keeps m g.condition fun e => FitsAt m.depth (.expr e) := by
  apply steady_require.before
  intro _
  apply (bounded.expression m).bind
  intro value fits
  exact steady_require.before fun _ => .pure fits

end Grammar.Bounded

def Prepared (depth : Nat) (build : Span → Stmt) : Prop :=
  ∀ span, AllFit depth (ofStmt (build span))

theorem keeps_leftOut {p : Parser Expr} {c : Prop} [Decidable c]
    (h : Keeps m p fun e => FitsAt m.depth (.expr e)) :
    Keeps m (if c then pure none else some <$> p) fun found => AllFit m.depth (exprs? found) := by
  apply Keeps.ite
  · intro _
    exact .pure (by simp)
  · intro _
    apply Keeps.map
    exact h.mono fun e fits => by simpa using fits

namespace Grammar.Bounded

variable (bounded : g.Bounded)
include bounded

theorem returnRule : Keeps m g.returnRule (Prepared m.depth) := by
  apply steady_advance.before
  intro _
  apply steady_peek.before
  intro got
  apply steady_newlineBefore.before
  intro newline
  apply Keeps.ite_bind (keeps_leftOut (bounded.expression m))
  intro value fits
  apply steady_semicolon.before
  intro _
  exact .pure fun span => fits

theorem throwRule : Keeps m g.throwRule (Prepared m.depth) := by
  apply steady_advance.before
  intro _
  apply steady_newlineBefore.before
  intro newline
  apply Keeps.ite (fun _ => .fail_bind)
  intro _
  apply (bounded.expression m).bind
  intro value fits
  apply steady_semicolon.before
  intro _
  exact .pure fun span => by simpa [ofStmt] using fits

theorem declarationRule {kind : BindingKind} :
    Keeps m (g.declarationRule kind) (Prepared m.depth) := by
  apply steady_advance.before
  intro _
  apply bounded.declarators.bind
  intro declarators fits
  apply steady_semicolon.before
  intro _
  exact .pure fun span => fits

theorem expressionStatement : Keeps m g.expressionStatement (Prepared m.depth) := by
  apply bounded.expressionRule.bind
  intro value fits
  apply steady_semicolon.before
  intro _
  exact .pure fun span => by simpa [ofStmt] using fits

section Nested

variable (operator : m.noIn = false)
include operator

theorem ifRule : Keeps m g.ifRule (Prepared m.depth) := by
  apply steady_advance.before
  intro _
  apply bounded.condition.bind
  intro test fits
  apply (bounded.statement m operator).bind
  intro consequent fits'
  apply steady_accept.before
  intro hasElse
  apply Keeps.ite_bind (P := fun alternate => AllFit m.depth (stmts alternate.toList))
  · apply Keeps.ite
    · intro _
      apply Keeps.map
      exact (bounded.statement m operator).mono fun s fits => by simpa [stmts] using fits
    · intro _
      exact .pure (by simp [stmts])
  · intro alternate fits''
    refine .pure fun span => ?_
    simp only [ofStmt,allFit_cons]
    exact ⟨fits, fits', fits''⟩

theorem loopStart : Keeps m g.loopStart fun start => AllFit m.depth (ofLoopStart start) := by
  apply steady_currentSpan.before
  intro start
  apply steady_bindingKind?.before
  intro kind
  apply Keeps.withoutIn operator
  split
  · apply steady_advance.before
    intro _
    apply bounded.declarators.bind
    intro declarators fits
    apply steady_finish.before
    intro span
    exact .pure fits
  · apply Keeps.map
    exact (bounded.expression _).mono fun e fits => by simpa [ofLoopStart] using fits

theorem forEachRest {left : LoopStart} {ofValues : Bool} (fits : AllFit m.depth (ofLoopStart left)) :
    Keeps m (g.forEachRest left ofValues) (Prepared m.depth) := by
  have rest : Keeps m (do
      let _ ← advance
      let right ← if ofValues then g.assignment else g.expression
      let _ ← require .rightParen
      let body ← g.statement
      return (Stmt.forEach · left right body ofValues)) (Prepared m.depth) := by
    apply steady_advance.before
    intro _
    apply Keeps.ite_bind (P := fun e => FitsAt m.depth (.expr e))
    · exact .ite (fun _ => bounded.assignment m) fun _ => bounded.expression m
    · intro right fits'
      apply steady_require.before
      intro _
      apply (bounded.statement m operator).bind
      intro body fits''
      refine .pure fun span => ?_
      simp only [ofStmt,allFit_append,allFit_cons,allFit_nil,and_true]
      exact ⟨fits, fits', fits''⟩
  cases left with
  | bindings => exact .ite (fun _ => .fail_bind) fun _ => rest
  | expr => exact rest

theorem forRest {init : Option LoopStart}
    (fits : AllFit m.depth (init.toList.flatMap ofLoopStart)) :
    Keeps m (g.forRest init) (Prepared m.depth) := by
  apply steady_require.before
  intro _
  apply steady_peek.before
  intro got
  apply Keeps.ite_bind (keeps_leftOut (bounded.expression m))
  intro test fits'
  apply steady_require.before
  intro _
  apply steady_peek.before
  intro got
  apply Keeps.ite_bind (keeps_leftOut (bounded.expression m))
  intro update fits''
  apply steady_require.before
  intro _
  apply (bounded.statement m operator).bind
  intro body fits'''
  refine .pure fun span => ?_
  simp only [ofStmt,allFit_append,allFit_cons,allFit_nil,and_true]
  exact ⟨fits, fits', fits'', fits'''⟩

theorem forRule : Keeps m g.forRule (Prepared m.depth) := by
  apply steady_advance.before
  intro _
  apply steady_require.before
  intro _
  apply steady_peek.before
  intro got
  apply Keeps.ite
  · intro _
    exact bounded.forRest operator (by simp)
  intro _
  apply (bounded.loopStart operator).bind
  intro left fits
  apply steady_peek.before
  intro got
  split
  · exact bounded.forEachRest operator fits
  · exact bounded.forEachRest operator fits
  · exact bounded.forRest operator (by simpa using fits)

theorem whileRule : Keeps m g.whileRule (Prepared m.depth) := by
  apply steady_advance.before
  intro _
  apply bounded.condition.bind
  intro test fits
  apply (bounded.statement m operator).bind
  intro body fits'
  exact .pure fun span => by simpa [ofStmt] using ⟨fits, fits'⟩

theorem doRule : Keeps m g.doRule (Prepared m.depth) := by
  apply steady_advance.before
  intro _
  apply (bounded.statement m operator).bind
  intro body fits
  apply steady_requireWord.before
  intro _
  apply bounded.condition.bind
  intro test fits'
  apply steady_accept.before
  intro _
  exact .pure fun span => by simpa [ofStmt] using ⟨fits, fits'⟩

theorem switchCase : Keeps m g.switchCase fun c => FitsAt m.depth (.switchCase c) := by
  apply steady_currentSpan.before
  intro start
  have head : Keeps m g.caseHead fun test => AllFit m.depth (exprs? test) := by
    apply steady_accept.before
    intro hasValue
    apply Keeps.ite
    · intro _
      apply Keeps.map
      exact (bounded.expression m).mono fun e fits => by simpa using fits
    intro _
    apply steady_accept.before
    intro isDefault
    apply Keeps.ite
    · intro _
      exact .pure (by simp)
    · intro _
      exact steady_peek.before fun _ => .fail
  apply head.bind
  intro test fits
  apply steady_require.before
  intro _
  apply Keeps.bind (.collect (P := fun s => FitsAt m.depth (.stmt s)) ?_ g.limit)
  · intro body fits'
    apply steady_finish.before
    intro span
    exact .pure (fits_plain rfl (allFit_append.mpr ⟨fits, allFit_map.mpr fits'⟩))
  · apply steady_peek.before
    intro got
    split
    case h_5 =>
      apply (bounded.statement m operator).bind
      intro s fits
      exact .pure (by simpa using fits)
    all_goals exact .pure (by simp)

theorem switchRule : Keeps m g.switchRule (Prepared m.depth) := by
  apply steady_advance.before
  intro _
  apply bounded.condition.bind
  intro discriminant fits
  apply steady_require.before
  intro _
  apply Keeps.bind (.collect (P := fun c => FitsAt m.depth (.switchCase c)) ?_ g.limit)
  · intro cases fits'
    exact .pure fun span => allFit_cons.mpr ⟨fits, allFit_map.mpr fits'⟩
  · apply steady_accept.before
    intro closed
    apply Keeps.ite
    · intro _
      exact .pure (by simp)
    · intro _
      apply (bounded.switchCase operator).bind
      intro c fits
      exact .pure (by simpa using fits)

theorem catchClause : Keeps m g.catchClause fun c => FitsAt m.depth (.catchClause c) := by
  apply steady_advance.before
  intro start
  apply steady_accept.before
  intro hasParam
  have rest : ∀ param, Keeps m (do
      let body ← g.block
      return (⟨param, body, ← finish start⟩ : CatchClause)) fun c =>
        FitsAt m.depth (.catchClause c) := by
    intro param
    apply (bounded.block operator).bind
    intro body fits
    apply steady_finish.before
    intro span
    exact .pure (fits_plain rfl (by simpa [children] using fits))
  apply Keeps.ite
  · intro _
    apply steady_ident.before
    intro name
    exact steady_require.before fun _ => rest (some name)
  · intro _
    exact rest none

theorem tryRule : Keeps m g.tryRule (Prepared m.depth) := by
  apply steady_advance.before
  intro _
  apply (bounded.block operator).bind
  intro body fits
  apply steady_peek.before
  intro got
  apply Keeps.ite_bind (P := fun handler => AllFit m.depth (handler.toList.map .catchClause))
  · apply Keeps.ite
    · intro _
      apply Keeps.map
      exact (bounded.catchClause operator).mono fun c fits => by simpa using fits
    · intro _
      exact .pure (by simp)
  intro handler fits'
  apply steady_accept.before
  intro hasFinalizer
  apply Keeps.ite_bind (P := fun finalizer => AllFit m.depth (finalizer.toList.map .block))
  · apply Keeps.ite
    · intro _
      apply Keeps.map
      exact (bounded.block operator).mono fun b fits => by simpa using fits
    · intro _
      exact .pure (by simp)
  intro finalizer fits''
  apply Keeps.ite (fun _ => .fail_bind)
  intro _
  exact .pure fun span => allFit_cons.mpr ⟨fits, allFit_append.mpr ⟨fits', fits''⟩⟩

theorem wordStatement {word : String} : Keeps m (g.wordStatement word) (Prepared m.depth) := by
  unfold Grammar.wordStatement
  split
  · exact bounded.declarationRule
  · exact bounded.declarationRule
  · apply bounded.function.bind
    intro f fits
    exact .pure fun span => by simpa [ofStmt] using fits
  · apply bounded.classDef.bind
    intro c fits
    exact .pure fun span => by simpa [ofStmt] using fits
  · exact bounded.returnRule
  · exact bounded.ifRule operator
  · exact bounded.forRule operator
  · exact bounded.whileRule operator
  · exact bounded.doRule operator
  · exact bounded.switchRule operator
  · exact bounded.tryRule operator
  · exact bounded.throwRule
  · exact steady_jumpLabel.before fun label => .pure fun span => allFit_nil
  · exact steady_jumpLabel.before fun label => .pure fun span => allFit_nil
  · apply steady_advance.before
    intro _
    exact steady_semicolon.before fun _ => .pure fun span => allFit_nil
  · exact .fail
  · exact .fail
  · apply steady_startsLet.before
    intro declares
    apply Keeps.ite (fun _ => bounded.declarationRule)
    intro _
    apply steady_peekNext.before
    intro next
    apply Keeps.ite
    · intro _
      apply steady_advance.before
      intro _
      apply steady_advance.before
      intro _
      apply (bounded.statement m operator).bind
      intro body fits
      exact .pure fun span => by simpa [ofStmt] using fits
    · intro _
      exact bounded.expressionStatement

theorem statementRule : Keeps m g.statementRule fun s => FitsAt m.depth (.stmt s) := by
  apply Keeps.deeper
  intro room
  have counted : ∀ s, AllFit (m.below room).depth (ofStmt s) → FitsAt m.depth (.stmt s) := by
    intro s parts
    have counted : Limited m.depth (m.most 0) (.stmt s) := by
      rw [← m.most_below room,Mode.most_succ]
      exact limited_counted room rfl (fun c member => (limited_of_fits (parts c member) 2).mono
        (Nat.le_refl _) (by omega)) (by simp [wrapped])
    rwa [m.most_zero] at counted
  apply steady_currentSpan.before
  intro start
  apply steady_peek.before
  intro got
  split
  · apply (bounded.block (m := m.below room) operator).bind
    intro block fits
    exact .pure (counted _ (by simpa [ofStmt] using fits))
  · apply steady_advance.before
    intro _
    exact .pure (counted _ allFit_nil)
  · apply (bounded.wordStatement (m := m.below room) operator).bind
    intro build prepared
    exact steady_finish.before fun span => .pure (counted _ (prepared span))
  · apply bounded.expressionStatement.bind
    intro build prepared
    exact steady_finish.before fun span => .pure (counted _ (prepared span))

end Nested

end Grammar.Bounded

namespace Grammar

theorem bounded_ofSize (size : Nat) : (ofSize size).Bounded := by
  induction size with
  | zero => exact bounded_empty
  | succ size bounded => exact {
      statement := fun _ operator => bounded.statementRule operator
      assignment := fun _ => bounded.assignmentRule
      expression := fun _ => bounded.expressionRule
      binary := fun least _ => bounded.binaryRule least
      unary := fun _ => bounded.unaryRule
      chain := fun _ => bounded.chainRule
      construct := fun _ => bounded.constructRule }

theorem Bounded.program (bounded : g.Bounded) (operator : m.noIn = false) :
    Keeps m g.program fun p => FitsAt m.depth (.program p) := by
  apply steady_currentSpan.before
  intro start
  apply Keeps.bind (.collect (P := fun s => FitsAt m.depth (.stmt s)) ?_ g.limit)
  · intro body fits
    apply steady_currentSpan.before
    intro last
    exact .pure (fits_plain rfl (allFit_map.mpr fits))
  · apply steady_peek.before
    intro got
    apply Keeps.ite
    · intro _
      exact .pure (by simp)
    · intro _
      apply (bounded.statement m operator).bind
      intro s fits
      exact .pure (by simpa using fits)

end Grammar

end CodeCompletion.Parser
