import CodeCompletion.Proofs.Parser.Course.Basic

/-! The courses of functions, classes, values and operators. A rule that refers back to the grammar
does so after it has consumed a lexeme, so that rules of one size less are enough there. -/
namespace CodeCompletion.Parser

variable {α : Type} {ls : List Lexeme} {b i j : Nat} {g : Grammar}

structure Grammar.Ready (g : Grammar) (ls : List Lexeme) (b : Nat) : Prop where
  limit : ls.length ≤ g.limit + b
  statement : ∀ i, b ≤ i → Advances ls i g.statement
  assignment : ∀ i, b ≤ i → Advances ls i g.assignment
  expression : ∀ i, b ≤ i → Advances ls i g.expression
  binary : ∀ least i, b ≤ i → Advances ls i (g.binary least)
  unary : ∀ i, b ≤ i → Advances ls i g.unary
  chain : ∀ i, b ≤ i → Advances ls i g.chain
  construct : ∀ i, b ≤ i → Advances ls i g.construct

theorem proceeds_optionalName {isDeclaration : Bool} {missing : SyntaxError.Reason}
    (known : missing ≠ .missingEndOfInput) : Proceeds ls i (optionalName isDeclaration missing) := by
  refine .look course_peek fun token _ => ?_
  split
  · refine .ite (fun _ => ?_) fun _ => .ite (fun _ => .fail known) fun _ => .pure trivial
    exact course_ident.onward fun _ _ _ _ => .pure trivial
  · exact .ite (fun _ => .fail known) fun _ => .pure trivial

theorem course_modifies {word : String} : Course ls i (modifies word) fun j found =>
    j = i ∧ (found = true → tokenAt ls i = some (.word word)) := by
  refine .look course_peek fun token here => .ite (fun same => ?_) fun _ => .pure ⟨rfl, nofun⟩
  subst same
  refine .look course_peekNext fun next _ => ?_
  split <;> exact .pure ⟨rfl, fun _ => here⟩

theorem proceeds_accessor : Proceeds ls i accessor := by
  refine .look course_modifies fun found here => .ite (fun isGetter => ?_) fun _ => ?_
  · exact (Course.advance (here isGetter) nofun).onward fun _ _ _ _ => .pure trivial
  refine .look course_modifies fun found here => .ite (fun isSetter => ?_) fun _ => .pure trivial
  exact (Course.advance (here isSetter) nofun).onward fun _ _ _ _ => .pure trivial

theorem course_propertyAccessor :
    Course ls i propertyAccessor fun j kind => j = i ∧ Sees ls i kind := by
  refine .look course_peek fun token here => ?_
  split
  all_goals
    refine .look (R := Sees ls i) (.pure ⟨rfl, ?_⟩) fun kind sees => ?_
    · first
      | exact sees_none
      | exact fun _ => ⟨_, here, by simp⟩
    refine .look course_peekNext fun next _ => ?_
    split
    case h_5 => exact .pure ⟨rfl, sees⟩
    all_goals exact .pure ⟨rfl, sees_none⟩

theorem course_binaryOperator? : Course ls i binaryOperator? fun j op => j = i ∧ Sees ls i op :=
  .observe fun _ at_ => ⟨rfl, fun given => ⟨_, at_.token, fun same => given (by simp [same])⟩⟩

theorem course_unaryOperator? : Course ls i unaryOperator? fun j op => j = i ∧ Sees ls i op := by
  refine .look course_peek fun token here => ?_
  split
  · exact .pure ⟨rfl, fun _ => ⟨_, here, nofun⟩⟩
  · exact .pure ⟨rfl, fun _ => ⟨_, here, nofun⟩⟩
  · exact .pure ⟨rfl, sees_none⟩

theorem course_updateOperator? : Course ls i updateOperator? fun j op => j = i ∧ Sees ls i op := by
  refine .look course_peek fun token here => ?_
  split
  · exact .pure ⟨rfl, fun _ => ⟨_, here, nofun⟩⟩
  · exact .pure ⟨rfl, sees_none⟩

theorem course_assignmentOperator? :
    Course ls i assignmentOperator? fun j op => j = i ∧ Sees ls i op := by
  refine .look course_peek fun token here => ?_
  split
  · exact .pure ⟨rfl, fun _ => ⟨_, here, nofun⟩⟩
  · exact .pure ⟨rfl, sees_none⟩

theorem proceeds_finish {start : Span} {f : Span → α} :
    Proceeds ls i (do return f (← finish start)) :=
  .stay course_finish fun _ => .pure trivial

namespace Grammar.Ready

variable (ready : g.Ready ls b)
include ready

theorem room (le : b ≤ i) : ls.length ≤ g.limit + i := by
  have := ready.limit
  omega

theorem commaList {close : Token} {item : Parser (α × Bool)} (notEnd : close ≠ .endOfInput)
    (le : b ≤ i) (each : ∀ k, i ≤ k → Advances ls k item) :
    Proceeds ls i (g.commaList close item) := by
  refine .loop (I := fun _ _ => True) (ready.room le) trivial fun k found further _ => ?_
  refine course_accept_ite notEnd (.pure trivial) ?_
  refine (each k further).bind fun j a _ lt => ?_
  refine .ite_bind (P := fun _ _ => True) (.ite (fun _ => .pure trivial) fun _ => ?_)
    fun m goesOn le _ => .ite (fun _ => .pure ⟨by omega, trivial⟩) fun _ => ?_
  · exact (course_accept (by simp)).mono fun _ _ _ _ => trivial
  · exact (course_require notEnd).bind fun _ _ _ _ => .pure trivial

theorem computed (le : b ≤ i + 1) : Advances ls i g.computed := by
  refine .take (course_require (by simp)) fun _ => ?_
  refine (ready.expression _ le).withIn.onward fun j value _ _ => ?_
  exact (course_require (by simp)).onward fun _ _ _ _ => .pure trivial

theorem block (le : b ≤ i + 1) : Advances ls i g.block := by
  refine .take (course_require (by simp)) fun start => ?_
  refine Course.onward (P := fun j _ => tokenAt ls j = some .rightBrace)
    (.collect (ready.room le) fun k further => .look course_peek fun token here => ?_)
    fun j body _ here => (Course.advance here (by simp)).onward fun _ _ _ _ => proceeds_finish
  split
  · exact .pure here
  · exact .fail (by simp)
  · exact (ready.statement k (by omega)).bind fun _ _ _ lt => .pure lt

theorem param (le : b ≤ i + 1) : Advances ls i g.param := by
  refine (course_accept (by simp)).bind fun j isRest further _ => ?_
  refine Course.bind course_ident fun k name _ next => Proceeds.past (j := k) ?_ (by omega)
  refine .ite_bind (P := fun _ _ => True) (.ite (fun _ => .pure trivial) fun _ => ?_)
    fun m hasDefault _ _ => ?_
  · exact (course_accept (by simp)).mono fun _ _ _ _ => trivial
  · exact .ite_bind (.optional (ready.assignment m (by omega)).proceeds) fun _ _ _ _ => .pure trivial

theorem params (le : b ≤ i + 1) : Advances ls i g.params := by
  refine .take (course_require (by simp)) fun _ => .withIn ?_
  exact ready.commaList (by simp) le fun k further => ready.param (by omega)

theorem functionBlock (le : b ≤ i + 1) : Advances ls i g.functionBlock := (ready.block le).withIn

theorem function (isDeclaration : Bool) (le : b ≤ i + 1) :
    Advances ls i (g.function isDeclaration) := by
  refine .take course_requireWord fun start => ?_
  refine (course_accept (by simp)).onward fun j _ _ _ => ?_
  refine (proceeds_optionalName (by simp)).onward fun k name _ _ => ?_
  refine (ready.params (by omega)).onward fun m params _ _ => ?_
  exact (ready.functionBlock (by omega)).onward fun _ _ _ _ => proceeds_finish

theorem method {start : Span} (le : b ≤ i + 1) : Advances ls i (g.method start) := by
  refine (ready.params le).before fun j params _ => ?_
  exact (ready.functionBlock (by omega)).onward fun _ _ _ _ => proceeds_finish

theorem arrow (le : b ≤ i + 1) : Advances ls i g.arrow := by
  refine .stay course_currentSpan fun start => .look course_peek fun token _ => ?_
  -- Both forms of parameters go on in the same way.
  have rest (j : Nat) (params : List Param) (lt : i < j) : Proceeds ls j (do
      if ← newlineBefore then fail .newlineBeforeArrow
      let _ ← require .arrow
      let body ←
        if (← peek) = .leftBrace then FunctionBody.block <$> g.functionBlock
        else FunctionBody.expr <$> g.assignment
      let span ← finish start
      return Expr.function span ⟨none, params, body, true, span⟩) := by
    refine .stay course_newlineBefore fun newline => .ite (fun _ => .fail_bind nofun) fun _ => ?_
    refine (course_require (by simp)).onward fun k _ _ _ => .look course_peek fun token _ => ?_
    refine .ite_bind (P := fun _ _ => True) (.ite (fun _ => .map ?_) fun _ => .map ?_)
      fun m body _ _ => proceeds_finish
    · exact (ready.functionBlock (by omega)).proceeds
    · exact (ready.assignment k (by omega)).proceeds
  refine .ite (fun _ => ?_) fun _ => ?_
  · exact (ready.params le).before rest
  · exact .take course_ident fun name => rest _ _ (Nat.lt_succ_self i)

theorem propertyKey (le : b ≤ i + 1) : Advances ls i g.propertyKey := by
  refine .look course_peek fun token here => ?_
  split
  case h_4 => exact .map (ready.computed le)
  case h_5 => exact .fail nofun
  all_goals exact .take (.advance here nofun) fun _ => .pure trivial

theorem classMember (le : b ≤ i + 1) : Advances ls i g.classMember := by
  refine .stay course_currentSpan fun start => .look course_modifies fun isStatic here => ?_
  refine .when (fun modified => .advance (here modified) nofun) fun j _ => ?_
  refine Course.bind proceeds_accessor fun k which _ _ => ?_
  refine Course.bind (course_accept (by simp)) fun l isGenerator _ _ => ?_
  refine Course.bind (ready.propertyKey (by omega)) fun m key _ lt =>
    Proceeds.past (j := m) ?_ (by omega)
  refine .look course_peek fun token _ => .ite (fun _ => ?_) fun _ => .ite (fun _ => ?_) fun _ => ?_
  · have method : Proceeds ls m (memberKind key isStatic which <$> withIn (g.method start)) :=
      .map (ready.method (by omega)).withIn.proceeds
    exact method.onward fun _ _ _ _ => proceeds_finish
  · exact .look course_peek fun _ _ => .fail_bind nofun
  · refine (course_accept (by simp)).onward fun n _ _ _ => ?_
    refine .ite_bind (.optional (ready.assignment n (by omega)).withIn.proceeds) fun _ _ _ _ => ?_
    exact proceeds_semicolon.onward fun _ _ _ _ => proceeds_finish

theorem classBody (le : b ≤ i) : Proceeds ls i g.classBody := by
  refine .loop (I := fun _ _ => True) (ready.room le) trivial fun k found further _ => ?_
  refine course_accept_ite (by simp) (.pure trivial) ?_
  refine course_accept_ite (by simp) (.pure ⟨Nat.lt_succ_self k, trivial⟩) ?_
  refine .look course_peek fun token _ => .ite (fun _ => .fail_bind nofun) fun _ => ?_
  exact (ready.classMember (by omega)).bind fun _ _ _ lt => .pure ⟨lt, trivial⟩

theorem classDef (isDeclaration : Bool) (le : b ≤ i + 1) :
    Advances ls i (g.class isDeclaration) := by
  refine .take course_requireWord fun start => ?_
  refine (proceeds_optionalName (by simp)).onward fun j name _ _ => ?_
  refine (course_accept (by simp)).onward fun k _ _ _ => ?_
  refine .ite_bind (.optional (ready.chain k (by omega)).proceeds) fun m parent _ _ => ?_
  refine (course_require (by simp)).onward fun n bodyStart _ _ => ?_
  refine (ready.classBody (by omega)).onward fun l members _ _ => ?_
  exact .stay course_finish fun bodySpan => proceeds_finish

theorem spreadable (le : b ≤ i) : Advances ls i g.spreadable := by
  refine .look course_peek fun token here => .ite (fun same => ?_) fun _ => ready.assignment i le
  refine .take (.advance here (by simp [same])) fun start => ?_
  exact (ready.assignment _ (by omega)).onward fun _ _ _ _ => proceeds_finish

theorem arguments (le : b ≤ i + 1) : Advances ls i g.arguments := by
  refine .take (course_require (by simp)) fun _ => .withIn (ready.commaList (by simp) le ?_)
  intro k further
  exact (ready.spreadable (by omega)).bind fun _ _ _ lt => .pure lt

theorem elements (le : b ≤ i) : Proceeds ls i g.elements := by
  refine .loop (I := fun _ _ => True) (ready.room le) trivial fun k found further _ => ?_
  refine course_accept_ite (by simp) (.pure trivial) ?_
  refine course_accept_ite (by simp) (.pure ⟨Nat.lt_succ_self k, trivial⟩) ?_
  refine (ready.spreadable (by omega)).bind fun j element _ lt => ?_
  refine course_accept_ite (by simp) (.pure ⟨by omega, trivial⟩) ?_
  exact (course_require (by simp)).bind fun _ _ _ _ => .pure trivial

theorem methodValue {start : Span} (le : b ≤ i + 1) : Proceeds ls i (g.methodValue start) :=
  (ready.method le).onward fun _ _ _ _ => .pure trivial

theorem propertyValue {start : Span} {isGenerator : Bool} {first : Token} (le : b ≤ i) :
    Proceeds ls i (g.propertyValue start isGenerator first) := by
  refine .look course_peek fun token _ => .ite (fun _ => ready.methodValue (by omega)) fun _ => ?_
  refine .ite (fun _ => .fail nofun) fun _ => ?_
  refine course_accept_ite (by simp) (ready.assignment _ (by omega)).proceeds ?_
  refine .look course_peek fun token _ => ?_
  have shorthand (name : String) : Proceeds ls i (do
      if isReserved name then fail (.expectedPropertyColon (← peek))
      else return Expr.ident (← previousSpan) name) := by
    refine .ite (fun _ => .look course_peek fun _ _ => .fail nofun) fun _ => ?_
    exact .stay course_previousSpan fun _ => .pure trivial
  split
  · exact shorthand _
  · exact shorthand _
  · exact .fail nofun

theorem plainProperty {start : Span} (le : b ≤ i + 1) :
    Advances ls i (g.plainProperty start) := by
  refine Course.bind (course_accept (by simp)) fun j _ _ _ => .look course_peek fun first _ => ?_
  refine Course.bind (ready.propertyKey (by omega)) fun k key _ lt =>
    Proceeds.past (j := k) ?_ (by omega)
  exact (ready.propertyValue (by omega)).onward fun _ _ _ _ => proceeds_finish

theorem property (le : b ≤ i + 1) : Advances ls i g.property := by
  refine .stay course_currentSpan fun start => .look course_propertyAccessor fun kind sees => ?_
  split
  · obtain ⟨token, here, notEnd⟩ := sees nofun
    refine .take (.advance here notEnd) fun _ => ?_
    refine (ready.propertyKey (by omega)).onward fun j key _ _ => ?_
    exact (ready.methodValue (by omega)).onward fun _ _ _ _ => proceeds_finish
  · exact ready.plainProperty le

theorem properties (le : b ≤ i) : Proceeds ls i g.properties := by
  refine (ready.commaList (by simp) le fun k further => ?_).onward fun _ _ _ _ => .pure trivial
  have entry : Advances ls k (do
      if ← accept .ellipsis then
        let _ ← g.assignment
        return none
      else some <$> g.property) := by
    refine course_accept_ite (by simp) ?_ (.map (ready.property (by omega)))
    exact (ready.assignment _ (by omega)).bind fun _ _ _ lt => .pure (by omega)
  exact entry.bind fun _ _ _ lt => .pure lt

theorem wordValue {word : String} (here : tokenAt ls i = some (.word word)) (le : b ≤ i + 1) :
    Advances ls i (g.wordValue word) := by
  unfold Grammar.wordValue
  split
  case h_6 => exact (ready.function false le).before fun _ _ _ => .pure trivial
  case h_7 => exact (ready.classDef false le).before fun _ _ _ => .pure trivial
  case h_8 => exact .take course_ident fun _ => .pure trivial
  all_goals exact .take (.advance here nofun) fun _ => .pure trivial

theorem value (le : b ≤ i + 1) : Advances ls i g.value := by
  refine .stay course_currentSpan fun start => .look course_peek fun token here => ?_
  split
  case h_1 => exact (ready.wordValue here le).before fun _ _ _ => proceeds_finish
  case h_6 =>
    refine .take (.advance here nofun) fun _ => ?_
    refine (ready.expression _ le).withIn.onward fun j inner _ _ => ?_
    exact (course_require (by simp)).onward fun _ _ _ _ => .pure trivial
  case h_7 =>
    refine .take (.advance here nofun) fun _ => ?_
    exact (ready.elements le).withIn.onward fun _ _ _ _ => proceeds_finish
  case h_8 =>
    refine .take (.advance here nofun) fun _ => ?_
    exact (ready.properties le).withIn.onward fun _ _ _ _ => proceeds_finish
  case h_9 => exact .fail nofun
  all_goals exact .take (.advance here nofun) fun _ => proceeds_finish

theorem constructorLink {callee : Expr} (le : b ≤ i + 1) :
    Course ls i (g.constructorLink callee) fun j r => r.elim (fun _ => i < j ∧ True) fun _ => True := by
  have link (j : Nat) (property : MemberName) (lt : i < j) : Course ls j (do
      return .inl (Expr.member (callee.span.cover (← previousSpan)) callee property false))
        fun k (r : Expr ⊕ Expr) => r.elim (fun _ => i < k ∧ True) fun _ => True :=
    .stay course_previousSpan fun _ => .pure ⟨lt, trivial⟩
  refine .look course_peek fun token here => ?_
  split
  · refine .descend_bind (Course.bind (.advance here nofun) fun j _ _ next => ?_)
    exact course_propertyName.bind fun k name _ next => link k _ (by omega)
  · exact .descend_bind ((ready.computed le).bind fun j value _ lt => link j _ lt)
  · exact .pure trivial

theorem constructRule (le : b ≤ i + 1) : Advances ls i g.constructRule := by
  refine .take course_requireWord fun start => ?_
  have callee : Proceeds ls (i + 1) (levelled do
      let base ← if (← peek) = .word "new" then deeper g.construct else g.value
      loop g.constructorLink g.limit base) := by
    refine .levelled (.look course_peek fun token _ => ?_)
    refine .ite_bind (.ite (fun _ => (ready.construct _ le).deeper.proceeds) fun _ =>
      (ready.value (by omega)).proceeds) fun j base further _ => ?_
    exact .loop (ready.room (by omega)) trivial fun k e _ _ => ready.constructorLink (by omega)
  refine callee.onward fun j callee _ _ => .look course_peek fun token _ => ?_
  refine .ite_bind (P := fun _ _ => True) (.ite (fun _ => ?_) fun _ => .pure trivial)
    fun _ _ _ _ => proceeds_finish
  exact (ready.arguments (by omega)).proceeds

/-- A link consumes a lexeme if there is one. -/
theorem link {base : Expr} (le : b ≤ i + 1) :
    Course ls i (g.link base) fun j r => r ≠ none → i < j := by
  refine .look course_peek fun token here => ?_
  split
  · refine .descend_bind (Course.bind (.advance here nofun) fun j _ _ next => ?_)
    exact course_propertyName.bind fun k _ _ next => .pure fun _ => by omega
  · refine .descend_bind (Course.bind (.advance here nofun) fun j _ _ next => ?_)
    refine .look course_peek fun token _ => ?_
    split
    · exact (ready.arguments (by omega)).bind fun k _ _ lt => .pure fun _ => by omega
    · exact (ready.computed (by omega)).bind fun k _ _ lt => .pure fun _ => by omega
    · exact course_propertyName.bind fun k _ _ next => .pure fun _ => by omega
  · exact .descend_bind ((ready.computed le).bind fun _ _ _ lt => .pure fun _ => lt)
  · exact .descend_bind ((ready.arguments le).bind fun _ _ _ lt => .pure fun _ => lt)
  · exact .descend_bind (Course.bind (.advance here nofun) fun j _ _ next => .pure fun _ => by omega)
  · exact .pure (absurd rfl)

theorem chainRule (le : b ≤ i + 1) : Advances ls i g.chainRule := by
  refine .stay course_currentSpan fun start => .levelled (.look course_peek fun token _ => ?_)
  refine .ite_bind (P := fun j _ => i < j) (.ite (fun _ => ready.constructRule le) fun _ =>
    ready.value le) fun j base _ lt => Proceeds.past ?_ lt
  refine .loop (I := fun _ _ => True) (ready.room (by omega)) trivial fun k base _ _ => ?_
  refine (ready.link (by omega)).bind fun m r _ post => ?_
  cases r with
  | none => exact .pure trivial
  | some build => exact .stay course_finish fun _ => .pure ⟨post nofun, trivial⟩

theorem postfixRule (le : b ≤ i + 1) : Advances ls i g.postfixRule := by
  refine .stay course_currentSpan fun start => ?_
  refine (ready.chainRule le).before fun j operand _ => ?_
  refine .look course_updateOperator? fun op sees => .stay course_newlineBefore fun newline => ?_
  split
  · obtain ⟨token, here, notEnd⟩ := sees nofun
    refine .ite (fun _ => .fail_bind nofun) fun _ => ?_
    exact (Course.advance here notEnd).onward fun _ _ _ _ => proceeds_finish
  · exact .pure trivial

theorem unaryRule (le : b ≤ i + 1) : Advances ls i g.unaryRule := by
  refine .stay course_currentSpan fun start => .look course_unaryOperator? fun op sees => ?_
  split
  · obtain ⟨token, here, notEnd⟩ := sees nofun
    refine .take (.advance here notEnd) fun _ => ?_
    exact (ready.unary _ le).deeper.onward fun _ _ _ _ => proceeds_finish
  refine .look course_updateOperator? fun op sees => ?_
  split
  · obtain ⟨token, here, notEnd⟩ := sees nofun
    refine .take (.advance here notEnd) fun _ => ?_
    refine (ready.unary _ le).deeper.onward fun j operand _ _ => ?_
    exact .ite (fun _ => .fail_bind nofun) fun _ => proceeds_finish
  · exact ready.postfixRule le

theorem binaryRule (least : Nat) (le : b ≤ i + 1) : Advances ls i (g.binaryRule least) := by
  refine .levelled ((ready.unaryRule le).before fun j first lt => ?_)
  refine .loop (I := fun _ _ => True) (ready.room (by omega)) trivial fun k left _ _ => ?_
  refine .look course_binaryOperator? fun op sees => ?_
  split
  · exact .pure trivial
  · obtain ⟨token, here, notEnd⟩ := sees nofun
    refine .ite (fun _ => .pure trivial) fun _ => .descend_bind ?_
    refine Course.bind (.advance here notEnd) fun m _ _ next => ?_
    exact (ready.binary _ m (by omega)).bind fun n right _ lt => .pure ⟨by omega, trivial⟩

theorem conditionalRule (le : b ≤ i + 1) : Advances ls i g.conditionalRule := by
  refine (ready.binaryRule 1 le).before fun j test lt => course_accept_ite (by simp) ?_ (.pure trivial)
  refine (ready.assignment _ (by omega)).withIn.onward fun k consequent _ _ => ?_
  refine (course_require (by simp)).onward fun m _ _ _ => ?_
  exact (ready.assignment m (by omega)).onward fun _ _ _ _ => .pure trivial

theorem assignmentRule (le : b ≤ i + 1) : Advances ls i g.assignmentRule := by
  refine .deeper (.stay course_arrowAhead fun isArrow => .ite (fun _ => ready.arrow le) fun _ => ?_)
  refine (ready.conditionalRule le).before fun j target lt => ?_
  refine .look course_assignmentOperator? fun op sees => ?_
  split
  · exact .pure trivial
  · obtain ⟨token, here, notEnd⟩ := sees (by simp)
    refine .ite (fun _ => .fail_bind (by simp)) fun _ => ?_
    refine (Course.advance here notEnd).onward fun k _ _ _ => ?_
    exact (ready.assignment k (by omega)).onward fun _ _ _ _ => .pure trivial

theorem expressionRule (le : b ≤ i + 1) : Advances ls i g.expressionRule := by
  refine (ready.assignmentRule le).before fun j first lt => .look course_peek fun token _ => ?_
  refine .ite (fun _ => ?_) fun _ => .pure trivial
  have others : Proceeds ls j (collect g.limit do
      if ← accept .comma then some <$> g.assignmentRule else return none) := by
    refine .collect (E := fun _ => True) (ready.room (by omega)) fun k further => ?_
    refine course_accept_ite (by simp) (.map ?_) (.pure trivial)
    exact (ready.assignmentRule (by omega)).mono fun _ _ _ lt => by
      show k < _
      omega
  exact others.onward fun _ _ _ _ => proceeds_finish

end Grammar.Ready

end CodeCompletion.Parser
