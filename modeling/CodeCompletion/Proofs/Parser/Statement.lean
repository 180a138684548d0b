import CodeCompletion.Proofs.Parser.Operator

/-! Statements are tidy, and so are programs. A statement that starts with a word is built
from its parts first and gets the span of all that it consumed afterwards. -/
namespace CodeCompletion.Parser

open TreeNode

variable {ls : List Lexeme} {i j : Nat} {g : Grammar} {word : String} (stream : Stream ls)
include stream

theorem reaches_startsLet : Reaches ls i startsLet fun j _ => j = i ∧ True := by
  refine .look (reaches_peekNext stream) fun next _ => ?_
  split <;> exact .pure ⟨rfl, trivial⟩

theorem reaches_bindingKind? : Reaches ls i bindingKind? fun j kind => j = i ∧ Sees ls i kind := by
  refine .look reaches_peek fun token here => ?_
  split
  · exact .pure ⟨rfl, fun _ => ⟨_, here, by simp⟩⟩
  · exact .pure ⟨rfl, fun _ => ⟨_, here, by simp⟩⟩
  · exact .look (reaches_startsLet stream) fun _ _ => .pure ⟨rfl, fun _ => ⟨_, here, by simp⟩⟩
  · exact .pure ⟨rfl, sees_none⟩

theorem reaches_jumpLabel (here : tokenAt ls i = some (.word word)) :
    Reaches ls i jumpLabel fun j _ => i < j := by
  refine .take (reaches_advance stream here (by simp)) fun _ _ => .look reaches_peek fun token _ => ?_
  have rest : ∀ j label, i < j → Reaches ls j (do
      semicolon
      return (label : Option String)) fun j _ => i < j := fun j label lt =>
    (reaches_semicolon stream).bind fun k _ _ _ => .pure (by omega)
  split
  · refine .look reaches_newlineBefore fun newline _ => .ite (fun _ => ?_) fun _ => ?_
    · exact rest _ none (Nat.lt_succ_self i)
    · exact .take (reaches_ident stream) fun name _ => rest _ (some name.name) (by omega)
  · exact rest _ none (Nat.lt_succ_self i)

namespace Grammar.Sound

variable (sound : g.Sound ls)
include sound

theorem declarator : Reaches ls i g.declarator fun j d => Found ls i j (.declarator d) := by
  refine .take (reaches_ident stream) fun target ⟨starts, word⟩ => ?_
  refine (reaches_accept stream (by simp)).bind fun j _ _ _ => ?_
  refine .ite_bind (sound.assignment.optional _) fun k init _ row => ?_
  refine .look (reaches_finish stream starts (by omega)) fun span spans => .pure ?_
  exact .of_row stream spans (row.startEarlier (by omega)) word

theorem declarators : Reaches ls i g.declarators fun j found =>
    Row ls i j (found.map .declarator) := by
  refine .loop (I := fun k found => Row ls i k (found.reverse.map .declarator))
    (fun k found _ row => ?_) g.limit [] (.nil (Nat.le_refl i))
  refine (sound.declarator stream).bind fun m next _ binding => ?_
  have row : Row ls i m ((next :: found).reverse.map .declarator) := by
    simpa using row.append (.single binding)
  refine (reaches_accept stream (by simp)).bind fun j _ le _ => .ite (fun _ => ?_) fun _ => ?_
  · exact .pure (row.stopLater le)
  · exact .pure (row.stopLater le)

theorem condition : Parses ls g.condition .expr := fun i => by
  refine .take (reaches_require stream (by simp)) fun _ _ => ?_
  refine (sound.expression (i + 1)).bind fun j value _ found => ?_
  refine .take (reaches_require stream (by simp)) fun _ _ => .pure ?_
  exact found.widen (Nat.le_succ i) (Nat.le_succ j)

theorem loopStart : Reaches ls i g.loopStart fun j start => Row ls i j (ofLoopStart start) := by
  refine .look reaches_currentSpan fun start starts => ?_
  refine .look (reaches_bindingKind? stream) fun kind sees => .withoutIn ?_
  split
  · obtain ⟨token, here, notEnd⟩ := sees nofun
    refine .take (reaches_advance stream here notEnd) fun _ _ => ?_
    refine (sound.declarators stream).bind fun j declarators _ row => ?_
    refine .look (reaches_finish stream starts (by omega)) fun _ _ => .pure ?_
    exact row.startEarlier (Nat.le_succ i)
  · exact .map ((sound.expression i).mono fun _ _ _ found => .single found)

/-- The rest of a loop over keys or values follows what its head starts with. -/
theorem forEachRest {left : LoopStart} {ofValues : Bool} (here : tokenAt ls j = some (.word word))
    (lt : i < j) (row : Row ls i j (ofLoopStart left)) :
    Prepares ls i j (g.forEachRest left ofValues) .stmt := by
  have rest : Prepares ls i j (do
      let _ ← advance
      let right ← if ofValues then g.assignment else g.expression
      let _ ← require .rightParen
      let body ← g.statement
      return (Stmt.forEach · left right body ofValues)) .stmt := by
    refine .take (reaches_advance stream here (by simp)) fun _ _ => ?_
    refine .ite_bind (sound.assignment.ite _ sound.expression (j + 1)) fun k right _ found => ?_
    refine .take (reaches_require stream (by simp)) fun _ _ => ?_
    refine (sound.statement (k + 1)).bind fun m body _ found' => .pure ?_
    have children := (row.stopLater (Nat.le_succ j)).append
      (.cons (found.stopLater (Nat.le_succ k)) (.single found'))
    exact .of_row stream (by omega) (fun _ => children) (fun _ => rfl) fun _ => trivial
  cases left with
  | bindings => exact .ite (fun _ => .fail_bind) fun _ => rest
  | expr => exact rest

/-- The rest of a loop with a condition follows what its head starts with, if anything. -/
theorem forRest {init : Option LoopStart} (lt : i < j)
    (row : Row ls i j (init.toList.flatMap ofLoopStart)) :
    Prepares ls i j (g.forRest init) .stmt := by
  refine .take (reaches_require stream (by simp)) fun _ _ => .look reaches_peek fun _ _ => ?_
  refine .ite_bind (sound.expression.leftOut _) fun k test _ row' => ?_
  refine .take (reaches_require stream (by simp)) fun _ _ => .look reaches_peek fun _ _ => ?_
  refine .ite_bind (sound.expression.leftOut _) fun l update _ row'' => ?_
  refine .take (reaches_require stream (by simp)) fun _ _ => ?_
  refine (sound.statement (l + 1)).bind fun m body _ found => .pure ?_
  have children := (row.stopLater (Nat.le_succ j)).append
    ((row'.stopLater (Nat.le_succ k)).append
      ((row''.stopLater (Nat.le_succ l)).append (.single found)))
  exact .of_row stream (by omega) (fun _ => children) (fun _ => rfl) fun _ => trivial

theorem caseHead : Reaches ls i g.caseHead fun j test => i < j ∧ Row ls i j (exprs? test) := by
  refine (reaches_accept stream (by simp)).bind fun j _ _ at_ => .ite (fun taken => ?_) fun _ => ?_
  · rw [if_pos taken] at at_
    refine .map ((sound.expression j).mono fun k _ _ found => ⟨by omega, .single ?_⟩)
    exact found.startEarlier (by omega)
  refine (reaches_accept stream (by simp)).bind fun k _ _ at_ => .ite (fun taken => ?_) fun _ => ?_
  · rw [if_pos taken] at at_
    exact .pure ⟨by omega, .nil (by omega)⟩
  · exact .look reaches_peek fun _ _ => .fail

theorem switchCase : Parses ls g.switchCase .switchCase := fun i => by
  refine .look reaches_currentSpan fun start starts => ?_
  refine (sound.caseHead stream).bind fun j test _ ⟨_, row⟩ => ?_
  refine .take (reaches_require stream (by simp)) fun _ _ => ?_
  refine (reaches_collect .stmt (fun _ => True) (fun k => ?_) g.limit).bind
    fun m body _ ⟨row', _⟩ => ?_
  · refine .look reaches_peek fun token _ => ?_
    split
    case h_5 => exact (sound.statement k).bind fun _ _ _ found => .pure found
    all_goals exact .pure trivial
  refine .look (reaches_finish stream starts (by omega)) fun span spans => .pure ?_
  exact .of_row stream spans (row.append (row'.startEarlier (Nat.le_succ j))) trivial

theorem expressionStatement : Prepares ls i i g.expressionStatement .stmt := by
  refine (sound.expressionRule stream i).bind fun j value _ found => ?_
  refine (reaches_semicolon stream).bind fun k _ le _ => .pure ?_
  have := found.lt
  exact .of_row stream (by omega) (fun _ => .single (found.stopLater le)) (fun _ => rfl) fun _ => trivial

theorem returnRule (here : tokenAt ls i = some (.word "return")) :
    Prepares ls i i g.returnRule .stmt := by
  refine .take (reaches_advance stream here (by simp)) fun _ _ => ?_
  refine .look reaches_peek fun got _ => .look reaches_newlineBefore fun newline _ => ?_
  refine .ite_bind (sound.expression.leftOut _) fun j value _ row => ?_
  refine (reaches_semicolon stream).bind fun k _ le _ => .pure ⟨by omega, fun span spans => ?_⟩
  exact .of_row stream spans (row.widen (Nat.le_succ i) le) ⟨i, k, spans, here⟩

section Words

variable (here : tokenAt ls i = some (.word word))
include here

theorem catchClause : Reaches ls i g.catchClause fun j clause =>
    Found ls i j (.catchClause clause) := by
  refine .take (reaches_advance stream here (by simp)) fun start starts => ?_
  refine (reaches_accept stream (by simp)).bind fun j _ _ _ => ?_
  have rest : ∀ k param, i < k → (∀ name ∈ param, Occurs ls (.word name.name)) → Reaches ls k (do
      let body ← g.block
      return (⟨param, body, ← finish start⟩ : CatchClause)) fun j clause =>
        Found ls i j (.catchClause clause) := by
    intro k param lt named
    refine (sound.block stream k).bind fun m body _ found => ?_
    refine .look (reaches_finish stream starts (by omega)) fun span spans => .pure ?_
    exact .of_row stream spans (.single (found.startEarlier (by omega))) named
  refine .ite (fun _ => ?_) fun _ => rest j none (by omega) (by simp)
  refine .take (reaches_ident stream) fun name ⟨_, word⟩ => ?_
  refine .take (reaches_require stream (by simp)) fun _ _ => rest _ (some name) (by omega) ?_
  simpa using word

theorem declarationRule {kind : BindingKind} : Prepares ls i i (g.declarationRule kind) .stmt := by
  refine .take (reaches_advance stream here (by simp)) fun _ _ => ?_
  refine (sound.declarators stream).bind fun j declarators _ row => ?_
  refine (reaches_semicolon stream).bind fun k _ le _ => .pure ?_
  exact .of_row stream (by omega) (fun _ => row.widen (Nat.le_succ i) le) (fun _ => rfl) fun _ => trivial

theorem ifRule : Prepares ls i i g.ifRule .stmt := by
  refine .take (reaches_advance stream here (by simp)) fun _ _ => ?_
  refine (sound.condition stream (i + 1)).bind fun j test _ found => ?_
  refine (sound.statement j).bind fun k consequent _ found' => ?_
  refine (reaches_accept stream (by simp)).bind fun l _ le _ => ?_
  refine .ite_bind (sound.statement.optional _) fun m alternate _ row => .pure ?_
  have children := Row.cons (found.startEarlier (Nat.le_succ i))
    (.cons found' (row.startEarlier le))
  exact .of_row stream (by omega) (fun _ => children) (fun _ => rfl) fun _ => trivial

theorem forRule : Prepares ls i i g.forRule .stmt := by
  refine .take (reaches_advance stream here (by simp)) fun _ _ => ?_
  refine .take (reaches_require stream (by simp)) fun _ _ => ?_
  refine .look reaches_peek fun _ _ => .ite (fun _ => ?_) fun _ => ?_
  · exact sound.forRest stream (by omega) (.nil (by omega))
  refine (sound.loopStart stream).bind fun j left _ row => .look reaches_peek fun token here => ?_
  have row := row.startEarlier (k := i) (by omega)
  split
  · exact sound.forEachRest stream here (by omega) row
  · exact sound.forEachRest stream here (by omega) row
  · exact sound.forRest stream (by omega) (by simpa using row)

theorem whileRule : Prepares ls i i g.whileRule .stmt := by
  refine .take (reaches_advance stream here (by simp)) fun _ _ => ?_
  refine (sound.condition stream (i + 1)).bind fun j test _ found => ?_
  refine (sound.statement j).bind fun k body _ found' => .pure ?_
  have children := Row.cons (found.startEarlier (Nat.le_succ i)) (.single found')
  exact .of_row stream (by omega) (fun _ => children) (fun _ => rfl) fun _ => trivial

theorem doRule : Prepares ls i i g.doRule .stmt := by
  refine .take (reaches_advance stream here (by simp)) fun _ _ => ?_
  refine (sound.statement (i + 1)).bind fun j body _ found => ?_
  refine .take (reaches_requireWord stream) fun _ _ => ?_
  refine (sound.condition stream (j + 1)).bind fun k test _ found' => ?_
  refine (reaches_accept stream (by simp)).bind fun m _ le _ => .pure ?_
  have children := Row.cons (found.widen (Nat.le_succ i) (Nat.le_succ j))
    (.single (found'.stopLater le))
  exact .of_row stream (by omega) (fun _ => children) (fun _ => rfl) fun _ => trivial

theorem switchRule : Prepares ls i i g.switchRule .stmt := by
  refine .take (reaches_advance stream here (by simp)) fun _ _ => ?_
  refine (sound.condition stream (i + 1)).bind fun j discriminant _ found => ?_
  refine .take (reaches_require stream (by simp)) fun _ _ => ?_
  refine (reaches_collect .switchCase (fun _ => True) (fun k => ?_) g.limit).bind
    fun m cases _ ⟨row, _⟩ => .pure ?_
  · refine (reaches_accept stream (by simp)).bind fun l _ le _ => .ite (fun _ => ?_) fun _ => ?_
    · exact .pure trivial
    · refine (sound.switchCase stream l).bind fun m _ _ found => .pure ?_
      exact found.startEarlier le
  have children := Row.cons (found.widen (Nat.le_succ i) (Nat.le_succ j)) row
  exact .of_row stream (by omega) (fun _ => children) (fun _ => rfl) fun _ => trivial

theorem tryRule : Prepares ls i i g.tryRule .stmt := by
  refine .take (reaches_advance stream here (by simp)) fun _ _ => ?_
  refine (sound.block stream (i + 1)).bind fun j body _ found => .look reaches_peek fun _ here => ?_
  refine .ite_bind (P := fun k handler => Row ls j k (handler.toList.map .catchClause))
    (.ite (fun same => .map ?_) fun _ => .pure (.nil (Nat.le_refl j))) fun k handler _ row => ?_
  · exact (sound.catchClause stream (same ▸ here)).mono fun _ _ _ found => .single found
  refine (reaches_accept stream (by simp)).bind fun l _ le _ => ?_
  refine .ite_bind ((sound.block stream).optional _) fun m finalizer _ row' => ?_
  refine .ite (fun _ => .fail_bind) fun _ => .pure ?_
  have children := Row.cons (found.startEarlier (Nat.le_succ i))
    (row.append (row'.startEarlier le))
  exact .of_row stream (by omega) (fun _ => children) (fun _ => rfl) fun _ => trivial

theorem throwRule : Prepares ls i i g.throwRule .stmt := by
  refine .take (reaches_advance stream here (by simp)) fun _ _ => ?_
  refine .look reaches_newlineBefore fun newline _ => .ite (fun _ => .fail_bind) fun _ => ?_
  refine (sound.expression (i + 1)).bind fun j value _ found => ?_
  refine (reaches_semicolon stream).bind fun k _ le _ => .pure ?_
  have child := Row.single (found.widen (Nat.le_succ i) le)
  exact .of_row stream (by omega) (fun _ => child) (fun _ => rfl) fun _ => trivial

theorem wordStatement : Prepares ls i i (g.wordStatement word) .stmt := by
  unfold Grammar.wordStatement
  split
  · exact sound.declarationRule stream here
  · exact sound.declarationRule stream here
  · refine (sound.function stream true i).bind fun j value _ found => .pure ?_
    exact .of_row stream found.lt (fun _ => .single found) (fun _ => rfl) fun _ => trivial
  · refine (sound.classDef stream true i).bind fun j value _ found => .pure ?_
    exact .of_row stream found.lt (fun _ => .single found) (fun _ => rfl) fun _ => trivial
  · exact sound.returnRule stream here
  · exact sound.ifRule stream here
  · exact sound.forRule stream here
  · exact sound.whileRule stream here
  · exact sound.doRule stream here
  · exact sound.switchRule stream here
  · exact sound.tryRule stream here
  · exact sound.throwRule stream here
  · refine (reaches_jumpLabel stream here).bind fun j label _ lt => .pure ?_
    exact .of_row stream lt (fun _ => .nil (Nat.le_of_lt lt)) (fun _ => rfl) fun _ => trivial
  · refine (reaches_jumpLabel stream here).bind fun j label _ lt => .pure ?_
    exact .of_row stream lt (fun _ => .nil (Nat.le_of_lt lt)) (fun _ => rfl) fun _ => trivial
  · refine .take (reaches_advance stream here (by simp)) fun _ _ => ?_
    refine (reaches_semicolon stream).bind fun j _ le _ => .pure ?_
    exact .of_row stream le (fun _ => .nil (Nat.le_of_lt le)) (fun _ => rfl) fun _ => trivial
  · exact .fail
  · exact .fail
  · refine .look (reaches_startsLet stream) fun _ _ => .ite (fun _ => ?_) fun _ => ?_
    · exact sound.declarationRule stream here
    refine .look (reaches_peekNext stream) fun next after => .ite (fun labels => ?_) fun _ => ?_
    · obtain rfl : next = .colon := by simp at labels; exact labels.2
      refine .take (reaches_advance stream here (by simp)) fun _ _ => ?_
      refine .take (reaches_advance stream (after _ here (by simp)) (by simp)) fun _ _ => ?_
      refine (sound.statement (i + 1 + 1)).bind fun j body _ found => .pure ?_
      have child := Row.single (found.startEarlier (k := i) (by omega))
      exact .of_row stream (by omega) (fun _ => child) (fun _ => rfl) fun _ => trivial
    · exact sound.expressionStatement stream

end Words

theorem statementRule : Parses ls g.statementRule .stmt := fun i => by
  refine .deeper (.look reaches_currentSpan fun start starts => ?_)
  refine .look reaches_peek fun token here => ?_
  split
  · refine (sound.block stream i).bind fun j block _ found => .pure ?_
    obtain ⟨a, b, starts, stops, spans, tight⟩ := found.tight
    have statement : Found ls a b (.stmt (.block block.span block)) :=
      .of_row stream spans (.single tight) rfl
    exact statement.widen starts stops
  · refine .take (reaches_advance stream here (by simp)) fun _ _ => .pure ?_
    exact .of_row stream starts (.nil (Nat.le_succ i)) trivial
  · refine (sound.wordStatement stream here).bind fun j build _ ⟨lt, builds⟩ => ?_
    exact .look (reaches_finish stream starts lt) fun span spans => .pure (builds span spans)
  · refine (sound.expressionStatement stream).bind fun j build _ ⟨lt, builds⟩ => ?_
    exact .look (reaches_finish stream starts lt) fun span spans => .pure (builds span spans)

end Grammar.Sound

namespace Grammar

/-- The rules of every size are sound, as those they refer to are of the size below. -/
theorem sound_ofSize (size : Nat) : (ofSize size).Sound ls := by
  induction size with
  | zero => exact sound_empty
  | succ size sound => exact {
      statement := sound.statementRule stream
      assignment := sound.assignmentRule stream
      expression := sound.expressionRule stream
      binary := sound.binaryRule stream
      unary := sound.unaryRule stream
      chain := sound.chainRule stream
      construct := sound.constructRule stream }

/-- A program reaches from the first lexeme through the end of input. -/
theorem Sound.program (sound : g.Sound ls) :
    Reaches ls 0 g.program fun j program => Found ls 0 (j + 1) (.program program) := by
  refine .look reaches_currentSpan fun start starts => ?_
  refine (reaches_collect .stmt (fun _ => True) (fun k => ?_) g.limit).bind
    fun j body _ ⟨row, _⟩ => ?_
  · refine .look reaches_peek fun token _ => .ite (fun _ => .pure trivial) fun _ => ?_
    exact (sound.statement k).bind fun _ _ _ found => .pure found
  refine .look reaches_currentSpan fun last ends => .pure ?_
  exact .of_row stream (stream.cover starts ends (by omega) (by omega))
    (row.stopLater (Nat.le_succ j)) trivial

end Grammar

end CodeCompletion.Parser
