import CodeCompletion.Proofs.Parser.Course.Expression

/-! The courses of statements and programs. From lexemes with an end of input, every run of the
parser comes to an end, and on the way it stands on one lexeme after the other. -/
namespace CodeCompletion

namespace Parser

variable {ls : List Lexeme} {b i j : Nat} {g : Grammar} {word : String}

theorem course_startsLet : Course ls i startsLet fun j _ => j = i := by
  refine .look course_peekNext fun next _ => ?_
  split <;> exact .pure rfl

theorem course_bindingKind? : Course ls i bindingKind? fun j kind => j = i ∧ Sees ls i kind := by
  refine .look course_peek fun token here => ?_
  split
  · exact .pure ⟨rfl, fun _ => ⟨_, here, nofun⟩⟩
  · exact .pure ⟨rfl, fun _ => ⟨_, here, nofun⟩⟩
  · exact .stay course_startsLet fun _ => .pure ⟨rfl, fun _ => ⟨_, here, nofun⟩⟩
  · exact .pure ⟨rfl, sees_none⟩

theorem advances_jumpLabel (here : tokenAt ls i = some (.word word)) : Advances ls i jumpLabel := by
  refine .take (.advance here nofun) fun _ => .look course_peek fun token _ => ?_
  have rest (j : Nat) (label : Option String) : Proceeds ls j (do
      semicolon
      return label) := proceeds_semicolon.onward fun _ _ _ _ => .pure trivial
  split
  · refine .stay course_newlineBefore fun newline => .ite (fun _ => rest _ none) fun _ => ?_
    exact course_ident.onward fun j name _ _ => rest j (some name.name)
  · exact rest _ none

namespace Grammar.Ready

variable (ready : g.Ready ls b)
include ready

theorem declarator (le : b ≤ i + 1) : Advances ls i g.declarator := by
  refine .take course_ident fun target => ?_
  refine (course_accept (by simp)).onward fun j _ _ _ => ?_
  refine .ite_bind (.optional (ready.assignment j (by omega)).proceeds) fun k init _ _ => ?_
  exact proceeds_finish

theorem declarators (le : b ≤ i) : Proceeds ls i g.declarators := by
  refine .loop (I := fun _ _ => True) (ready.room le) trivial fun k found further _ => ?_
  refine (ready.declarator (i := k) (by omega)).bind fun j next _ _ => ?_
  exact course_accept_ite (by simp) (.pure ⟨by omega, trivial⟩) (.pure trivial)

theorem condition (le : b ≤ i + 1) : Advances ls i g.condition := by
  refine .take (course_require (by simp)) fun _ => ?_
  refine (ready.expression _ le).onward fun j value _ _ => ?_
  exact (course_require (by simp)).onward fun _ _ _ _ => .pure trivial

theorem loopStart (le : b ≤ i) : Proceeds ls i g.loopStart := by
  refine .stay course_currentSpan fun start => ?_
  refine .look course_bindingKind? fun kind sees => .withoutIn ?_
  split
  · obtain ⟨token, here, notEnd⟩ := sees nofun
    refine (Course.advance here notEnd).onward fun j _ _ _ => ?_
    exact (ready.declarators (by omega)).onward fun _ _ _ _ => proceeds_finish
  · exact .map (ready.expression i le).proceeds

theorem forEachRest {left : LoopStart} {ofValues : Bool} (here : tokenAt ls i = some (.word word))
    (le : b ≤ i) : Proceeds ls i (g.forEachRest left ofValues) := by
  have rest : Proceeds ls i (do
      let _ ← advance
      let right ← if ofValues then g.assignment else g.expression
      let _ ← require .rightParen
      let body ← g.statement
      return (Stmt.forEach · left right body ofValues)) := by
    refine (Course.advance here nofun).onward fun j _ _ _ => ?_
    refine .ite_bind (.ite (fun _ => (ready.assignment j (by omega)).proceeds) fun _ =>
      (ready.expression j (by omega)).proceeds) fun k right _ _ => ?_
    refine (course_require (by simp)).onward fun m _ _ _ => ?_
    exact (ready.statement m (by omega)).onward fun _ _ _ _ => .pure trivial
  cases left with
  | bindings => exact .ite (fun _ => .fail_bind nofun) fun _ => rest
  | expr => exact rest

theorem forRest {init : Option LoopStart} (le : b ≤ i) : Proceeds ls i (g.forRest init) := by
  refine (course_require (by simp)).onward fun j _ _ _ => .look course_peek fun _ _ => ?_
  refine .ite_bind (.leftOut (ready.expression j (by omega)).proceeds) fun k test _ _ => ?_
  refine (course_require (by simp)).onward fun l _ _ _ => .look course_peek fun _ _ => ?_
  refine .ite_bind (.leftOut (ready.expression l (by omega)).proceeds) fun m update _ _ => ?_
  refine (course_require (by simp)).onward fun n _ _ _ => ?_
  exact (ready.statement n (by omega)).onward fun _ _ _ _ => .pure trivial

theorem caseHead (le : b ≤ i + 1) : Advances ls i g.caseHead := by
  refine course_accept_ite (by simp) (.map ?_) ?_
  · exact (ready.expression _ le).mono fun _ _ _ lt => by omega
  · refine course_accept_ite (by simp) (.pure (Nat.lt_succ_self i)) ?_
    exact .look course_peek fun _ _ => .fail nofun

theorem switchCase (le : b ≤ i + 1) : Advances ls i g.switchCase := by
  refine .stay course_currentSpan fun start => ?_
  refine (ready.caseHead le).before fun j test _ => ?_
  refine (course_require (by simp)).onward fun k _ _ _ => ?_
  refine Course.onward (P := fun _ _ => True)
    (.collect (ready.room (by omega)) fun l further => .look course_peek fun token _ => ?_)
    fun _ _ _ _ => proceeds_finish
  split
  case h_5 => exact (ready.statement l (by omega)).bind fun _ _ _ lt => .pure lt
  all_goals exact .pure trivial

theorem expressionStatement (le : b ≤ i + 1) : Advances ls i g.expressionStatement := by
  refine (ready.expressionRule le).before fun j value _ => ?_
  exact proceeds_semicolon.onward fun _ _ _ _ => .pure trivial

section Words

variable (here : tokenAt ls i = some (.word word)) (le : b ≤ i + 1)
include here le

theorem catchClause : Advances ls i g.catchClause := by
  refine .take (.advance here nofun) fun start => ?_
  refine (course_accept (by simp)).onward fun j _ _ _ => ?_
  have rest (k : Nat) (param : Option Ident) (further : i + 1 ≤ k) : Proceeds ls k (do
      let body ← g.block
      return (⟨param, body, ← finish start⟩ : CatchClause)) :=
    (ready.block (by omega)).onward fun _ _ _ _ => proceeds_finish
  refine .ite (fun _ => ?_) fun _ => rest j none (by omega)
  refine course_ident.onward fun k name _ _ => ?_
  exact (course_require (by simp)).onward fun m _ _ _ => rest m (some name) (by omega)

theorem declarationRule {kind : BindingKind} : Advances ls i (g.declarationRule kind) := by
  refine .take (.advance here nofun) fun _ => ?_
  refine (ready.declarators le).onward fun j declarators _ _ => ?_
  exact proceeds_semicolon.onward fun _ _ _ _ => .pure trivial

theorem returnRule : Advances ls i g.returnRule := by
  refine .take (.advance here nofun) fun _ => ?_
  refine .look course_peek fun got _ => .stay course_newlineBefore fun newline => ?_
  refine .ite_bind (.leftOut (ready.expression _ le).proceeds) fun j value _ _ => ?_
  exact proceeds_semicolon.onward fun _ _ _ _ => .pure trivial

theorem ifRule : Advances ls i g.ifRule := by
  refine .take (.advance here nofun) fun _ => ?_
  refine (ready.condition (by omega)).onward fun j test _ _ => ?_
  refine (ready.statement j (by omega)).onward fun k consequent _ _ => ?_
  refine (course_accept (by simp)).onward fun l _ _ _ => ?_
  exact .ite_bind (.optional (ready.statement l (by omega)).proceeds) fun _ _ _ _ => .pure trivial

theorem forRule : Advances ls i g.forRule := by
  refine .take (.advance here nofun) fun _ => ?_
  refine (course_require (by simp)).onward fun j _ _ _ => .look course_peek fun _ _ => ?_
  refine .ite (fun _ => ready.forRest (by omega)) fun _ => ?_
  refine (ready.loopStart (by omega)).onward fun k left _ _ => .look course_peek fun token here => ?_
  split
  · exact ready.forEachRest here (by omega)
  · exact ready.forEachRest here (by omega)
  · exact ready.forRest (by omega)

theorem whileRule : Advances ls i g.whileRule := by
  refine .take (.advance here nofun) fun _ => ?_
  refine (ready.condition (by omega)).onward fun j test _ _ => ?_
  exact (ready.statement j (by omega)).onward fun _ _ _ _ => .pure trivial

theorem doRule : Advances ls i g.doRule := by
  refine .take (.advance here nofun) fun _ => ?_
  refine (ready.statement _ le).onward fun j body _ _ => ?_
  refine course_requireWord.onward fun k _ _ _ => ?_
  refine (ready.condition (by omega)).onward fun m test _ _ => ?_
  exact (course_accept (by simp)).onward fun _ _ _ _ => .pure trivial

theorem switchRule : Advances ls i g.switchRule := by
  refine .take (.advance here nofun) fun _ => ?_
  refine (ready.condition (by omega)).onward fun j discriminant _ _ => ?_
  refine (course_require (by simp)).onward fun k _ _ _ => ?_
  have cases : Proceeds ls k (collect g.limit do
      if ← accept .rightBrace then return none
      return some (← g.switchCase)) := by
    refine .collect (E := fun _ => True) (ready.room (by omega)) fun l further => ?_
    refine course_accept_ite (by simp) (.pure trivial) ?_
    exact (ready.switchCase (by omega)).bind fun _ _ _ lt => .pure lt
  exact cases.onward fun _ _ _ _ => .pure trivial

theorem tryRule : Advances ls i g.tryRule := by
  refine .take (.advance here nofun) fun _ => ?_
  refine (ready.block (by omega)).onward fun j body _ _ => .look course_peek fun token here => ?_
  refine .ite_bind (P := fun _ _ => True) (.ite (fun same => .map ?_) fun _ => .pure trivial)
    fun k handler _ _ => ?_
  · exact (ready.catchClause (same ▸ here) (by omega)).proceeds
  refine (course_accept (by simp)).onward fun l _ _ _ => ?_
  refine .ite_bind (.optional (ready.block (by omega)).proceeds) fun m finalizer _ _ => ?_
  exact .ite (fun _ => .fail_bind nofun) fun _ => .pure trivial

theorem throwRule : Advances ls i g.throwRule := by
  refine .take (.advance here nofun) fun _ => ?_
  refine .stay course_newlineBefore fun newline => .ite (fun _ => .fail_bind nofun) fun _ => ?_
  refine (ready.expression _ le).onward fun j value _ _ => ?_
  exact proceeds_semicolon.onward fun _ _ _ _ => .pure trivial

theorem wordStatement : Advances ls i (g.wordStatement word) := by
  unfold Grammar.wordStatement
  split
  · exact ready.declarationRule here le
  · exact ready.declarationRule here le
  · exact (ready.function true le).before fun _ _ _ => .pure trivial
  · exact (ready.classDef true le).before fun _ _ _ => .pure trivial
  · exact ready.returnRule here le
  · exact ready.ifRule here le
  · exact ready.forRule here le
  · exact ready.whileRule here le
  · exact ready.doRule here le
  · exact ready.switchRule here le
  · exact ready.tryRule here le
  · exact ready.throwRule here le
  · exact (advances_jumpLabel here).before fun _ _ _ => .pure trivial
  · exact (advances_jumpLabel here).before fun _ _ _ => .pure trivial
  · refine .take (.advance here nofun) fun _ => ?_
    exact proceeds_semicolon.onward fun _ _ _ _ => .pure trivial
  · exact .fail nofun
  · exact .fail nofun
  · refine .stay course_startsLet fun _ => .ite (fun _ => ready.declarationRule here le) fun _ => ?_
    refine .look course_peekNext fun next after => .ite (fun labels => ?_) fun _ => ?_
    · obtain rfl : next = .colon := by simp at labels; exact labels.2
      have colon : tokenAt ls (i + 1) = some .colon := after (by rw [here]; simp)
      refine .take (.advance here nofun) fun _ => ?_
      refine (Course.advance colon nofun).onward fun j _ _ _ => ?_
      exact (ready.statement j (by omega)).onward fun _ _ _ _ => .pure trivial
    · exact ready.expressionStatement le

end Words

theorem statementRule (le : b ≤ i + 1) : Advances ls i g.statementRule := by
  refine .deeper (.stay course_currentSpan fun start => .look course_peek fun token here => ?_)
  split
  · exact (ready.block le).before fun _ _ _ => .pure trivial
  · exact .take (.advance here nofun) fun _ => .pure trivial
  · exact (ready.wordStatement here le).before fun _ _ _ => proceeds_finish
  · exact (ready.expressionStatement le).before fun _ _ _ => proceeds_finish

theorem program (start : b = 0) :
    Course ls 0 g.program fun j _ => tokenAt ls j = some .endOfInput := by
  refine .stay course_currentSpan fun start => ?_
  have statements : Course ls 0 (collect g.limit do
      if (← peek) = .endOfInput then return none
      return some (← g.statement)) fun j _ => tokenAt ls j = some .endOfInput := by
    refine .collect (ready.room (by omega)) fun k _ => .look course_peek fun token here => ?_
    refine .ite (fun ended => .pure (ended ▸ here)) fun _ => ?_
    exact (ready.statement k (by omega)).bind fun _ _ _ lt => .pure lt
  exact statements.bind fun j body _ here => .stay course_currentSpan fun _ => .pure here

end Grammar.Ready

/-- The rules of a size are enough for as many lexemes, since each of them refers to those of the size
below after it has consumed one. -/
theorem Grammar.ready_ofSize (size b : Nat) (room : ls.length ≤ size + b) :
    (ofSize size).Ready ls b := by
  induction size generalizing b with
  | zero => exact {
      limit := room
      statement := fun i le => .beyond (by omega)
      assignment := fun i le => .beyond (by omega)
      expression := fun i le => .beyond (by omega)
      binary := fun least i le => .beyond (by omega)
      unary := fun i le => .beyond (by omega)
      chain := fun i le => .beyond (by omega)
      construct := fun i le => .beyond (by omega) }
  | succ size ih =>
    have ready : (ofSize size).Ready ls (b + 1) := ih (b + 1) (by omega)
    exact {
      limit := room
      statement := fun i le => ready.statementRule (by omega)
      assignment := fun i le => ready.assignmentRule (by omega)
      expression := fun i le => ready.expressionRule (by omega)
      binary := fun least i le => ready.binaryRule least (by omega)
      unary := fun i le => ready.unaryRule (by omega)
      chain := fun i le => ready.chainRule (by omega)
      construct := fun i le => ready.constructRule (by omega) }

/-- From the lexeme with index `i` on, a parser takes a course. It never stops at an earlier lexeme or
beyond the last one, whether it succeeds or fails, and succeeds only after it has consumed one. -/
def Consumes {α : Type} (ls : List Lexeme) (i : Nat) (p : Parser α) : Prop :=
  Advances ls i p ∧ ∀ s, At ls i s → Ends ls i (fun j _ => i < j) (p s)

end Parser

/-- The parser ends on all lexemes with an end of input as the last one: the limits on the length of
lists and on the size of the grammar are never what stops it. Its run is a course from the first
lexeme on, in which no end of input is consumed and every turn after which a list goes on consumes a
lexeme, and it stops on an end of input if it succeeds. Statements, expressions, properties and
members of classes consume a lexeme wherever they are read, as do the parts of other lists, and
whether they are read or not, they stop at a lexeme that is no earlier. -/
theorem parseLexemes_terminates (ls : List Lexeme)
    (ended : ls.getLast?.map Lexeme.token = some .endOfInput) :
    (∀ e, parseLexemes ls = .error e → e.reason ≠ .missingEndOfInput) ∧
    (∀ size, ls.length ≤ size →
      Parser.Course ls 0 (Parser.Grammar.ofSize size).program
        (fun j _ => Parser.tokenAt ls j = some .endOfInput) ∧
      ∀ s, Parser.At ls 0 s → Parser.Ends ls 0
        (fun j _ => Parser.tokenAt ls j = some .endOfInput) ((Parser.Grammar.ofSize size).program s)) ∧
    ∀ size i, ls.length ≤ size + i →
      Parser.Consumes ls i (Parser.Grammar.ofSize size).statement ∧
      Parser.Consumes ls i (Parser.Grammar.ofSize size).assignment ∧
      Parser.Consumes ls i (Parser.Grammar.ofSize size).property ∧
      Parser.Consumes ls i (Parser.Grammar.ofSize size).classMember ∧
      Parser.Consumes ls i (Parser.Grammar.ofSize size).param ∧
      Parser.Consumes ls i (Parser.Grammar.ofSize size).spreadable ∧
      Parser.Consumes ls i (Parser.Grammar.ofSize size).switchCase ∧
      Parser.Consumes ls i (Parser.Grammar.ofSize size).declarator := by
  have last := Parser.tokenAt_last ended
  have program (size : Nat) (room : ls.length ≤ size) :=
    (Parser.Grammar.ready_ofSize size 0 room).program rfl
  refine ⟨?_, fun size room => ⟨program size room, (program size room).ends last⟩, ?_⟩
  · intro e failed
    cases ls with
    | nil => cases ended
    | cons first rest =>
      have start : Parser.At (first :: rest) 0 ⟨none, first, rest, 0, false⟩ := ⟨rfl, nofun⟩
      have ends := (program (rest.length + 1) (Nat.le_refl _)).ends last _ start
      unfold parseLexemes at failed
      dsimp only at failed
      split at failed
      next => cases failed
      next e' s run =>
        cases failed
        rw [run] at ends
        exact ends.2
  · intro size i room
    have ready := Parser.Grammar.ready_ofSize size i room
    have consumes {α : Type} {p : Parser α} (advances : Parser.Advances ls i p) :
        Parser.Consumes ls i p := ⟨advances, advances.ends last⟩
    exact ⟨consumes (ready.statement i (Nat.le_refl i)), consumes (ready.assignment i (Nat.le_refl i)),
      consumes (ready.property (Nat.le_succ i)), consumes (ready.classMember (Nat.le_succ i)),
      consumes (ready.param (Nat.le_succ i)), consumes (ready.spreadable (Nat.le_refl i)),
      consumes (ready.switchCase (Nat.le_succ i)), consumes (ready.declarator (Nat.le_succ i))⟩

/-- The body of a class that is not closed: its loop fails at the end of input, and the member before
it consumes its lexeme. -/
theorem parseLexemes_terminates_unclosed : ∃ (ls : List Lexeme) (e : SyntaxError),
    ls.map Lexeme.token = [.word "class", .word "A", .leftBrace, .word "b", .endOfInput] ∧
      parseLexemes ls = .error e ∧ e.reason ≠ .missingEndOfInput ∧
      Parser.Consumes ls 3 (Parser.Grammar.ofSize 2).classMember := by
  let ls : List Lexeme :=
    [Token.word "class", .word "A", .leftBrace, .word "b", .endOfInput].map (⟨·, default, false⟩)
  obtain ⟨terminates, -, consumes⟩ := parseLexemes_terminates ls rfl
  have failed : parseLexemes ls = .error ⟨.unclosedBrace, default⟩ := by cbv
  exact ⟨ls, _, rfl, failed, terminates _ failed, (consumes 2 3 (by decide)).2.2.2.1⟩

/-- Without an end of input, the last lexeme is read over and over. -/
example : parseLexemes [⟨.semicolon, default, false⟩] = .error ⟨.missingEndOfInput, default⟩ := by
  cbv

end CodeCompletion
