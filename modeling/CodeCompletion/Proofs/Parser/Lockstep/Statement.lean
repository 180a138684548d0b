import CodeCompletion.Proofs.Parser.Lockstep.Operator

/-! Statements in lockstep. A statement starts before the cut and may end at it. -/
namespace CodeCompletion.Parser

variable {α : Type} {w : Twins} {i : Nat}

open Twins

namespace Twins

/-- Two statements that lack their spans yet, with the place that both end at. -/
@[reducible] def Builds (w : Twins) (i j : Nat) (build build' : Span → Stmt) : Prop :=
  w.Through i j ∧ ∀ span span', (build span).erase = (build' span').erase

@[reducible] def Closes (w : Twins) (i j : Nat) (build build' : Span → Stmt) : Prop :=
  (i < j ∧ j ≤ w.cut ∧ level w.short j = level w.short i - 1) ∧
    ∀ span span', (build span).erase = (build' span').erase

namespace Lockstep

theorem startsLet {token : Token} (here : tokenAt w.short i = some token)
    (inner : token ≠ .endOfInput ∧ token ≠ .semicolon) :
    w.Lockstep i startsLet startsLet fun j a b => j = i ∧ b = a := by
  apply peekNext_bind here inner
  intro token _
  split <;> exact pure ⟨rfl, rfl⟩

theorem bindingKind? (inside : i < w.cut) :
    w.Lockstep i bindingKind? bindingKind? fun j kind kind' =>
      j = i ∧ kind' = kind ∧ (kind.isSome = true → w.Operates i) := by
  apply peek_bind inside
  intro token here
  split
  · exact pure ⟨rfl, rfl, fun _ => ⟨_, here, rfl, by simp⟩⟩
  · exact pure ⟨rfl, rfl, fun _ => ⟨_, here, rfl, by simp⟩⟩
  · apply (startsLet here (by simp)).bind
    rintro _ _ starts ⟨rfl, rfl⟩
    exact pure ⟨rfl, rfl, fun _ => ⟨_, here, rfl, by simp⟩⟩
  · exact pure ⟨rfl, rfl, nofun⟩

end Lockstep

namespace Tracks

variable {g h : Grammar} (tracks : w.Tracks g h)
include tracks

theorem declarator (inside : i < w.cut) : w.Lockstep i g.declarator h.declarator fun j a b =>
    w.Past i j ∧ a.erase = b.erase := by
  apply (Lockstep.ident inside).bind
  rintro _ name name' ⟨rfl, inside', turned, named⟩
  apply Lockstep.accept_optional inside' rfl (by simp) tracks.assignment
  intro j init init' place same
  apply Lockstep.finish_bind
  intro _ _
  exact .pure ⟨by omega, by simp [named,same]⟩

theorem declarators (inside : i < w.cut) : w.Lockstep i g.declarators h.declarators fun j a b =>
    w.Past i j ∧ a.map Declarator.erase = b.map Declarator.erase := by
  refine Lockstep.loop (I := fun k found found' =>
    (i ≤ k ∧ k < w.cut ∧ level w.short k = level w.short i) ∧
      found.map Declarator.erase = found'.map Declarator.erase) ?_ tracks.limit tracks.same
    ⟨by omega, rfl⟩
  rintro k found found' ⟨place, same⟩
  apply (tracks.declarator (i := k) (by omega)).bind
  rintro j next next' ⟨place', same'⟩
  apply Lockstep.accept_ite (d := 0) (by omega) rfl (by simp)
  · intro _ _
    exact .pure (.inl ⟨by omega, by simp [same,same']⟩)
  · intro _
    exact .pure (.inr ⟨by omega, by simp [same,same']⟩)

theorem condition : w.Lockstep i g.condition h.condition fun j a b =>
    w.Past i j ∧ a.erase = b.erase := by
  apply Lockstep.require_bind (d := 1) rfl (by simp)
  intro _ _ inside turned
  apply (tracks.expression _ inside).bind
  rintro j a b ⟨past, same⟩
  apply Lockstep.require_bind (d := -1) rfl (by simp)
  intro _ _ _ _
  exact .pure ⟨by omega, same⟩

theorem returnRule {word : String} (here : tokenAt w.short i = some (.word word)) :
    w.Lockstep i g.returnRule h.returnRule (w.Builds i) := by
  apply Lockstep.advance_bind (d := 0) here rfl (by simp)
  intro _ _ inside turned
  apply Lockstep.peek_bind inside
  intro got next
  apply Lockstep.newlineBefore_bind (by omega) inside
  intro newline
  apply Lockstep.ite_bind (P := fun j a b =>
    (i + 1 ≤ j ∧ j < w.cut ∧ level w.short j = level w.short i) ∧
      a.map Expr.erase = b.map Expr.erase)
  · apply Lockstep.ite Iff.rfl
    · intro _
      exact .pure ⟨by omega, rfl⟩
    · intro _
      apply Lockstep.map
      apply (tracks.expression _ inside).mono
      rintro j a b ⟨past, same⟩
      exact ⟨by omega, by simp [same]⟩
  · rintro j value value' ⟨place, same⟩
    apply (Lockstep.semicolon (by omega) (by omega)).bind
    intro k _ _ ended
    exact .pure ⟨by omega, fun _ _ => by simp [same]⟩

theorem ifRule {word : String} (here : tokenAt w.short i = some (.word word)) :
    w.Lockstep i g.ifRule h.ifRule (w.Builds i) := by
  apply Lockstep.advance_bind (d := 0) here rfl (by simp)
  intro _ _ inside turned
  apply tracks.condition.bind
  rintro j test test' ⟨past, same⟩
  apply (tracks.statement j (by omega)).bind
  rintro k consequent consequent' ⟨through, same'⟩
  apply Lockstep.acceptElse_ite
  · intro inside' turned'
    apply Lockstep.bind (P := fun l a b => w.Through k l ∧ a.map Stmt.erase = b.map Stmt.erase)
    · apply Lockstep.map
      apply (tracks.statement _ inside').mono
      rintro l a b ⟨through', same''⟩
      exact ⟨by omega, by simp [same'']⟩
    · rintro l alternate alternate' ⟨through', same''⟩
      exact .pure ⟨by omega, fun _ _ => by simp [same,same',same'']⟩
  · exact .pure ⟨by omega, fun _ _ => by simp [same,same']⟩

theorem loopStart (inside : i < w.cut) : w.Lockstep i g.loopStart h.loopStart fun j a b =>
    w.Past i j ∧ a.erase = b.erase := by
  apply Lockstep.currentSpan_bind
  intro start start'
  apply (Lockstep.bindingKind? inside).bind
  rintro _ _ kind ⟨rfl, rfl, operates⟩
  apply Lockstep.withoutIn
  cases kind with
  | some kind =>
    apply Lockstep.operator_bind (operates rfl)
    intro _ _ inside' turned
    apply (tracks.declarators inside').bind
    rintro j a b ⟨past, same⟩
    apply Lockstep.finish_bind
    intro _ _
    exact .pure ⟨by omega, by simp [same]⟩
  | none =>
    apply Lockstep.map
    apply (tracks.expression _ inside).mono
    rintro j a b ⟨past, same⟩
    exact ⟨past, by simp only [LoopStart.erase,same]⟩

theorem forEachRest {left left' : LoopStart} {ofValues : Bool} {word : String}
    (here : tokenAt w.short i = some (.word word)) (started : left.erase = left'.erase) :
    w.Lockstep i (g.forEachRest left ofValues) (h.forEachRest left' ofValues) (w.Closes i) := by
  unfold Grammar.forEachRest
  extract_lets _ rest _ rest'
  have goesOn : w.Lockstep i (rest ()) (rest' ()) (w.Closes i) := by
    apply Lockstep.advance_bind (d := 0) here rfl (by simp)
    intro _ _ inside turned
    apply Lockstep.ite_bind (P := fun j a b => w.Past (i + 1) j ∧ a.erase = b.erase)
    · apply Lockstep.ite Iff.rfl
      · intro _
        exact tracks.assignment _ inside
      · intro _
        exact tracks.expression _ inside
    · rintro j right right' ⟨past, same⟩
      apply Lockstep.require_bind (d := -1) rfl (by simp)
      intro _ _ inside' turned'
      apply (tracks.statement _ inside').bind
      rintro k body body' ⟨through, same'⟩
      exact .pure ⟨by omega, fun _ _ => by simp [started,same,same']⟩
  cases left with
  | bindings _ _ declarators =>
    cases left' with
    | expr value => simp at started
    | bindings _ _ declarators' =>
      have several : declarators.length = declarators'.length := by
        simpa using congrArg List.length (LoopStart.bindings.inj started).2.2
      simp only [several]
      apply Lockstep.ite Iff.rfl (fun _ => .fail_bind)
      intro _
      exact goesOn
  | expr value =>
    cases left' with
    | expr value' => exact goesOn
    | bindings _ _ declarators' => simp at started

/-- An expression that may be left out before a certain token. -/
theorem unlessNext {token : Token} {f f' : Option Expr → Parser α} {Q : Nat → α → α → Prop}
    (goesOn : token ≠ .endOfInput)
    (next : ∀ j value value', i ≤ j ∧ j < w.cut ∧ level w.short j = level w.short i →
      value.map Expr.erase = value'.map Expr.erase → w.Lockstep j (f value) (f' value') Q) :
    w.Lockstep i
      (peek >>= fun got => if got = token then pure none >>= f else (some <$> g.expression) >>= f)
      (peek >>= fun got => if got = token then pure none >>= f' else (some <$> h.expression) >>= f')
      Q := by
  apply Lockstep.needsToken
  · apply Rejects.peek_bind
    rw [if_neg goesOn.symm]
    exact tracks.needsToken.map.bind
  intro inside
  apply Lockstep.peek_bind inside
  intro got here
  apply Lockstep.ite Iff.rfl
  · intro _
    rw [pure_bind,pure_bind]
    exact next i none none (by omega) rfl
  · intro _
    apply Lockstep.bind (P := fun j a b => w.Past i j ∧ a.map Expr.erase = b.map Expr.erase)
    · apply Lockstep.map
      apply (tracks.expression i inside).mono
      rintro j a b ⟨past, same⟩
      exact ⟨past, by simp [same]⟩
    · rintro j value value' ⟨past, same⟩
      exact next j value value' (by omega) same

theorem forRest {init init' : Option LoopStart}
    (started : init.map LoopStart.erase = init'.map LoopStart.erase) :
    w.Lockstep i (g.forRest init) (h.forRest init') (w.Closes i) := by
  apply Lockstep.requireSemicolon_bind
  intro _ _ le turned
  apply tracks.unlessNext (by simp)
  intro j test test' place same
  apply Lockstep.requireSemicolon_bind
  intro _ _ le' turned'
  apply tracks.unlessNext (by simp)
  intro k update update' place' same'
  apply Lockstep.require_bind (d := -1) rfl (by simp)
  intro _ _ inside turned''
  apply (tracks.statement _ inside).bind
  rintro l body body' ⟨through, same''⟩
  exact .pure ⟨by omega, fun _ _ => by simp [started,same,same',same'']⟩

theorem forRule {word : String} (here : tokenAt w.short i = some (.word word)) :
    w.Lockstep i g.forRule h.forRule (w.Builds i) := by
  apply Lockstep.advance_bind (d := 0) here rfl (by simp)
  intro _ _ _ turned
  apply Lockstep.require_bind (d := 1) rfl (by simp)
  intro _ _ inside turned'
  have closed {k : Nat} (le : i < k) (opened : level w.short k = level w.short i + 1) (j : Nat)
      (build build' : Span → Stmt) (closes : w.Closes k j build build') :
      w.Builds i j build build' := ⟨by omega, closes.2⟩
  apply Lockstep.peek_bind inside
  intro got here
  apply Lockstep.ite Iff.rfl
  · intro _
    exact (tracks.forRest rfl).mono (closed (by omega) (by omega))
  intro _
  apply (tracks.loopStart inside).bind
  rintro j left left' ⟨past, started⟩
  apply Lockstep.peek_bind (by omega)
  intro token here
  split
  · exact (tracks.forEachRest here started).mono (closed (by omega) (by omega))
  · exact (tracks.forEachRest here started).mono (closed (by omega) (by omega))
  · exact (tracks.forRest (by simp [started])).mono (closed (by omega) (by omega))

theorem whileRule {word : String} (here : tokenAt w.short i = some (.word word)) :
    w.Lockstep i g.whileRule h.whileRule (w.Builds i) := by
  apply Lockstep.advance_bind (d := 0) here rfl (by simp)
  intro _ _ inside turned
  apply tracks.condition.bind
  rintro j test test' ⟨past, same⟩
  apply (tracks.statement j (by omega)).bind
  rintro k body body' ⟨through, same'⟩
  exact .pure ⟨by omega, fun _ _ => by simp [same,same']⟩

theorem doRule {word : String} (here : tokenAt w.short i = some (.word word)) :
    w.Lockstep i g.doRule h.doRule (w.Builds i) := by
  apply Lockstep.advance_bind (d := 0) here rfl (by simp)
  intro _ _ inside turned
  apply (tracks.statement _ inside).bind
  rintro j body body' ⟨through, same⟩
  apply Lockstep.requireWord_bind
  intro _ _ inside' turned'
  apply tracks.condition.bind
  rintro k test test' ⟨past, same'⟩
  apply Lockstep.acceptSemicolon_bind (by omega)
  · intro _ _
    exact .pure ⟨by omega, fun _ _ => by simp [same,same']⟩
  · intro _
    exact .pure ⟨by omega, fun _ _ => by simp [same,same']⟩

theorem caseHead (inside : i < w.cut) : w.Lockstep i g.caseHead h.caseHead fun j a b =>
    w.Past i j ∧ a.map Expr.erase = b.map Expr.erase := by
  apply Lockstep.accept_ite (d := 0) inside rfl (by simp)
  · intro inside' turned
    apply Lockstep.map
    apply (tracks.expression _ inside').mono
    rintro j a b ⟨past, same⟩
    exact ⟨by omega, by simp [same]⟩
  intro _
  apply Lockstep.accept_ite (d := 0) inside rfl (by simp)
  · intro inside' turned
    exact .pure ⟨by omega, rfl⟩
  · intro _
    apply Lockstep.peek_bind inside
    intro _ _
    exact .fail

omit tracks in
theorem rejects_switchCase : Rejects .endOfInput g.switchCase := by
  apply Rejects.currentSpan_bind
  intro start
  apply Rejects.bind
  apply Rejects.accept_bind (by simp)
  apply Rejects.accept_bind (by simp)
  exact .peek_bind .fail

/-- A case may be left open by the end of the short stream, where what comes after it fails. -/
theorem switchCase_bind {f f' : SwitchCase → Parser α} {Q : Nat → α → α → Prop} (inside : i < w.cut)
    (needs : ∀ found, Rejects .endOfInput (f found))
    (next : ∀ j a b, w.Past i j → a.erase = b.erase → w.Lockstep j (f a) (f' b) Q) :
    w.Lockstep i (g.switchCase >>= f) (h.switchCase >>= f') Q := by
  simp only [Grammar.switchCase,bind_assoc,pure_bind]
  apply Lockstep.currentSpan_bind
  intro start start'
  apply (tracks.caseHead inside).bind
  rintro j test test' ⟨past, same⟩
  apply Lockstep.require_bind (d := 0) rfl (by simp)
  intro _ _ inside' turned
  refine Lockstep.loop_bind (I := fun k found found' =>
    (i < k ∧ k ≤ w.cut ∧ level w.short k = level w.short i) ∧
      found.map Stmt.erase = found'.map Stmt.erase) ?_ tracks.limit tracks.same ⟨by omega, rfl⟩
  rintro k found found' n m ⟨place, same'⟩ again
  have leaves {found : List Stmt} : Rejects .endOfInput (do
      let span ← finish start
      f ⟨test, found, span⟩) := .finish_bind fun _ => needs _
  have leave (inside : k < w.cut) : w.Lockstep k (do
      let span ← finish start
      f ⟨test, found.reverse, span⟩) (do
      let span ← finish start'
      f' ⟨test', found'.reverse, span⟩) Q := by
    apply Lockstep.finish_bind
    intro _ _
    exact next k _ _ (by omega) (by simp [same,same'])
  simp only [bind_assoc]
  apply Lockstep.needsToken
  · apply Rejects.peek_bind
    simp only [pure_bind]
    exact leaves
  intro inside''
  apply Lockstep.peek_bind inside''
  intro token here
  split
  case h_5 =>
    simp only [bind_assoc,pure_bind]
    apply (tracks.statement k inside'').bind
    rintro l a b ⟨through, first⟩
    exact again l _ _ ⟨by omega, by simp [first,same']⟩
  all_goals
    simp only [pure_bind]
    exact leave inside''

theorem switchRule {word : String} (here : tokenAt w.short i = some (.word word)) :
    w.Lockstep i g.switchRule h.switchRule (w.Builds i) := by
  apply Lockstep.advance_bind (d := 0) here rfl (by simp)
  intro _ _ inside turned
  apply tracks.condition.bind
  rintro j test test' ⟨past, same⟩
  apply Lockstep.require_bind (d := 1) rfl (by simp)
  intro _ _ inside' turned'
  refine Lockstep.loop_bind (I := fun k found found' =>
    (i < k ∧ k < w.cut ∧ level w.short k = level w.short i + 1) ∧
      found.map SwitchCase.erase = found'.map SwitchCase.erase) ?_ tracks.limit tracks.same
    ⟨by omega, rfl⟩
  rintro k found found' n m ⟨place, same'⟩ again
  rw [bind_assoc,bind_assoc,bind_assoc,bind_assoc]
  apply Lockstep.accept_bind (d := -1) (by omega) rfl (by simp)
  · intro _ _ _
    simp only [if_true,pure_bind]
    exact .pure ⟨by omega, fun _ _ => by simp [same,same']⟩
  · intro _
    rw [if_neg Bool.false_ne_true,if_neg Bool.false_ne_true,bind_assoc,bind_assoc]
    apply tracks.switchCase_bind (by omega)
    · intro a
      refine (Rejects.loop (fun found => ?_) n (a :: found)).bind
      apply Rejects.bind
      apply Rejects.accept_bind (by simp)
      exact rejects_switchCase.bind
    · intro l a b past' first
      exact again l _ _ ⟨by omega, by simp [first,same']⟩

theorem catchClause (here : tokenAt w.short i = some (.word "catch")) :
    w.Lockstep i g.catchClause h.catchClause fun j a b => w.Past i j ∧ a.erase = b.erase := by
  apply Lockstep.advance_bind (d := 0) here rfl (by simp)
  intro start start' inside turned
  have goesOn (j : Nat) (param param' : Option Ident)
      (place : i < j ∧ j < w.cut ∧ level w.short j = level w.short i)
      (named : param.map Ident.erase = param'.map Ident.erase) :
      w.Lockstep j (do
        let body ← g.block
        return (⟨param, body, ← finish start⟩ : CatchClause)) (do
        let body ← h.block
        return (⟨param', body, ← finish start'⟩ : CatchClause)) fun j a b =>
          w.Past i j ∧ a.erase = b.erase := by
    apply tracks.block.bind
    rintro k body body' ⟨past, same⟩
    apply Lockstep.finish_bind
    intro _ _
    exact .pure ⟨by omega, by simp only [CatchClause.erase,named,same]⟩
  apply Lockstep.accept_ite (d := 1) inside rfl (by simp)
  · intro inside' turned'
    apply (Lockstep.ident inside').bind
    rintro _ name name' ⟨rfl, inside'', turned'', named⟩
    apply Lockstep.require_bind (d := -1) rfl (by simp)
    intro _ _ _ _
    exact goesOn _ _ _ (by omega) (by simp [named])
  · intro _
    exact goesOn _ none none (by omega) rfl

theorem tryRule {word : String} (here : tokenAt w.short i = some (.word word)) :
    w.Lockstep i g.tryRule h.tryRule (w.Builds i) := by
  apply Lockstep.advance_bind (d := 0) here rfl (by simp)
  intro _ _ inside turned
  apply tracks.block.bind
  rintro j block block' ⟨past, same⟩
  apply Lockstep.peek_bind (by omega)
  intro token here
  apply Lockstep.ite_bind (Lockstep.optional (by omega) fun isCatch =>
    tracks.catchClause (isCatch ▸ here))
  rintro k handler handler' ⟨place, same'⟩
  apply Lockstep.accept_optional (by omega) rfl (by simp) fun _ _ => tracks.block
  intro l finalizer finalizer' place' same''
  have left : handler.isNone = handler'.isNone := by simpa using congrArg Option.isNone same'
  have right : finalizer.isNone = finalizer'.isNone := by simpa using congrArg Option.isNone same''
  apply Lockstep.ite (by rw [left,right]) (fun _ => .fail_bind)
  intro _
  exact .pure ⟨by omega, fun _ _ => by simp [same,same',same'']⟩

theorem throwRule {word : String} (here : tokenAt w.short i = some (.word word)) :
    w.Lockstep i g.throwRule h.throwRule (w.Builds i) := by
  apply Lockstep.advance_bind (d := 0) here rfl (by simp)
  intro _ _ inside turned
  apply Lockstep.newlineBefore_bind (by omega) inside
  intro newline
  apply Lockstep.ite Iff.rfl (fun _ => .fail_bind)
  intro _
  apply (tracks.expression _ inside).bind
  rintro j value value' ⟨past, same⟩
  apply (Lockstep.semicolon (by omega) (by omega)).bind
  intro k _ _ ended
  exact .pure ⟨by omega, fun _ _ => by simp [same]⟩

omit tracks in
theorem jumpLabel {word : String} (here : tokenAt w.short i = some (.word word)) :
    w.Lockstep i jumpLabel jumpLabel fun j a b => w.Through i j ∧ b = a := by
  apply Lockstep.advance_bind (d := 0) here rfl (by simp)
  intro _ _ inside turned
  have goesOn (j : Nat) (label : Option String)
      (place : i < j ∧ j < w.cut ∧ level w.short j = level w.short i) :
      w.Lockstep j (do semicolon; return label) (do semicolon; return label) fun j a b =>
        w.Through i j ∧ b = a := by
    apply (Lockstep.semicolon (by omega) (by omega)).bind
    intro k _ _ ended
    exact .pure ⟨by omega, rfl⟩
  apply Lockstep.peek_bind inside
  intro token here
  split
  · apply Lockstep.newlineBefore_bind (by omega) inside
    intro newline
    apply Lockstep.ite Iff.rfl
    · intro _
      exact goesOn _ none (by omega)
    · intro _
      apply (Lockstep.ident inside).bind
      rintro _ name name' ⟨rfl, inside', turned', named⟩
      have same : name'.name = name.name := (Ident.mk.inj named).1.symm
      simp only [pure_bind,same]
      exact goesOn _ (some name.name) (by omega)
  · exact goesOn _ none (by omega)

theorem declarationRule {kind : BindingKind} {word : String}
    (here : tokenAt w.short i = some (.word word)) :
    w.Lockstep i (g.declarationRule kind) (h.declarationRule kind) (w.Builds i) := by
  apply Lockstep.advance_bind (d := 0) here rfl (by simp)
  intro _ _ inside turned
  apply (tracks.declarators inside).bind
  rintro j declarators declarators' ⟨past, same⟩
  apply (Lockstep.semicolon (by omega) (by omega)).bind
  intro k _ _ ended
  exact .pure ⟨by omega, fun _ _ => by simp [same]⟩

theorem expressionStatement (inside : i < w.cut) :
    w.Lockstep i g.expressionStatement h.expressionStatement (w.Builds i) := by
  apply (tracks.expressionRule i inside).bind
  rintro j value value' ⟨past, same⟩
  apply (Lockstep.semicolon (by omega) (by omega)).bind
  intro k _ _ ended
  exact .pure ⟨by omega, fun _ _ => by simp [same]⟩

theorem wordStatement {word : String} (here : tokenAt w.short i = some (.word word)) :
    w.Lockstep i (g.wordStatement word) (h.wordStatement word) (w.Builds i) := by
  have inside : i < w.cut := by have := succ_lt_cut here (by simp); omega
  unfold Grammar.wordStatement
  split
  · exact tracks.declarationRule here
  · exact tracks.declarationRule here
  · apply tracks.function.bind
    rintro j f f' ⟨past, same⟩
    exact .pure ⟨by omega, fun _ _ => by simp only [Stmt.erase,same]⟩
  · apply tracks.classDef.bind
    rintro j c c' ⟨past, same⟩
    exact .pure ⟨by omega, fun _ _ => by simp only [Stmt.erase,same]⟩
  · exact tracks.returnRule here
  · exact tracks.ifRule here
  · exact tracks.forRule here
  · exact tracks.whileRule here
  · exact tracks.doRule here
  · exact tracks.switchRule here
  · exact tracks.tryRule here
  · exact tracks.throwRule here
  · apply (jumpLabel here).bind
    rintro j _ label ⟨through, rfl⟩
    exact .pure ⟨through, fun _ _ => rfl⟩
  · apply (jumpLabel here).bind
    rintro j _ label ⟨through, rfl⟩
    exact .pure ⟨through, fun _ _ => rfl⟩
  · apply Lockstep.advance_bind (d := 0) here rfl (by simp)
    intro _ _ inside' turned
    apply (Lockstep.semicolon (by omega) inside').bind
    intro k _ _ ended
    exact .pure ⟨by omega, fun _ _ => rfl⟩
  · exact .fail
  · exact .fail
  · apply (Lockstep.startsLet here (by simp)).bind
    rintro _ _ starts ⟨rfl, rfl⟩
    apply Lockstep.ite Iff.rfl
    · intro _
      exact tracks.declarationRule here
    intro _
    apply Lockstep.peekNext_bind here (by simp)
    intro token next
    apply Lockstep.ite Iff.rfl
    · intro labels
      obtain rfl : token = .colon := by simpa using (Bool.and_eq_true_iff.mp labels).2
      apply Lockstep.advance_bind (d := 0) here rfl (by simp)
      intro _ _ _ _
      apply Lockstep.advance_bind (d := 0) next rfl (by simp)
      intro _ _ inside' _
      apply (tracks.statement _ inside').bind
      rintro j body body' ⟨through, same⟩
      exact .pure ⟨by omega, fun _ _ => by simp [same]⟩
    · intro _
      exact tracks.expressionStatement inside

theorem statementRule (i : Nat) (inside : i < w.cut) :
    w.Lockstep i g.statementRule h.statementRule fun j a b => w.Through i j ∧ a.erase = b.erase := by
  apply Lockstep.deeper
  apply Lockstep.currentSpan_bind
  intro start start'
  apply Lockstep.peek_bind inside
  intro token here
  split
  · apply tracks.block.bind
    rintro j block block' ⟨past, same⟩
    exact .pure ⟨by omega, by simp only [Stmt.erase,same]⟩
  · apply (Lockstep.advance here (by simp)).bind
    rintro _ _ _ rfl
    have turned := level_succ here
    have le := succ_le_cut here (by simp)
    exact .pure ⟨⟨by omega, le, by simpa [Token.turn] using turned⟩, rfl⟩
  · apply (tracks.wordStatement here).bind
    rintro j build build' ⟨through, same⟩
    apply Lockstep.finish_bind
    intro _ _
    exact .pure ⟨through, same _ _⟩
  · apply (tracks.expressionStatement inside).bind
    rintro j build build' ⟨through, same⟩
    apply Lockstep.finish_bind
    intro _ _
    exact .pure ⟨through, same _ _⟩

end Tracks

theorem tracks_empty {h : Grammar} (same : w.strict → h = Grammar.empty) :
    w.Tracks Grammar.empty h := by
  have fails {τ : Type} {p : Grammar → Parser τ} {Q : Nat → τ → τ → Prop}
      (failing : p Grammar.empty = fail .missingEndOfInput) (i : Nat) :
      w.Lockstep i (p Grammar.empty) (p h) Q := by
    intro s t stand
    rw [failing]
    intro strict
    rw [same strict,failing]
    exact ⟨_, _, rfl, rfl⟩
  exact
    { limit := Nat.zero_le _
      same := fun strict => by rw [same strict]
      statement := fun i _ => fails (p := Grammar.statement) rfl i
      assignment := fun i _ => fails (p := Grammar.assignment) rfl i
      expression := fun i _ => fails (p := Grammar.expression) rfl i
      needsToken := .fail
      binary := fun level i _ => fails (p := fun g => g.binary level) rfl i
      unary := fun i _ => fails (p := Grammar.unary) rfl i
      chain := fun i _ => fails (p := Grammar.chain) rfl i
      construct := fun i _ => fails (p := Grammar.construct) rfl i }

/-- The rules for more lexemes do what those for fewer do. -/
theorem tracks_ofSize {n m : Nat} (le : n ≤ m) (same : w.strict → n = m) :
    w.Tracks (Grammar.ofSize n) (Grammar.ofSize m) := by
  induction n generalizing m with
  | zero => exact tracks_empty fun strict => by rw [← same strict]; rfl
  | succ n ih =>
    obtain ⟨m, rfl⟩ := Nat.exists_eq_add_of_le' (Nat.le_trans (Nat.succ_le_succ n.zero_le) le)
    have tracks := ih (Nat.le_of_succ_le_succ le) fun strict => by have := same strict; omega
    exact
      { limit := le
        same := same
        statement := tracks.statementRule
        assignment := tracks.assignmentRule
        expression := tracks.expressionRule
        needsToken := Grammar.rejects_expressionRule _ (.inl rfl)
        binary := tracks.binaryRule
        unary := tracks.unaryRule
        chain := tracks.chainRule
        construct := tracks.constructRule }

end Twins

end CodeCompletion.Parser
