import CodeCompletion.Proofs.Parser.Lockstep.Value

/-! Operators in lockstep, from unary ones to the comma. Whether an arrow function is next is found
out by looking for a closing bracket, which may lie past the cut; an expression that ends before the
cut has all its brackets closed there. -/
namespace CodeCompletion.Parser

variable {α : Type} {w : Twins} {i : Nat}

open Twins

theorem isTarget_of_erase {a b : Expr} (same : a.erase = b.erase) : a.isTarget = b.isTarget := by
  rw [← isTarget_erase a,same,isTarget_erase b]

/-- Tokens that no expression starts with, whatever the rules for its parts are. -/
theorem Grammar.rejects_expressionRule (g : Grammar) {token : Token}
    (strange : token = .endOfInput ∨ token = .word "else") : Rejects token g.expressionRule := by
  have value : Rejects token g.value := by
    apply Rejects.currentSpan_bind
    intro start
    apply Rejects.peek_bind
    obtain rfl | rfl := strange
    · exact .fail
    · exact .bind (.bind (.peek_bind .fail))
  have chain : Rejects token g.chainRule := by
    apply Rejects.currentSpan_bind
    intro start
    apply Rejects.levelled
    apply Rejects.peek_bind
    rw [if_neg (by obtain rfl | rfl := strange <;> simp)]
    exact .bind value
  have unary : Rejects token g.unaryRule := by
    apply Rejects.currentSpan_bind
    intro start
    apply Rejects.after (P := (· = none))
    · intro s here
      refine ⟨none, (bind_run (p := peek) rfl).trans ?_, rfl⟩
      obtain rfl | rfl := strange <;> rw [here] <;> rfl
    · rintro _ rfl
      apply Rejects.after (P := (· = none))
      · intro s here
        refine ⟨none, (bind_run (p := peek) rfl).trans ?_, rfl⟩
        obtain rfl | rfl := strange <;> rw [here] <;> rfl
      · rintro _ rfl
        exact .currentSpan_bind fun _ => .bind chain
  have assignment : Rejects token g.assignmentRule := by
    apply Rejects.deeper
    apply Rejects.after (P := (· = false))
    · intro s here
      have reserved : isReserved "else" = true := by decide
      refine ⟨false, ?_, rfl⟩
      obtain rfl | rfl := strange <;> simp [arrowAhead,here,reserved]
    · rintro _ rfl
      exact .bind (.bind (.levelled (.bind unary)))
  exact .bind assignment

namespace Twins

def Operates (w : Twins) (i : Nat) : Prop :=
  ∃ token, tokenAt w.short i = some token ∧ token.turn = 0 ∧
    token ≠ .endOfInput ∧ token ≠ .semicolon

namespace Lockstep

theorem operator_bind {f f' : Span → Parser α} {Q : Nat → α → α → Prop} (operates : w.Operates i)
    (next : ∀ a b, i + 1 < w.cut → level w.short (i + 1) = level w.short i →
      w.Lockstep (i + 1) (f a) (f' b) Q) :
    w.Lockstep i (Parser.advance >>= f) (Parser.advance >>= f') Q := by
  obtain ⟨token, here, turn, inner⟩ := operates
  apply advance_bind here turn inner
  intro a b inside turned
  exact next a b inside (by omega)

theorem unaryOperator? (inside : i < w.cut) :
    w.Lockstep i unaryOperator? unaryOperator? fun j op op' =>
      j = i ∧ op' = op ∧ (op.isSome = true → w.Operates i) := by
  apply peek_bind inside
  intro token here
  split
  · exact pure ⟨rfl, rfl, fun _ => ⟨_, here, rfl, by simp⟩⟩
  · exact pure ⟨rfl, rfl, fun _ => ⟨_, here, rfl, by simp⟩⟩
  · exact pure ⟨rfl, rfl, nofun⟩

theorem updateOperator? (inside : i < w.cut) :
    w.Lockstep i updateOperator? updateOperator? fun j op op' =>
      j = i ∧ op' = op ∧ (op.isSome = true → w.Operates i) := by
  apply peek_bind inside
  intro token here
  split
  · exact pure ⟨rfl, rfl, fun _ => ⟨_, here, rfl, by simp⟩⟩
  · exact pure ⟨rfl, rfl, nofun⟩

theorem assignmentOperator? (inside : i < w.cut) :
    w.Lockstep i assignmentOperator? assignmentOperator? fun j op op' =>
      j = i ∧ op' = op ∧ (op.isSome = true → w.Operates i) := by
  apply peek_bind inside
  intro token here
  split
  · exact pure ⟨rfl, rfl, fun _ => ⟨_, here, rfl, by simp⟩⟩
  · exact pure ⟨rfl, rfl, nofun⟩

theorem binaryOperator? (inside : i < w.cut) :
    w.Lockstep i binaryOperator? binaryOperator? fun j op op' =>
      j = i ∧ op' = op ∧ (op.isSome = true → w.Operates i) := by
  intro s t stand
  refine ⟨i, _, t, rfl, stand, rfl, ?_, ?_⟩
  · rw [stand.token inside,stand.noIn]
  · have here := stand.here
    cases token : s.current.token with
    | op text => exact fun _ => ⟨_, token ▸ here, rfl, by simp⟩
    | word text => exact fun _ => ⟨_, token ▸ here, rfl, by simp⟩
    | _ => nofun

end Lockstep

namespace Tracks

variable {g h : Grammar} (tracks : w.Tracks g h)
include tracks

theorem postfixRule : w.Reads Expr.erase g.postfixRule h.postfixRule := by
  intro i inside
  apply Lockstep.currentSpan_bind
  intro start start'
  apply (tracks.chainRule i inside).bind
  rintro j operand operand' ⟨past, same⟩
  apply (Lockstep.updateOperator? (by omega)).bind
  rintro _ _ op ⟨rfl, rfl, operates⟩
  apply Lockstep.newlineBefore_bind (by omega) (by omega)
  intro newline
  split
  · rw [isTarget_of_erase same]
    apply Lockstep.ite Iff.rfl (fun _ => .fail_bind)
    intro _
    apply Lockstep.operator_bind (operates rfl)
    intro _ _ _ _
    apply Lockstep.finish_bind
    intro _ _
    exact .pure ⟨by omega, by simp [same]⟩
  · exact .pure ⟨past, same⟩

theorem unaryRule : w.Reads Expr.erase g.unaryRule h.unaryRule := by
  intro i inside
  apply Lockstep.currentSpan_bind
  intro start start'
  apply (Lockstep.unaryOperator? inside).bind
  rintro _ _ op ⟨rfl, rfl, operates⟩
  cases op with
  | some op =>
    apply Lockstep.operator_bind (operates rfl)
    intro _ _ inside' turned
    apply (tracks.unary _ inside').deeper.bind
    rintro j operand operand' ⟨past, same⟩
    apply Lockstep.finish_bind
    intro _ _
    exact .pure ⟨by omega, by simp [same]⟩
  | none =>
    apply (Lockstep.updateOperator? inside).bind
    rintro _ _ op ⟨rfl, rfl, operates⟩
    cases op with
    | some op =>
      apply Lockstep.operator_bind (operates rfl)
      intro _ _ inside' turned
      apply (tracks.unary _ inside').deeper.bind
      rintro j operand operand' ⟨past, same⟩
      rw [isTarget_of_erase same]
      apply Lockstep.ite Iff.rfl (fun _ => .fail_bind)
      intro _
      apply Lockstep.finish_bind
      intro _ _
      exact .pure ⟨by omega, by simp [same]⟩
    | none => exact tracks.postfixRule _ inside

theorem binaryRule (least : Nat) : w.Reads Expr.erase (g.binaryRule least) (h.binaryRule least) := by
  intro i inside
  apply Lockstep.levelled
  apply (tracks.unaryRule i inside).bind
  intro k first first' linked
  refine Lockstep.loop (I := w.Linked i) (fun l left left' linked => ?_) tracks.limit
    tracks.same linked
  obtain ⟨past, same⟩ := linked
  apply (Lockstep.binaryOperator? (by omega)).bind
  rintro _ _ op ⟨rfl, rfl, operates⟩
  cases op with
  | none => exact .pure (.inr ⟨past, same⟩)
  | some op =>
    apply Lockstep.ite Iff.rfl
    · intro _
      exact .pure (.inr ⟨past, same⟩)
    · intro _
      apply Lockstep.descend_bind
      apply Lockstep.operator_bind (operates rfl)
      intro _ _ inside' turned
      apply (tracks.binary _ _ inside').bind
      rintro j right right' ⟨past', same'⟩
      exact .pure (.inl ⟨by omega, by simp [same,same']⟩)

theorem conditionalRule : w.Reads Expr.erase g.conditionalRule h.conditionalRule := by
  intro i inside
  apply (tracks.binaryRule 1 i inside).bind
  rintro j test test' ⟨past, same⟩
  apply Lockstep.accept_ite (d := 0) (by omega) rfl (by simp)
  · intro inside' turned
    apply (tracks.assignment _ inside').withIn.bind
    rintro k consequent consequent' ⟨past', same'⟩
    apply Lockstep.require_bind (d := 0) rfl (by simp)
    intro _ _ inside'' turned'
    apply (tracks.assignment _ inside'').bind
    rintro l alternate alternate' ⟨past'', same''⟩
    exact .pure ⟨by omega, by simp [same,same',same'']⟩
  · intro _
    exact .pure ⟨past, same⟩

theorem assignmentRule : w.Reads Expr.erase g.assignmentRule h.assignmentRule := by
  intro i inside
  apply Lockstep.deeper
  apply Lockstep.arrowAhead_bind inside (fun _ _ _ post => post.1)
  intro ahead
  apply Lockstep.ite Iff.rfl
  · intro _
    exact tracks.arrow inside
  · intro _
    apply (tracks.conditionalRule i inside).bind
    rintro j target target' ⟨past, same⟩
    apply (Lockstep.assignmentOperator? (by omega)).bind
    rintro _ _ op ⟨rfl, rfl, operates⟩
    cases op with
    | none => exact .pure ⟨past, same⟩
    | some op =>
      rw [isTarget_of_erase same]
      apply Lockstep.ite Iff.rfl (fun _ => .fail_bind)
      intro _
      apply Lockstep.operator_bind (operates rfl)
      intro _ _ inside' turned
      apply (tracks.assignment _ inside').bind
      rintro k value value' ⟨past', same'⟩
      exact .pure ⟨by omega, by simp [same,same']⟩

theorem expressionRule : w.Reads Expr.erase g.expressionRule h.expressionRule := by
  intro i inside
  apply (tracks.assignmentRule i inside).bind
  rintro j first first' ⟨past, same⟩
  apply Lockstep.peek_bind (by omega)
  intro token here
  apply Lockstep.ite Iff.rfl
  · intro _
    apply Lockstep.bind (Lockstep.collect Expr.erase
      (I := w.Past i) (E := w.Past i) ?_ tracks.limit tracks.same past)
    · rintro k others others' ⟨past', same'⟩
      apply Lockstep.finish_bind
      intro _ _
      exact .pure ⟨past', by simp [same,same']⟩
    · intro k past'
      apply Lockstep.accept_ite (d := 0) (by omega) rfl (by simp)
      · intro inside' turned
        apply Lockstep.map
        apply (tracks.assignmentRule _ inside').mono
        rintro l a b ⟨past'', same'⟩
        exact ⟨by simp [same'], by simp only [Option.elim]; omega⟩
      · intro _
        exact .pure ⟨rfl, past'⟩
  · intro _
    exact .pure ⟨past, same⟩

end Tracks

end Twins

end CodeCompletion.Parser
