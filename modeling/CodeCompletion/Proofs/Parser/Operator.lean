import CodeCompletion.Proofs.Parser.Value

/-! Operators and their operands are tidy. A binary operator, a condition and an assignment
reach from their first operand to their last one, so parentheses around these stay outside. -/
namespace CodeCompletion.Parser

open TreeNode

variable {ls : List Lexeme} {i j : Nat} {g : Grammar}

theorem reaches_binaryOperator? : Reaches ls i binaryOperator? fun j op => j = i ∧ Sees ls i op :=
  reaches_observer (fun _ => rfl) fun _ at_ given =>
    ⟨_, at_.token, fun same => given (by simp [same])⟩

theorem reaches_unaryOperator? : Reaches ls i unaryOperator? fun j op => j = i ∧ Sees ls i op := by
  refine .look reaches_peek fun token here => ?_
  split
  · exact .pure ⟨rfl, fun _ => ⟨_, here, by simp⟩⟩
  · exact .pure ⟨rfl, fun _ => ⟨_, here, by simp⟩⟩
  · exact .pure ⟨rfl, sees_none⟩

theorem reaches_updateOperator? : Reaches ls i updateOperator? fun j op => j = i ∧ Sees ls i op := by
  refine .look reaches_peek fun token here => ?_
  split
  · exact .pure ⟨rfl, fun _ => ⟨_, here, by simp⟩⟩
  · exact .pure ⟨rfl, sees_none⟩

theorem reaches_assignmentOperator? :
    Reaches ls i assignmentOperator? fun j op => j = i ∧ Sees ls i op := by
  refine .look reaches_peek fun token here => ?_
  split
  · exact .pure ⟨rfl, fun _ => ⟨_, here, by simp⟩⟩
  · exact .pure ⟨rfl, sees_none⟩

theorem reaches_arrowAhead : Reaches ls i arrowAhead fun j _ => j = i ∧ True :=
  reaches_observer (fun _ => rfl) fun _ _ => trivial

namespace Grammar.Sound

variable (stream : Stream ls) (sound : g.Sound ls)
include stream sound

theorem postfixRule : Parses ls g.postfixRule .expr := fun i => by
  refine .look reaches_currentSpan fun start starts => ?_
  refine (sound.chainRule stream i).bind fun j operand _ found => ?_
  refine .look reaches_updateOperator? fun op sees => .look reaches_newlineBefore fun newline _ => ?_
  split
  · refine .ite (fun _ => .fail_bind) fun _ => ?_
    obtain ⟨token, here, notEnd⟩ := sees nofun
    have := found.lt
    refine .take (reaches_advance stream here notEnd) fun _ _ => ?_
    refine .look (reaches_finish stream starts (by omega)) fun span spans => .pure ?_
    exact .of_row stream spans (.single (found.stopLater (Nat.le_succ j))) trivial
  · exact .pure found

theorem unaryRule : Parses ls g.unaryRule .expr := fun i => by
  refine .look reaches_currentSpan fun start starts => .look reaches_unaryOperator? fun op sees => ?_
  split
  · obtain ⟨token, here, notEnd⟩ := sees nofun
    refine .take (reaches_advance stream here notEnd) fun _ _ => ?_
    refine (sound.unary.deeper (i + 1)).bind fun j operand _ found => ?_
    refine .look (reaches_finish stream starts (by omega)) fun span spans => .pure ?_
    exact .of_row stream spans (.single (found.startEarlier (Nat.le_succ i))) trivial
  refine .look reaches_updateOperator? fun op sees => ?_
  split
  · obtain ⟨token, here, notEnd⟩ := sees nofun
    refine .take (reaches_advance stream here notEnd) fun _ _ => ?_
    refine (sound.unary.deeper (i + 1)).bind fun j operand _ found => ?_
    refine .ite (fun _ => .fail_bind) fun _ => ?_
    refine .look (reaches_finish stream starts (by omega)) fun span spans => .pure ?_
    exact .of_row stream spans (.single (found.startEarlier (Nat.le_succ i))) trivial
  · exact sound.postfixRule stream i

theorem binaryRule (least : Nat) : Parses ls (g.binaryRule least) .expr := fun i => by
  refine .levelled ((sound.unaryRule stream i).bind fun j first _ found => ?_)
  refine .loop (I := fun k e => Found ls i k (.expr e)) (fun k left _ found => ?_) g.limit first found
  refine .look reaches_binaryOperator? fun op sees => ?_
  split
  · exact .pure found
  · obtain ⟨token, here, notEnd⟩ := sees nofun
    refine .ite (fun _ => .pure found) fun _ => .descend_bind ?_
    refine .take (reaches_advance stream here notEnd) fun _ _ => ?_
    refine (sound.binary _ (k + 1)).bind fun m right _ found' => .pure ?_
    exact .of_cover stream found (.nil (Nat.le_succ k)) found' rfl rfl trivial

theorem conditionalRule : Parses ls g.conditionalRule .expr := fun i => by
  refine (sound.binaryRule stream 1 i).bind fun j test _ found => ?_
  refine (reaches_accept stream (by simp)).bind fun k _ le _ => .ite (fun _ => ?_) fun _ => ?_
  · refine (sound.assignment.withIn k).bind fun l consequent _ found' => ?_
    refine .take (reaches_require stream (by simp)) fun _ _ => ?_
    refine (sound.assignment (l + 1)).bind fun m alternate _ found'' => .pure ?_
    have between := (Row.single found').widen le (Nat.le_succ l)
    exact .of_cover stream found between found'' rfl rfl trivial
  · exact .pure (found.stopLater le)

theorem assignmentRule : Parses ls g.assignmentRule .expr := fun i => by
  refine .deeper (.look reaches_arrowAhead fun isArrow _ => .ite (fun _ => ?_) fun _ => ?_)
  · exact sound.arrow stream i
  refine (sound.conditionalRule stream i).bind fun j target _ found => ?_
  refine .look reaches_assignmentOperator? fun op sees => ?_
  split
  · exact .pure found
  · obtain ⟨token, here, notEnd⟩ := sees (by simp)
    refine .ite (fun _ => .fail_bind) fun _ => ?_
    refine .take (reaches_advance stream here notEnd) fun _ _ => ?_
    refine (sound.assignment (j + 1)).bind fun m value _ found' => .pure ?_
    exact .of_cover stream found (.nil (Nat.le_succ j)) found' rfl rfl trivial

theorem expressionRule : Parses ls g.expressionRule .expr := fun i => by
  refine (sound.assignmentRule stream i).bind fun j first _ found => ?_
  refine .look reaches_peek fun token _ => .ite (fun _ => ?_) fun _ => .pure found
  refine (reaches_collect .expr (fun _ => True) (fun k => ?_) g.limit).bind
    fun m others le ⟨row, _⟩ => ?_
  · refine (reaches_accept stream (by simp)).bind fun l _ le _ => .ite (fun _ => ?_) fun _ => ?_
    · refine .map ((sound.assignmentRule stream l).mono fun m _ _ found => ?_)
      exact found.startEarlier le
    · exact .pure trivial
  obtain ⟨a, b, starts, stops, spans, tight⟩ := found.tight
  refine .look (reaches_finish stream spans (by omega)) fun span whole => .pure ?_
  have sequence : Found ls a m (.expr (.sequence span (first :: others))) :=
    .of_row stream whole (.cons (tight.stopLater stops) row) trivial
  exact sequence.startEarlier starts

end Grammar.Sound

end CodeCompletion.Parser
