import CodeCompletion.Proofs.Analysis.Budget

/-! A walk is sequential. The parts of a task come before the tasks after it, so what a walk makes
of some tasks is settled before it comes to the next ones; a budget that is spent on the way ends
both. What is in scope only grows when statements are added behind. -/
namespace CodeCompletion

namespace Walk

variable {v : Viewpoint} {shaping : Shaping Budget}

theorem run_exhausted {w : Walk Budget} (spent : w.budget.exhausted = true) (tasks : List Task) :
    run v shaping tasks w = w := by
  cases tasks with
  | nil => rw [run]
  | cons task rest =>
    have refused : Account.visit shaping.limits w.budget = .error w.budget :=
      Budget.visit_of_exhausted spent
    rw [run,refused]

/-- Tasks of any kind, statements and expressions mixed, at any depths. -/
theorem run_append (tasks more : List Task) (w : Walk Budget) :
    run v shaping (tasks ++ more) w = run v shaping more (run v shaping tasks w) := by
  fun_induction run v shaping tasks w with
  | case1 w => rfl
  | case2 w task rest budget stopped =>
    rw [List.cons_append,run,stopped]
    exact (run_exhausted (w := { w with budget }) (Budget.exhausted_of_visit stopped) more).symm
  | case3 w task rest budget visited ih =>
    rw [List.cons_append,run,visited,← List.append_assoc]
    exact ih

end Walk

/-- Walking over two lists of statements one after the other is walking over them together: the
root, with the order of what is declared in it, and the budget, with its steps, its depth and the
reason to stop, are the same, from every state and viewpoint, at every depth and however values are
shaped. Where the budget is spent on the first list, nothing comes of the second one. So what is in
scope after the first list is below what is in scope after both. -/
theorem walk_sequential (first second : List Stmt) :
    (∀ (v : Viewpoint) (shaping : Shaping Budget) (depth : Nat) (w : Walk Budget),
      Walk.run v shaping (Task.stmts depth (first ++ second)) w =
          Walk.run v shaping (Task.stmts depth second)
            (Walk.run v shaping (Task.stmts depth first) w) ∧
        ((Walk.run v shaping (Task.stmts depth first) w).budget.exhausted = true →
          Walk.run v shaping (Task.stmts depth (first ++ second)) w =
            Walk.run v shaping (Task.stmts depth first) w)) ∧
    ∀ (caret : Position) (limits : Limits),
      visibleAt first caret limits ≤ visibleAt (first ++ second) caret limits := by
  have sequential (v : Viewpoint) (shaping : Shaping Budget) (depth : Nat) (w : Walk Budget) :
      Walk.run v shaping (Task.stmts depth (first ++ second)) w =
        Walk.run v shaping (Task.stmts depth second)
          (Walk.run v shaping (Task.stmts depth first) w) := by
    rw [Task.stmts,List.map_append]
    exact Walk.run_append _ _ w
  refine ⟨fun v shaping depth w => ⟨sequential v shaping depth w, fun spent => ?_⟩, ?_⟩
  · rw [sequential,Walk.run_exhausted spent]
  · intro caret limits
    have functions : limits.shaping.Valid := valid_shapeWithin limits limits.shapeDepth
    have valid : (visibleAt first caret limits).WellFormed :=
      (Walk.run_adds functions (w := ⟨.empty, {}⟩) .empty).second
    rw [visibleAt,visibleAt,sequential]
    exact (Walk.run_adds functions valid).le

/-- The walk over the body of `F`, which the first statement starts, is cut short between two
assignments to `this`, and the call of `g` behind it is not come to. -/
theorem walk_sequential_cut_short : ∃ (first second : List Stmt) (limits : Limits),
    let start : Walk Budget := ⟨.empty, {}⟩
    let cut := Walk.run ⟨⟨0, 0⟩, false⟩ limits.shaping (Task.stmts 0 first) start
    let whole := Walk.run ⟨⟨0, 0⟩, false⟩ limits.shaping (Task.stmts 0 (first ++ second)) start
    cut.budget.exhausted = true ∧ whole = cut ∧ cut.root.properties.map Prod.fst = ["F"] ∧
      visibleAt first ⟨0, 0⟩ limits ≤ visibleAt (first ++ second) ⟨0, 0⟩ limits := by
  let here : Span := ⟨⟨0, ⟨0, 0⟩⟩, ⟨0, ⟨0, 0⟩⟩⟩
  let assignment (name : String) : Stmt :=
    .expr here (.assign here "=" (.member here (.thisRef here) (.name ⟨name, here⟩) false)
      (.literal here .null))
  let first : List Stmt :=
    [.function here ⟨some ⟨"F", here⟩, [], .block ⟨[assignment "x", assignment "y"], here⟩, false, here⟩]
  let second : List Stmt := [.expr here (.call here (.ident here "g") [] false)]
  have spent : (Walk.run ⟨⟨0, 0⟩, false⟩ ({ walkSteps := 3 } : Limits).shaping (Task.stmts 0 first)
      (⟨.empty, {}⟩ : Walk Budget)).budget.exhausted = true := by decide +kernel
  have sequential := walk_sequential first second
  exact ⟨first, second, { walkSteps := 3 }, spent, (sequential.1 _ _ 0 _).2 spent, by decide +kernel,
    sequential.2 ⟨0, 0⟩ { walkSteps := 3 }⟩

end CodeCompletion
