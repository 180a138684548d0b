import CodeCompletion.Proofs.Analysis.Agreement
import CodeCompletion.Proofs.Analysis.Budget

/-! Steps that were enough might as well have been fewer before: the same is found then, and the counter
is behind by as many steps in the end. -/
namespace CodeCompletion

namespace Budget

variable {limits : Limits} {extra : Nat} {b c b' c' : Budget}

structure Ahead (extra : Nat) (b c : Budget) : Prop where
  steps : c.steps.toNat = b.steps.toNat + extra
  depth : c.shapeDepth = b.shapeDepth
  stop : c.stop = b.stop

theorem Kept.ahead (kept : Kept b c) (enough : c.exhausted = false) : ∃ extra, Ahead extra b c := by
  obtain ⟨extra, more⟩ := Nat.exists_eq_add_of_le kept.steps
  have none := exhausted_eq_false.mp (kept.goesOn enough)
  exact ⟨extra, more, kept.depth, (exhausted_eq_false.mp enough).trans none.symm⟩

theorem Ahead.goesOn (ahead : Ahead extra b c) (enough : c.exhausted = false) :
    b.exhausted = false := by
  rw [exhausted_eq_false] at enough ⊢
  rw [← ahead.stop]
  exact enough

/-- A visit that is counted with more steps behind is counted with fewer. -/
theorem Ahead.visit (ahead : Ahead extra b c) (visited : c.visit limits = .ok c') :
    ∃ b', b.visit limits = .ok b' ∧ Ahead extra b' c' := by
  have counted := c.counted limits
  rw [visited] at counted
  cases counted with
  | visited steps goesOn more within =>
    have behind := ahead.steps
    have counted' := b.counted limits
    generalize b.visit limits = result at counted'
    cases counted' with
    | spent stopped => cases (ahead.goesOn goesOn).symm.trans stopped
    | overflow _ full =>
      have := steps.toNat_lt_size
      omega
    | limit _ _ _ reached => omega
    | visited steps' _ more' =>
      refine ⟨_, rfl, ?_, ahead.depth, ahead.stop⟩
      show steps.toNat = steps'.toNat + extra
      omega

/-- What was exhausted before is so after. -/
theorem rule_exhausted (limits : Limits) :
    Account.Rule limits (Ended fun b : Budget => b.exhausted = true) where
  refl _ spent := spent
  mono _ lasts := lasts
  trans first second spent := second (first spent)
  refused refused _ := exhausted_of_visit refused
  visited visited _ _ spent := by cases (visit_of_exhausted spent).symm.trans visited
  nested entered first second spent := by
    obtain ⟨-, rfl⟩ := eq_of_enter? entered
    exact second (first spent)
  absorbed _ spent := exhausted_absorb (Or.inl spent)

theorem simulation_ahead (limits : Limits) (extra : Nat) :
    Account.Simulation limits (Ahead extra) fun c => c.exhausted = true where
  lasting := rule_exhausted limits
  visit {b c} ahead := by
    cases counted : c.visit limits with
    | error c' => exact Or.inl ⟨c', counted, exhausted_of_visit counted⟩
    | ok c' =>
      obtain ⟨b', visited, ahead'⟩ := ahead.visit counted
      exact Or.inr (Or.inr ⟨b', c', visited, counted, ahead'⟩)
  absorb ahead inner := ⟨inner.steps, ahead.depth, congrArg₂ Option.or ahead.stop inner.stop⟩
  absorbed spent := exhausted_absorb (Or.inr spent)
  enter {b c} ahead := by
    by_cases deep : limits.shapeDepth ≤ b.shapeDepth
    · exact Or.inl ⟨if_pos deep, if_pos (by rw [ahead.depth]; exact deep)⟩
    · refine Or.inr ⟨_, _, if_neg deep, if_neg (by rw [ahead.depth]; exact deep), ?_⟩
      exact ⟨ahead.steps, congrArg (· + 1) ahead.depth, ahead.stop⟩
  leave ahead := ⟨ahead.steps, congrArg (· - 1) ahead.depth, ahead.stop⟩
  left spent := spent

end Budget

structure Shaping.Steady (shaping : Shaping Budget) : Prop where
  valid : shaping.Valid
  keeps : ∀ function, Obeys (fun _ => Budget.Kept) (sizeOf function) (shaping.function function)
  lasts : ∀ function,
    Obeys (Ended fun b : Budget => b.exhausted = true) (sizeOf function) (shaping.function function)
  agrees : ∀ extra function, Agrees (Budget.Ahead extra) (·.exhausted = true)
    (shaping.function function) (shaping.function function)

theorem steady_shapeWithin (limits : Limits) (levels : Nat) :
    Shaping.Steady ⟨limits, shapeWithin limits levels⟩ where
  valid := valid_shapeWithin limits levels
  keeps := obeys_shapeWithin (Budget.rule_kept limits) levels
  lasts := obeys_shapeWithin (Budget.rule_exhausted limits) levels
  agrees extra := agrees_shapeWithin (Budget.simulation_ahead limits extra) levels

/-- The shape of a value does not depend on the steps that were taken before, if they were not too
many. -/
theorem Shaping.Steady.shapeOfValue_eq {shaping : Shaping Budget} (steady : shaping.Steady) {b c : Budget}
    (kept : b.Kept c) (weight depth : Nat) (value : Expr)
    (enough : (shapeOfValue shaping weight depth value c).2.exhausted = false) :
    (shapeOfValue shaping weight depth value b).1 = (shapeOfValue shaping weight depth value c).1 := by
  have asks := asks_shapeOfValue shaping.limits weight depth value
  have goesOn : c.exhausted = false :=
    Budget.Kept.goesOn (asks.obeys (Budget.rule_kept shaping.limits) steady.keeps c) enough
  obtain ⟨extra, ahead⟩ := kept.ahead goesOn
  have both := (Budget.simulation_ahead shaping.limits extra).toMatch
  rcases asks.agrees both (steady.agrees extra) steady.lasts b c ahead with spent | ⟨same, -⟩
  · cases enough.symm.trans spent
  · exact same

end CodeCompletion
