import CodeCompletion.Analysis.Budget

/-! What becomes of a budget. A visit is counted unless there is a reason to stop, and a budget with
such a reason stays as it is. -/
namespace CodeCompletion.Budget

variable {limits : Limits} {b c : Budget}

theorem exhausted_eq_false : b.exhausted = false ↔ b.stop = none := by
  simp [exhausted]

/-- All that can come of counting a visit. -/
inductive Counted (limits : Limits) (b : Budget) : Except Budget Budget → Prop where
  | spent (stopped : b.exhausted = true) : Counted limits b (.error b)
  | overflow (goesOn : b.exhausted = false) (full : b.steps.toNat + 1 = UInt64.size) :
      Counted limits b (.error { b with stop := some .overflow })
  | limit (steps : UInt64) (goesOn : b.exhausted = false) (more : steps.toNat = b.steps.toNat + 1)
      (reached : limits.walkSteps ≤ b.steps.toNat) :
      Counted limits b (.error { b with steps, stop := some .limit })
  | visited (steps : UInt64) (goesOn : b.exhausted = false) (more : steps.toNat = b.steps.toNat + 1)
      (within : b.steps.toNat < limits.walkSteps) : Counted limits b (.ok { b with steps })

theorem counted (limits : Limits) (b : Budget) : Counted limits b (b.visit limits) := by
  unfold visit
  split
  · next stopped => exact .spent stopped
  · next goesOn =>
    have goesOn := Bool.eq_false_iff.mpr goesOn
    split
    · next full => exact .overflow goesOn full
    · next room =>
      have more : (b.steps + 1).toNat = b.steps.toNat + 1 := by
        have := b.steps.toNat_lt_size
        rw [UInt64.toNat_add]
        exact Nat.mod_eq_of_lt (by simp only [UInt64.size,UInt64.toNat_one] at *; omega)
      dsimp only
      split
      · exact .limit _ goesOn more (by omega)
      · exact .visited _ goesOn more (by omega)

theorem visit_of_exhausted (stopped : b.exhausted = true) : b.visit limits = .error b := if_pos stopped

theorem exhausted_of_visit (refused : b.visit limits = .error c) : c.exhausted = true := by
  have counted := b.counted limits
  rw [refused] at counted
  cases counted with
  | spent stopped => exact stopped
  | overflow => rfl
  | limit => rfl

/-- A walk that ends as deep as it began, and that kept a reason to stop, leaves its own state. -/
theorem absorb_eq (depth : c.shapeDepth = b.shapeDepth) (lasts : b.exhausted = true → c.stop = b.stop) :
    b.absorb c = c := by
  obtain ⟨steps, shapeDepth, stop⟩ := b
  obtain ⟨steps', shapeDepth', stop'⟩ := c
  cases stop with
  | none => simp_all [absorb]
  | some reason => simp_all [absorb,exhausted]

theorem exhausted_absorb (spent : b.exhausted = true ∨ c.exhausted = true) :
    (b.absorb c).exhausted = true := by
  cases h : b.stop <;> simp_all [exhausted,absorb]

end CodeCompletion.Budget
