import CodeCompletion.Proofs.Analysis.Conduct

/-! Two analyses of one text. As long as the states in which they keep account go together, they find
the same shapes, however different the states are. They need not go together any more once the second
analysis has ended too early. -/
namespace CodeCompletion

variable {α β σ τ : Type} {S : σ → τ → Prop} {F : τ → Prop}

/-- From states that go together the same is found, and the states go together again, unless the
second one has ended. -/
def Agrees (S : σ → τ → Prop) (F : τ → Prop) (find : StateM σ α) (find' : StateM τ α) : Prop :=
  ∀ s t, S s t → F (find' t).2 ∨ (find s).1 = (find' t).1 ∧ S (find s).2 (find' t).2

abbrev Ended (F : τ → Prop) : Nat → τ → τ → Prop := fun _ t t' => F t → F t'

theorem agrees_pure (a : α) : Agrees S F (pure a) (pure a) := fun _ _ related => Or.inr ⟨rfl, related⟩

theorem Agrees.bind {find : StateM σ α} {find' : StateM τ α} {next : α → StateM σ β}
    {next' : α → StateM τ β} (first : Agrees S F find find')
    (second : ∀ a, Agrees S F (next a) (next' a)) (lasts : ∀ a t, F t → F (next' a t).2) :
    Agrees S F (find >>= next) (find' >>= next') := by
  intro s t related
  rcases first s t related with ended | ⟨same, related⟩
  · exact Or.inl (lasts _ _ ended)
  · have later := second (find s).1 _ _ related
    show F (next' (find' t).1 (find' t).2).2 ∨
      (next (find s).1 (find s).2).1 = (next' (find' t).1 (find' t).2).1 ∧
        S (next (find s).1 (find s).2).2 (next' (find' t).1 (find' t).2).2
    rw [← same]
    exact later

variable [Account σ] [Account τ]

/-- States that go together still do so when a node is visited or a walk of its own is over. -/
structure Account.Match (limits : Limits) (S : σ → τ → Prop) (F : τ → Prop) : Prop where
  lasting : Account.Rule limits (Ended F)
  visit {s : σ} {t : τ} : S s t →
    (∃ t', Account.visit limits t = .error t' ∧ F t') ∨
    (∃ s' t', Account.visit limits s = .error s' ∧ Account.visit limits t = .error t' ∧ S s' t') ∨
    ∃ s' t', Account.visit limits s = .ok s' ∧ Account.visit limits t = .ok t' ∧ S s' t'
  absorb {s s' : σ} {t t' : τ} : S s t → S s' t' → S (Account.absorb s s') (Account.absorb t t')
  absorbed {t t' : τ} : F t' → F (Account.absorb t t')

section Shaping

variable {limits : Limits} {answer : Answer σ} {answer' : Answer τ}
  (both : Account.Match limits S F)
  (each : ∀ function, Agrees S F (answer function) (answer' function))
  (lasts : ∀ function, Obeys (Ended F) (sizeOf function) (answer' function))

include both each lasts

theorem Asks.agrees {bound : Nat} {find : (σ : Type) → Answer σ → StateM σ α} (asks : Asks bound find) :
    Agrees S F (find σ answer) (find τ answer') := by
  induction asks with
  | pure a => exact agrees_pure a
  | function => exact each _
  | bind _ then_ _ first second =>
    exact first.bind second fun a => (then_ a).obeys both.lasting lasts

theorem Walk.agrees_run (v : Viewpoint) (tasks : List Task) {w : Walk σ} {w' : Walk τ}
    (root : w.root = w'.root) (related : S w.budget w'.budget) :
    F (Walk.run v ⟨limits, answer'⟩ tasks w').budget ∨
    (Walk.run v ⟨limits, answer⟩ tasks w).root = (Walk.run v ⟨limits, answer'⟩ tasks w').root ∧
      S (Walk.run v ⟨limits, answer⟩ tasks w).budget (Walk.run v ⟨limits, answer'⟩ tasks w').budget := by
  fun_induction Walk.run v ⟨limits, answer'⟩ tasks w' generalizing w with
  | case1 w' =>
    rw [Walk.run]
    exact Or.inr ⟨root, related⟩
  | case2 w' task rest budget refused =>
    rcases both.visit related with ⟨t, other, ended⟩ | ⟨s, t, ours, other, related⟩ | ⟨s, t, -, other, -⟩
    · cases refused.symm.trans other
      exact Or.inl ended
    · cases refused.symm.trans other
      rw [Walk.run,ours]
      exact Or.inr ⟨root, related⟩
    · cases refused.symm.trans other
  | case3 w' task rest budget visited ih =>
    rcases both.visit related with ⟨t, other, -⟩ | ⟨s, t, -, other, -⟩ | ⟨s, t, ours, other, related⟩
    · cases visited.symm.trans other
    · cases visited.symm.trans other
    · cases visited.symm.trans other
      rw [Walk.run,ours,root]
      have noted : Agrees S F (Walk.rootAfter (Walk.note v ⟨limits, answer⟩ task) w'.root)
          (Walk.rootAfter (Walk.note v ⟨limits, answer'⟩ task) w'.root) :=
        (Walk.asking_note task w'.root).agrees both each lasts
      rcases noted s budget related with ended | ⟨same, related⟩
      · exact Or.inl (Walk.obeys_run both.lasting lasts v _ _ ended)
      · exact ih same related

theorem agrees_scopeOfBody (v : Viewpoint) (params : List Param) (body : List Stmt) :
    Agrees S F (scopeOfBody ⟨limits, answer⟩ v params body)
      (scopeOfBody ⟨limits, answer'⟩ v params body) := by
  intro s t related
  have declared : Agrees S F (Walk.rootAfter (Walk.declareParams · params 0) .empty)
      (Walk.rootAfter (Walk.declareParams · params 0) .empty) :=
    (Walk.asking_declareParams params 0 .empty).agrees both each lasts
  rcases declared s t related with ended | ⟨same, start⟩
  · exact Or.inl (both.absorbed (Walk.obeys_run both.lasting lasts v _ _ ended))
  · rcases Walk.agrees_run both each lasts v (Task.stmts 0 body) same start with ended | ⟨same, walked⟩
    · exact Or.inl (both.absorbed ended)
    · exact Or.inr ⟨same, both.absorb related walked⟩

theorem agrees_resultShape? (params : List Param) (body : List Stmt) (scope : Shape) :
    Agrees S F (resultShape? ⟨limits, answer⟩ params body scope)
      (resultShape? ⟨limits, answer'⟩ params body scope) := by
  unfold resultShape?
  cases firstReturn? body with
  | none => exact agrees_pure none
  | some result =>
    obtain ⟨span, value⟩ := result
    have shaped : Agrees S F (shapeOfValue ⟨limits, answer⟩ 0 0 value)
        (shapeOfValue ⟨limits, answer'⟩ 0 0 value) :=
      (asks_shapeOfValue limits 0 0 value).agrees both each lasts
    cases value with
    | ident _ name =>
      exact (agrees_scopeOfBody both each lasts _ params body).bind (fun _ => agrees_pure _)
        fun _ _ ended => ended
    | thisRef _ => exact agrees_pure _
    | _ => exact shaped.bind (fun _ => agrees_pure _) fun _ _ ended => ended

theorem agrees_bodyShape (function : Function) :
    Agrees S F (bodyShape ⟨limits, answer⟩ function) (bodyShape ⟨limits, answer'⟩ function) := by
  obtain ⟨name, params, body, isArrow, span⟩ := function
  cases body with
  | expr value =>
    have shaped : Agrees S F (shapeOfValue ⟨limits, answer⟩ 0 0 value)
        (shapeOfValue ⟨limits, answer'⟩ 0 0 value) :=
      (asks_shapeOfValue limits 0 0 value).agrees both each lasts
    exact shaped.bind (fun _ => agrees_pure _) fun _ _ ended => ended
  | block block =>
    refine (agrees_scopeOfBody both each lasts _ params block.body).bind (fun scope => ?_) fun scope => ?_
    · exact (agrees_resultShape? both each lasts params block.body scope).bind (fun _ => agrees_pure _)
        fun _ _ ended => ended
    · exact obeys_resultShape? both.lasting lasts params block.body scope

end Shaping

structure Account.Simulation (limits : Limits) (S : σ → τ → Prop) (F : τ → Prop) : Prop extends
    Account.Match limits S F where
  enter {s : σ} {t : τ} : S s t →
    (Account.enter? limits s = none ∧ Account.enter? limits t = none) ∨
    ∃ s' t', Account.enter? limits s = some s' ∧ Account.enter? limits t = some t' ∧ S s' t'
  leave {s : σ} {t : τ} : S s t → S (Account.leave s) (Account.leave t)
  left {t : τ} : F t → F (Account.leave t)

theorem agrees_shapeWithin {limits : Limits} (both : Account.Simulation limits S F) (levels : Nat)
    (function : Function) :
    Agrees S F (shapeWithin limits levels function) (shapeWithin limits levels function) := by
  induction levels generalizing function with
  | zero => exact agrees_pure _
  | succ levels ih =>
    intro s t related
    dsimp only [shapeWithin]
    rcases both.enter related with ⟨ours, theirs⟩ | ⟨s', t', ours, theirs, related⟩
    · rw [ours,theirs]
      exact Or.inr ⟨rfl, related⟩
    · rw [ours,theirs]
      have lasts := obeys_shapeWithin both.lasting levels
      rcases agrees_bodyShape both.toMatch ih lasts function s' t' related with ended | ⟨same, related⟩
      · exact Or.inl (both.left ended)
      · exact Or.inr ⟨same, both.leave related⟩

section Levels

theorem rule_never (limits : Limits) : Account.Rule limits (Ended fun _ : τ => False) where
  refl _ never := never
  mono _ _ never := never.elim
  trans _ _ never := never.elim
  refused _ never := never.elim
  visited _ _ _ never := never.elim
  nested _ _ _ never := never.elim
  absorbed _ never := never.elim

variable {limits : Limits} {depth : Nat}

/-- Equal budgets at some depth. -/
theorem match_equal (limits : Limits) (depth : Nat) :
    Account.Match limits (fun b c : Budget => b = c ∧ b.shapeDepth = depth) fun _ => False where
  lasting := rule_never limits
  visit := by
    rintro b _ ⟨rfl, here⟩
    cases counted : b.visit limits with
    | error c =>
      exact Or.inr (Or.inl ⟨c, c, counted, counted, rfl, (Budget.kept_of_visit_error counted).depth.trans here⟩)
    | ok c =>
      exact Or.inr (Or.inr ⟨c, c, counted, counted, rfl, (Budget.kept_of_visit_ok counted).depth.trans here⟩)
  absorb := by
    rintro b c _ _ ⟨rfl, here⟩ ⟨rfl, -⟩
    exact ⟨rfl, here⟩
  absorbed := id

theorem shapeWithin_of_deep (levels : Nat) (function : Function) {b : Budget}
    (deep : limits.shapeDepth ≤ b.shapeDepth) : shapeWithin limits levels function b = (.function 0, b) := by
  cases levels with
  | zero => rfl
  | succ levels =>
    have refused : Account.enter? limits b = none := if_pos deep
    simp only [shapeWithin,refused]

/-- Levels that the limits do not let be entered make no difference. -/
theorem shapeWithin_eq {levels levels' : Nat} (function : Function) {b : Budget}
    (enough : limits.shapeDepth ≤ b.shapeDepth + levels)
    (enough' : limits.shapeDepth ≤ b.shapeDepth + levels') :
    shapeWithin limits levels function b = shapeWithin limits levels' function b := by
  induction levels generalizing levels' function b with
  | zero => rw [shapeWithin_of_deep _ _ enough,shapeWithin_of_deep _ _ enough]
  | succ levels ih =>
    cases levels' with
    | zero => rw [shapeWithin_of_deep _ _ enough',shapeWithin_of_deep _ _ enough']
    | succ levels' =>
      dsimp only [shapeWithin]
      split
      · rfl
      · next inner entered =>
        obtain ⟨-, rfl⟩ := Budget.eq_of_enter? entered
        have each (function : Function) : Agrees
            (fun b' c : Budget => b' = c ∧ b'.shapeDepth = b.shapeDepth + 1) (fun _ => False)
            (shapeWithin limits levels function) (shapeWithin limits levels' function) := by
          rintro c _ ⟨rfl, here⟩
          have same : shapeWithin limits levels function c = shapeWithin limits levels' function c :=
            ih function (by omega) (by omega)
          have kept : c.Kept _ := obeys_shapeWithin (Budget.rule_kept limits) levels function c
          exact Or.inr ⟨congrArg Prod.fst same, congrArg Prod.snd same, kept.depth.trans here⟩
        have agrees := agrees_bodyShape (match_equal limits _) each
          (obeys_shapeWithin (rule_never limits) levels') function
        rcases agrees { b with shapeDepth := b.shapeDepth + 1 } _ ⟨rfl, rfl⟩ with never | ⟨value, state, -⟩
        · exact never.elim
        · exact Prod.ext value (congrArg Account.leave state)

/-- Only the depth decides whether a function is shaped. The functions in it are shaped in the same
way, one deeper. -/
theorem shapeOfFunction_eq (limits : Limits) (function : Function) (b : Budget) :
    shapeOfFunction limits function b =
      if limits.shapeDepth ≤ b.shapeDepth then (.function 0, b)
      else
        let found := bodyShape limits.shaping function { b with shapeDepth := b.shapeDepth + 1 }
        (found.1, found.2.leave) := by
  have more : shapeOfFunction limits function b = shapeWithin limits (limits.shapeDepth + 1) function b :=
    shapeWithin_eq function (Nat.le_add_left _ _) (by omega)
  rw [more]
  by_cases deep : limits.shapeDepth ≤ b.shapeDepth
  · rw [if_pos deep]
    exact shapeWithin_of_deep _ function deep
  · rw [if_neg deep]
    have entered : Account.enter? limits b = some { b with shapeDepth := b.shapeDepth + 1 } :=
      if_neg deep
    simp only [shapeWithin,entered]
    rfl

end Levels

end CodeCompletion
