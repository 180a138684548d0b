import CodeCompletion.Proofs.Analysis.Account
import CodeCompletion.Proofs.Analysis.Requests
import CodeCompletion.Proofs.Analysis.Return

/-! What an analysis does to the state in which it keeps account. What each single entry does to the
state, a visit, a function that is entered and left, a walk of its own, is what all of them do that
are made for a text, and how many these are is bounded by the size of the text. -/
namespace CodeCompletion

variable {α σ : Type} [Account σ] {T : Nat → σ → σ → Prop}

/-- A relation of the states before and after some entries, for texts of some size, that holds of
what comes of a single entry: a visit and a function are larger than what is done for them. -/
structure Account.Rule (limits : Limits) (T : Nat → σ → σ → Prop) : Prop where
  refl (s : σ) : T 0 s s
  mono {m n : Nat} {s t : σ} : m ≤ n → T m s t → T n s t
  trans {m n : Nat} {s t u : σ} : T m s t → T n t u → T (m + n) s u
  refused {s t : σ} : Account.visit limits s = .error t → T 0 s t
  visited {n : Nat} {s t u v : σ} : Account.visit limits s = .ok t → T n t u → T n u v → T (n + 1) s v
  nested {n : Nat} {s t u v : σ} :
    Account.enter? limits s = some t → T n t u → T n u v → T (n + 1) s (Account.leave v)
  absorbed {n : Nat} {s t : σ} : T n s t → T n s (Account.absorb s t)

def Obeys (T : Nat → σ → σ → Prop) (size : Nat) (find : StateM σ α) : Prop :=
  ∀ s, T size s (find s).2

section Shaping

variable {limits : Limits} {answer : Answer σ} (rule : Account.Rule limits T)
  (each : ∀ function, Obeys T (sizeOf function) (answer function))

include rule each

theorem Asks.obeys {bound : Nat} {find : (σ : Type) → Answer σ → StateM σ α} (asks : Asks bound find) :
    Obeys T bound (find σ answer) := by
  induction asks with
  | pure a => exact fun s => rule.mono (Nat.zero_le _) (rule.refl s)
  | function small => exact fun s => rule.mono small (each _ s)
  | bind _ _ small first second => exact fun s => rule.mono small (rule.trans (first s) (second _ _))

theorem Walk.obeys_run (v : Viewpoint) (tasks : List Task) (w : Walk σ) :
    T (Task.totalSize tasks) w.budget (Walk.run v ⟨limits, answer⟩ tasks w).budget := by
  fun_induction Walk.run v ⟨limits, answer⟩ tasks w with
  | case1 w => exact rule.refl w.budget
  | case2 w task rest budget refused => exact rule.mono (Nat.zero_le _) (rule.refused refused)
  | case3 w task rest budget visited ih =>
    have parts := Task.totalSize_parts v task
    have noted : T (task.size - 1) budget (Walk.note v ⟨limits, answer⟩ task { w with budget }).budget :=
      (Walk.asking_note task w.root).obeys rule each budget
    have size : Task.totalSize (task :: rest) = task.size - 1 + Task.totalSize rest + 1 := by
      rw [Task.totalSize_cons]
      omega
    rw [size]
    refine rule.visited visited (rule.mono (by omega) noted) (rule.mono ?_ ih)
    rw [Task.totalSize_append]
    omega

theorem obeys_scopeOfBody (v : Viewpoint) (params : List Param) (body : List Stmt) :
    Obeys T (sizeOf body) (scopeOfBody ⟨limits, answer⟩ v params body) := by
  intro s
  let start : Walk σ := { root := .empty, budget := s }
  have declared : T 0 s (start.declareParams params 0).budget :=
    (Walk.asking_declareParams params 0 .empty).obeys rule each s
  have walked := Walk.obeys_run rule each v (Task.stmts 0 body) (start.declareParams params 0)
  have small := Task.totalSize_stmts 0 body
  exact rule.absorbed (rule.mono (by omega) (rule.trans declared walked))

theorem obeys_resultShape? (params : List Param) (body : List Stmt) (scope : Shape) :
    Obeys T (sizeOf body) (resultShape? ⟨limits, answer⟩ params body scope) := by
  unfold resultShape?
  cases found : firstReturn? body with
  | none => exact fun s => rule.mono (Nat.zero_le _) (rule.refl s)
  | some result =>
    obtain ⟨span, value⟩ := result
    have small := sizeOf_firstReturn? found
    have shaped : Obeys T (sizeOf value) (shapeOfValue ⟨limits, answer⟩ 0 0 value) :=
      (asks_shapeOfValue limits 0 0 value).obeys rule each
    cases value with
    | ident _ name => exact fun s => obeys_scopeOfBody rule each _ params body s
    | thisRef _ => exact fun s => rule.mono (Nat.zero_le _) (rule.refl s)
    | _ => exact fun s => rule.mono (Nat.le_of_lt small) (shaped s)

/-- A function is shaped in two parts, for its body and for what it returns. -/
theorem obeys_bodyShape (function : Function) (s : σ) : ∃ size, size < sizeOf function ∧
    ∃ t, T size s t ∧ T size t (bodyShape ⟨limits, answer⟩ function s).2 := by
  obtain ⟨name, params, body, isArrow, span⟩ := function
  rw [Function.mk.sizeOf_spec]
  cases body with
  | expr value =>
    refine ⟨sizeOf value, ?_, (shapeOfValue ⟨limits, answer⟩ 0 0 value s).2, ?_, ?_⟩
    · rw [FunctionBody.expr.sizeOf_spec]
      omega
    · exact (asks_shapeOfValue limits 0 0 value).obeys rule each s
    · exact rule.mono (Nat.zero_le _) (rule.refl _)
  | block block =>
    obtain ⟨body, braces⟩ := block
    refine ⟨sizeOf body, ?_, (scopeOfBody ⟨limits, answer⟩ ⟨braces.stop.position, true⟩ params body s).2,
      obeys_scopeOfBody rule each _ params body s, obeys_resultShape? rule each params body _ _⟩
    rw [FunctionBody.block.sizeOf_spec,Block.mk.sizeOf_spec]
    omega

end Shaping

theorem obeys_shapeWithin {limits : Limits} (rule : Account.Rule limits T) (levels : Nat)
    (function : Function) : Obeys T (sizeOf function) (shapeWithin limits levels function) := by
  induction levels generalizing function with
  | zero => exact fun s => rule.mono (Nat.zero_le _) (rule.refl s)
  | succ levels ih =>
    intro s
    dsimp only [shapeWithin]
    split
    · exact rule.mono (Nat.zero_le _) (rule.refl s)
    · next inner entered =>
      obtain ⟨size, small, t, first, second⟩ :=
        obeys_bodyShape rule ih function inner
      exact rule.mono small (rule.nested entered first second)

namespace Budget

variable {limits : Limits} {b c : Budget}

/-- After some entries the depth is what it was, no step is taken back, and nothing at all has changed
where there was a reason to stop. -/
structure Kept (b c : Budget) : Prop where
  depth : c.shapeDepth = b.shapeDepth
  steps : b.steps.toNat ≤ c.steps.toNat
  same : b.exhausted = true → c = b

theorem Kept.refl (b : Budget) : Kept b b := ⟨rfl, Nat.le_refl _, fun _ => rfl⟩

theorem Kept.trans {d : Budget} (first : Kept b c) (second : Kept c d) : Kept b d := by
  refine ⟨second.depth.trans first.depth, Nat.le_trans first.steps second.steps, fun spent => ?_⟩
  have same := first.same spent
  rw [second.same (same ▸ spent),same]

theorem Kept.goesOn (kept : Kept b c) (goesOn : c.exhausted = false) : b.exhausted = false := by
  cases spent : b.exhausted with
  | false => rfl
  | true =>
    rw [kept.same spent] at goesOn
    exact spent.symm.trans goesOn

theorem Kept.absorb (kept : Kept b c) : b.absorb c = c :=
  absorb_eq kept.depth fun spent => by rw [kept.same spent]

theorem kept_of_visit_error (refused : b.visit limits = .error c) : Kept b c := by
  have counted := b.counted limits
  rw [refused] at counted
  cases counted with
  | spent => exact .refl b
  | overflow goesOn => exact ⟨rfl, Nat.le_refl _, fun spent => by cases goesOn.symm.trans spent⟩
  | limit _ goesOn more =>
    exact ⟨rfl, more ▸ Nat.le_succ _, fun spent => by cases goesOn.symm.trans spent⟩

theorem kept_of_visit_ok (visited : b.visit limits = .ok c) : Kept b c := by
  have counted := b.counted limits
  rw [visited] at counted
  cases counted with
  | visited steps goesOn more =>
    exact ⟨rfl, more ▸ Nat.le_succ _, fun spent => by cases goesOn.symm.trans spent⟩

theorem eq_of_enter? (entered : b.enter? limits = some c) :
    b.shapeDepth < limits.shapeDepth ∧ c = { b with shapeDepth := b.shapeDepth + 1 } := by
  unfold enter? at entered
  split at entered
  · cases entered
  · cases entered
    exact ⟨by omega, rfl⟩

theorem Kept.nested {d : Budget} (entered : b.enter? limits = some c) (kept : Kept c d) :
    Kept b d.leave := by
  obtain ⟨-, rfl⟩ := eq_of_enter? entered
  refine ⟨?_, kept.steps, fun spent => ?_⟩
  · rw [leave,kept.depth]
    rfl
  · rw [kept.same spent]
    rfl

theorem rule_kept (limits : Limits) : Account.Rule limits fun _ => Kept where
  refl := .refl
  mono _ kept := kept
  trans := .trans
  refused := kept_of_visit_error
  visited visited first second := (kept_of_visit_ok visited).trans (first.trans second)
  nested entered first second := (first.trans second).nested entered
  absorbed kept := by rwa [show Account.absorb _ _ = _ from kept.absorb]

end Budget

theorem Walk.goesOn_of_scopeOfBody {shaping : Shaping Budget} {v : Viewpoint} {params : List Param}
    {body : List Stmt} {b : Budget} (enough : (scopeOfBody shaping v params body b).2.exhausted = false) :
    (run v shaping (Task.stmts 0 body) (declareParams ⟨.empty, b⟩ params 0)).budget.exhausted = false := by
  rw [Bool.eq_false_iff]
  intro spent
  have absorbed : (scopeOfBody shaping v params body b).2.exhausted = true :=
    Budget.exhausted_absorb (Or.inr spent)
  rw [enough] at absorbed
  cases absorbed

end CodeCompletion
