import CodeCompletion.Analysis.Return
import CodeCompletion.Proofs.Parser.Nesting

/-! The first `return` of a list of statements. The search works off a stack: while the statements
on it follow one another in the text, so do those that one step leaves there, and a `return` that
comes to the top starts before all others that can still be found. -/
namespace CodeCompletion

open TreeNode CodeCompletion.Parser

variable {ls : List Lexeme} {n : TreeNode} {s r : Stmt} {stack rest : List Stmt} {span : Span}
  {value : Expr}

namespace TreeNode

/-- The statements that a node stands for: itself, or those that stand in it. -/
def held : TreeNode → List Stmt
  | stmt value => [value]
  | block value => value.body
  | catchClause value => value.body.body
  | switchCase value => value.body
  | _ => []

def statements? : TreeNode → Option (List Stmt)
  | program value => some value.body
  | block value => some value.body
  | switchCase value => some value.body
  | _ => none

@[simp] theorem flatMap_held_exprs (values : List Expr) : (exprs values).flatMap held = [] := by
  simp [exprs,held]

@[simp] theorem flatMap_held_loopStart (start : LoopStart) :
    (ofLoopStart start).flatMap held = [] := by
  cases start <;> simp [ofLoopStart,held]

/-- What is inside a statement is what the nodes right below it stand for. -/
theorem inner_eq (s : Stmt) : s.inner = (stmt s).children.flatMap held := by
  cases s with
  | ifElse span test consequent alternate =>
    cases alternate <;> simp [Stmt.inner,children,ofStmt,stmts,held]
  | tryCatch span braces handler finalizer =>
    cases handler <;> cases finalizer <;> simp [Stmt.inner,children,ofStmt,held]
  | forLoop span init test update body =>
    cases init <;> simp [Stmt.inner,children,ofStmt,exprs?,held]
  | switch span discriminant cases =>
    simp only [Stmt.inner,children,ofStmt,List.flatMap_cons,List.flatMap_map]
    rfl
  | _ => simp [Stmt.inner,children,ofStmt,exprs?,held]

theorem isStatement_of_held (member : s ∈ n.held) : n.isStatement = true := by
  cases n with
  | stmt | block | catchClause | switchCase => rfl
  | _ => cases member

theorem enclosed_of_held (member : s ∈ n.held) : Enclosed n (.stmt s) := by
  have listed {body : List Stmt} (member : s ∈ body) : stmt s ∈ stmts body :=
    List.mem_map_of_mem member
  cases n with
  | stmt value =>
    obtain rfl := List.mem_singleton.mp member
    exact .refl
  | block value => exact .single ⟨listed member, rfl⟩
  | catchClause value => exact .head ⟨List.mem_singleton_self _, rfl⟩ (.single ⟨listed member, rfl⟩)
  | switchCase value => exact .single ⟨List.mem_append_right _ (listed member), rfl⟩
  | _ => cases member

/-- The way to a statement leads through one that the node stands for. -/
theorem Enclosed.exists_held (path : Enclosed n (.stmt r)) (statement : n.isStatement = true) :
    ∃ s ∈ n.held, Enclosed (.stmt s) (.stmt r) := by
  have braces {value : Block} (path : Enclosed (.block value) (.stmt r)) :
      ∃ s ∈ value.body, Enclosed (.stmt s) (.stmt r) := by
    rcases path.cases_head with same | ⟨c, ⟨member, -⟩, path⟩
    · cases same
    · obtain ⟨s, listed, rfl⟩ := List.mem_map.mp member
      exact ⟨s, listed, path⟩
  cases n with
  | stmt value => exact ⟨value, List.mem_singleton_self _, path⟩
  | block value => exact braces path
  | catchClause value =>
    rcases path.cases_head with same | ⟨c, ⟨member, -⟩, path⟩
    · cases same
    · obtain rfl := List.mem_singleton.mp member
      exact braces path
  | switchCase value =>
    rcases path.cases_head with same | ⟨c, ⟨member, statement⟩, path⟩
    · cases same
    · rcases List.mem_append.mp member with test | body
      · obtain ⟨value, -, rfl⟩ := List.mem_map.mp test
        cases statement
      · obtain ⟨s, listed, rfl⟩ := List.mem_map.mp body
        exact ⟨s, listed, path⟩
  | _ => cases statement

/-- The way from a statement to another one leads through a statement inside. -/
theorem enclosed_stmt_iff :
    Enclosed (.stmt s) (.stmt r) ↔ s = r ∨ ∃ c ∈ s.inner, Enclosed (.stmt c) (.stmt r) := by
  constructor
  · intro path
    rcases path.cases_head with same | ⟨n, ⟨member, statement⟩, path⟩
    · cases same
      exact .inl rfl
    · obtain ⟨c, listed, path⟩ := Enclosed.exists_held path statement
      exact .inr ⟨c, inner_eq s ▸ List.mem_flatMap.mpr ⟨n, member, listed⟩, path⟩
  · rintro (rfl | ⟨c, member, path⟩)
    · exact .refl
    · obtain ⟨n, below, listed⟩ := List.mem_flatMap.mp (inner_eq s ▸ member)
      exact .head ⟨below, isStatement_of_held listed⟩ ((enclosed_of_held listed).trans path)

end TreeNode

/-- A `return` with a value stands among the statements or inside of them, but in no function or
class there. -/
def ReturnsIn (body : List Stmt) (span : Span) (value : Expr) : Prop :=
  ∃ s ∈ body, Enclosed (.stmt s) (.stmt (.returns span (some value)))

theorem returnsIn_cons : ReturnsIn (s :: rest) span value ↔
    s = .returns span (some value) ∨ ReturnsIn (s.inner ++ rest) span value := by
  constructor
  · rintro ⟨t, member, path⟩
    rcases List.mem_cons.mp member with rfl | later
    · rcases enclosed_stmt_iff.mp path with same | ⟨c, inside, path⟩
      · exact .inl same
      · exact .inr ⟨c, List.mem_append_left _ inside, path⟩
    · exact .inr ⟨t, List.mem_append_right _ later, path⟩
  · rintro (rfl | ⟨t, member, path⟩)
    · exact ⟨_, List.mem_cons_self, .refl⟩
    · rcases List.mem_append.mp member with inside | later
      · exact ⟨s, List.mem_cons_self, enclosed_stmt_iff.mpr (.inr ⟨t, inside, path⟩)⟩
      · exact ⟨t, List.mem_cons_of_mem _ later, path⟩

theorem returnsIn_of_firstReturn? (found : firstReturn? stack = some (span, value)) :
    ReturnsIn stack span value := by
  fun_induction firstReturn? stack with
  | case1 => cases found
  | case2 span value rest =>
    cases found
    exact returnsIn_cons.mpr (.inl rfl)
  | case3 s rest _ ih => exact returnsIn_cons.mpr (.inr (ih found))

theorem firstReturn?_eq_none_iff :
    firstReturn? stack = none ↔ ∀ span value, ¬ReturnsIn stack span value := by
  fun_induction firstReturn? stack with
  | case1 => simp [ReturnsIn]
  | case2 span value rest =>
    simp only [reduceCtorEq,false_iff,not_forall,not_not]
    exact ⟨span, value, returnsIn_cons.mpr (.inl rfl)⟩
  | case3 s rest other ih =>
    rw [ih]
    refine forall₂_congr fun span value => not_congr ?_
    rw [returnsIn_cons]
    exact (or_iff_right fun same => other span value same).symm

/-- The value of a `return` is smaller than the statements that it is found in. -/
theorem sizeOf_firstReturn? (found : firstReturn? stack = some (span, value)) :
    sizeOf value < sizeOf stack := by
  fun_induction firstReturn? stack with
  | case1 => cases found
  | case2 span value rest =>
    cases found
    rw [List.cons.sizeOf_spec,Stmt.returns.sizeOf_spec,Option.some.sizeOf_spec]
    omega
  | case3 s rest _ ih =>
    have := ih found
    have := sizeOf_append s.inner rest
    have := sizeOf_inner s
    rw [List.cons.sizeOf_spec]
    omega

/-- What is inside of spans that follow one another does so too. -/
theorem Span.Before.inside {first second a b : Span} (before : first.Before second)
    (inner : first.Encloses a) (inner' : second.Encloses b) : a.Before b :=
  Nat.le_trans inner.2 (Nat.le_trans before inner'.1)

/-- Statements that follow one another in the text of the lexemes. -/
structure Successive (ls : List Lexeme) (stack : List Stmt) : Prop where
  tidy : ∀ s ∈ stack, Tidy ls (.stmt s)
  ordered : stack.Pairwise fun s t => s.span.Before t.span

namespace Successive

variable {body : List Stmt}

theorem of_sublist (tidy : Tidy ls n) (sequential : n.isSequential = true)
    (listed : (stmts body).Sublist n.children) : Successive ls body := by
  obtain ⟨-, -, below, ordered, -⟩ := tidy
  refine ⟨fun s member => below _ (listed.subset (List.mem_map_of_mem member)), ?_⟩
  exact (List.pairwise_map (f := stmt)).mp ((ordered sequential).sublist listed)

theorem of_statements? (tidy : Tidy ls n) (listed : n.statements? = some body) :
    Successive ls body := by
  cases n with
  | program value =>
    cases listed
    exact of_sublist tidy rfl (.refl _)
  | block value =>
    cases listed
    exact of_sublist tidy rfl (.refl _)
  | switchCase value =>
    cases listed
    exact of_sublist tidy rfl (List.sublist_append_right ..)
  | _ => cases listed

theorem held (tidy : Tidy ls n) : Successive ls n.held := by
  cases n with
  | stmt value => exact ⟨List.forall_mem_singleton.mpr tidy, List.pairwise_singleton ..⟩
  | block value => exact of_statements? tidy rfl
  | switchCase value => exact of_statements? tidy rfl
  | catchClause value =>
    obtain ⟨-, -, below, -, -⟩ := tidy
    exact of_statements? (below (.block value.body) (List.mem_singleton_self _)) rfl
  | _ => exact ⟨nofun, .nil⟩

variable (stream : Stream ls)
include stream

/-- The parts of a statement follow one another, and so does what these stand for. -/
theorem inner (tidy : Tidy ls (.stmt s)) : Successive ls s.inner := by
  obtain ⟨-, -, below, ordered, -⟩ := tidy
  rw [inner_eq]
  refine ⟨fun t member => ?_, List.pairwise_flatMap.mpr ⟨fun c member => ?_, ?_⟩⟩
  · obtain ⟨c, member, listed⟩ := List.mem_flatMap.mp member
    exact (held (below c member)).tidy t listed
  · exact (held (below c member)).ordered
  · refine (ordered rfl).imp_of_mem fun {c d} first second before x listed y listed' => ?_
    exact before.inside ((below c first).encloses stream (enclosed_of_held listed).below)
      ((below d second).encloses stream (enclosed_of_held listed').below)

/-- Taking a statement off the stack and putting those inside it there keeps the order. -/
theorem step (successive : Successive ls (s :: rest)) : Successive ls (s.inner ++ rest) := by
  obtain ⟨tidy, ordered⟩ := successive
  obtain ⟨first, tidy⟩ := List.forall_mem_cons.mp tidy
  obtain ⟨before, ordered⟩ := List.pairwise_cons.mp ordered
  have inside := inner stream first
  refine ⟨List.forall_mem_append.mpr ⟨inside.tidy, tidy⟩, ?_⟩
  refine List.pairwise_append.mpr ⟨inside.ordered, ordered, fun c member t later => ?_⟩
  have path : Enclosed (.stmt s) (.stmt c) := enclosed_stmt_iff.mpr (.inr ⟨c, member, .refl⟩)
  exact (before t later).inside (first.encloses stream path.below) (.refl _)

end Successive

/-- A `return` that is found ends before all others that are there start. -/
theorem before_of_firstReturn? (stream : Stream ls) (successive : Successive ls stack)
    (found : firstReturn? stack = some (span, value)) {span' : Span} {value' : Expr}
    (other : ReturnsIn stack span' value') :
    (span', value') = (span, value) ∨ span.Before span' := by
  fun_induction firstReturn? stack with
  | case1 => cases found
  | case2 here value rest =>
    cases found
    rcases returnsIn_cons.mp other with same | ⟨t, later, path⟩
    · cases same
      exact .inl rfl
    · obtain ⟨before, -⟩ := List.pairwise_cons.mp successive.ordered
      have tidy := successive.tidy t (List.mem_cons_of_mem _ later)
      exact .inr ((before t later).inside (.refl _) (tidy.encloses stream path.below))
  | case3 s rest isOther ih =>
    refine ih (successive.step stream) found ((returnsIn_cons.mp other).resolve_left ?_)
    exact isOther span' value'

/-- A `return` is not empty, as it starts with its word. -/
theorem Tiling.nonempty_return {before text : List Char} {given : Option Expr}
    (tiling : Tiling before text ls) (tidy : Tidy ls (.stmt (.returns span given))) :
    span.start.offset < span.stop.offset := by
  obtain ⟨-, -, -, -, i, j, ⟨lt, ⟨first, here, start⟩, last, there, stop⟩, token⟩ := tidy
  have word : first.token = .word "return" := by
    simpa [tokenAt,here] using token
  have nonempty := tiling.nonempty first (List.mem_of_getElem? here) (by simp [word])
  have le := tiling.stream.stop_le here there (by omega)
  rw [← start,← stop]
  omega

/-- In every list of statements of a program, the `return` with a value is found that starts first
among all in reach, and none is found only where there is none. -/
theorem firstReturn?_earliest (source : String) (program : Program) (n : TreeNode)
    (body : List Stmt) (parsed : parseText source = .ok program)
    (below : Below (.program program) n) (listed : n.statements? = some body) :
    (∀ span value, firstReturn? body = some (span, value) ↔
      ReturnsIn body span value ∧ ∀ span' value', ReturnsIn body span' value' →
        span.start.offset ≤ span'.start.offset) ∧
    (firstReturn? body = none ↔ ∀ span value, ¬ReturnsIn body span value) := by
  obtain ⟨_, _, ls, -, -, tiling, tidy⟩ := tidy_of_parseText parsed
  have successive := Successive.of_statements? (tidy.descendant below) listed
  have nonempty {span : Span} {value : Expr} (returns : ReturnsIn body span value) :
      span.start.offset < span.stop.offset := by
    obtain ⟨s, member, path⟩ := returns
    exact tiling.nonempty_return ((successive.tidy s member).descendant path.below)
  refine ⟨fun span value => ⟨fun found => ?_, fun ⟨returns, least⟩ => ?_⟩, firstReturn?_eq_none_iff⟩
  · have returns := returnsIn_of_firstReturn? found
    refine ⟨returns, fun span' value' other => ?_⟩
    rcases before_of_firstReturn? tiling.stream successive found other with same | before
    · cases same
      exact Nat.le_refl _
    · exact Nat.le_trans (Nat.le_of_lt (nonempty returns)) before
  · cases found : firstReturn? body with
    | none => exact absurd returns (firstReturn?_eq_none_iff.mp found span value)
    | some first =>
      obtain ⟨span', value'⟩ := first
      have returns' := returnsIn_of_firstReturn? found
      rcases before_of_firstReturn? tiling.stream successive found returns with same | before
      · rw [same]
      -- The one that is found would end before the one that starts first.
      · have := least span' value' returns'
        have := nonempty returns'
        unfold Span.Before at before
        omega

/-- The `return` of a function is passed over, and the one after `finally` comes before the one at
the end. -/
theorem firstReturn?_earliest_finally : ∃ program value,
    parseText "function g(){return b}try{}finally{return c}return a" = .ok program ∧
    firstReturn? program.body = some (firstLine 35 43, value) ∧
    ReturnsIn program.body (firstLine 35 43) value ∧
    ∀ span' value', ReturnsIn program.body span' value' → 35 ≤ span'.start.offset := by
  obtain ⟨program, parsed, first⟩ : ∃ program,
      parseText "function g(){return b}try{}finally{return c}return a" = .ok program ∧
      (firstReturn? program.body).map Prod.fst = some (firstLine 35 43) :=
    exists_ok_of_any (by decide +kernel)
  obtain ⟨⟨span, value⟩, found, rfl⟩ := Option.map_eq_some_iff.mp first
  obtain ⟨returns, least⟩ := ((firstReturn?_earliest _ _ _ _ parsed .refl rfl).1 _ _).mp found
  exact ⟨program, value, parsed, found, returns, least⟩

end CodeCompletion
