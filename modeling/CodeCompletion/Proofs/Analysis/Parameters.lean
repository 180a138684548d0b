import CodeCompletion.Proofs.Analysis.Locality

/-! Parameters around the caret. An analysis overlooks some places where a function may stand, the
tests of loops for one; `visibleAt_parameters` says that in all other places, the parameters of
every function around the caret are in scope. -/
namespace CodeCompletion

namespace TreeNode

/-- Those of the nodes right below that an analysis does not look into. -/
def overlooked : TreeNode → List TreeNode
  | stmt (.forLoop _ _ test update _) => exprs? test ++ exprs? update
  | stmt (.forEach _ left right _ _) => ofLoopStart left ++ [expr right]
  | stmt (.whileLoop _ test _) | stmt (.doWhile _ _ test) => [expr test]
  | stmt (.switch _ discriminant _) => [expr discriminant]
  | switchCase value => exprs? value.test
  | function value => ofParams value.params
  | classDef value => exprs? value.parent
  | member value => ofKey value.key
  | property value => ofKey value.key
  | expr (.assign _ _ target _) => [expr target]
  | expr (.construct _ callee _) => [expr callee]
  | expr (.update _ _ _ operand) => [expr operand]
  | expr (.member _ _ name _) => ofMemberName name
  | _ => []

/-- A node at or below another one, with no overlooked node between them. -/
def Watched : TreeNode → TreeNode → Prop :=
  Relation.ReflTransGen fun n c => c ∈ n.children ∧ c ∉ n.overlooked

theorem Watched.below {n m : TreeNode} (path : Watched n m) : Below n m :=
  Relation.ReflTransGen.mono (fun _ _ step => step.1) _ _ path

end TreeNode

namespace Tiling

variable {before text : List Char} {ls : List Lexeme} {p : Position}

theorem contains_of_child (tiling : Tiling before text ls) {n c : TreeNode}
    (tidy : Parser.Tidy ls n) (member : c ∈ n.children) (inside : c.span.contains p) :
    n.span.contains p := by
  obtain ⟨spans, within, -, -⟩ := tidy
  obtain ⟨a, b, starts, stops, spans'⟩ := within c member
  exact tiling.contains spans spans' starts stops inside

/-- The body of a class is around its members. -/
theorem contains_bodySpan (tiling : Tiling before text ls) {definition : Class}
    {entry : ClassMember} (tidy : Parser.Tidy ls (.classDef definition))
    (listed : entry ∈ definition.members) (inside : entry.span.contains p) :
    definition.bodySpan.contains p := by
  obtain ⟨-, -, -, -, -, i, j, spans, within⟩ := tidy
  obtain ⟨a, b, starts, stops, spans'⟩ := within entry listed
  exact tiling.contains spans spans' starts stops inside

end Tiling

namespace Task

open TreeNode

variable {v : Viewpoint} {tasks : List Task} {task : Task} {depth : Nat} {c : TreeNode}

/-- The tasks that a node gives rise to where an analysis looks into it. Braces are entered
without a visit to the statement they make up. -/
def due (v : Viewpoint) (depth : Nat) : TreeNode → List Task
  | program value => stmts depth value.body
  | stmt (.block _ braces) | .block braces => block v depth braces
  | stmt value => [⟨.stmt value, depth⟩]
  | declarator value => inits depth [value]
  | catchClause value => block v depth value.body
  | switchCase value => if v.opens value.span then stmts (depth + 1) value.body else []
  | function value => functionBody v depth value
  | classDef value => classBody v depth value
  | member value => memberBody v depth value
  | property value => exprs depth [value.value]
  | expr value => exprs depth [value]

def dueDeclared (v : Viewpoint) (depth : Nat) : TreeNode → List Declaration
  | function value => functionDeclared v depth value
  | classDef value => classDeclared v depth value
  | member value => memberDeclared v depth value
  | _ => []

def Attended (v : Viewpoint) (tasks : List Task) (n : TreeNode) : Prop :=
  ∃ depth, (∀ t ∈ due v depth n, Reached v tasks t) ∧
    ∀ d ∈ dueDeclared v depth n, ∃ t, Reached v tasks t ∧ d ∈ t.declared v

theorem Reached.attended (depth : Nat) (reached : Reached v tasks task)
    (parts : due v depth c ⊆ task.parts v)
    (declared : dueDeclared v depth c ⊆ task.declared v) : Attended v tasks c :=
  ⟨depth, fun _ member => reached.part (parts member),
    fun _ member => ⟨task, reached, declared member⟩⟩

theorem Reached.attended_stmt {value : Stmt} (reached : Reached v tasks ⟨.stmt value, depth⟩) :
    Attended v tasks (.stmt value) := by
  cases value with
  | block span braces => exact reached.attended depth (List.Subset.refl _) (List.nil_subset _)
  | _ => exact ⟨depth, fun t member => List.mem_singleton.mp member ▸ reached, nofun⟩

theorem Reached.attended_expr {value : Expr} (reached : Reached v tasks ⟨.expr value, depth⟩) :
    Attended v tasks (.expr value) :=
  ⟨depth, fun _ member => List.mem_singleton.mp member ▸ reached, nofun⟩

/-- The operands that a task goes on with are looked into. -/
theorem Reached.attended_exprs {values : List Expr} (reached : Reached v tasks task)
    (parts : exprs depth values ⊆ task.parts v) (member : c ∈ TreeNode.exprs values) :
    Attended v tasks c := by
  obtain ⟨value, listed, rfl⟩ := List.mem_map.mp member
  exact (reached.part (parts (List.mem_map.mpr ⟨value, listed, rfl⟩))).attended_expr

theorem Reached.attended_branch {body : Stmt} (reached : Reached v tasks task)
    (parts : branch v depth body ⊆ task.parts v) (opened : v.opens body.span = true) :
    Attended v tasks (.stmt body) := by
  unfold branch at parts
  rw [if_pos opened] at parts
  split at parts
  · refine reached.attended depth (fun t member => parts ?_) (List.nil_subset _)
    simp only [due,block] at member
    split at member
    · exact member
    · cases member
  · exact (reached.part (parts List.mem_cons_self)).attended_stmt

theorem Reached.attended_declarator {declarators : List Declarator} {d : Declarator}
    (reached : Reached v tasks task) (parts : inits depth declarators ⊆ task.parts v)
    (listed : d ∈ declarators) : Attended v tasks (.declarator d) := by
  refine reached.attended depth (fun t member => parts ?_) (List.nil_subset _)
  obtain ⟨value, given, rfl⟩ := List.mem_map.mp member
  refine List.mem_map.mpr ⟨value, List.mem_filterMap.mpr ⟨d, listed, ?_⟩, rfl⟩
  simpa using given

/-- A statement that is looked into has those nodes looked into that are right below it, open to
the viewpoint and not overlooked. -/
theorem Reached.attended_ofStmt {value : Stmt} (reached : Reached v tasks ⟨.stmt value, depth⟩)
    (member : c ∈ TreeNode.ofStmt value) (watched : c ∉ (TreeNode.stmt value).overlooked)
    (opened : v.opens c.span = true) : Attended v tasks c := by
  cases value with
  | declare span kind declarators =>
    obtain ⟨d, listed, rfl⟩ := List.mem_map.mp member
    exact reached.attended_declarator (List.Subset.refl _) listed
  | function span function =>
    cases List.mem_singleton.mp member
    exact reached.attended depth (List.Subset.refl _) (List.subset_append_right _ _)
  | classDeclaration span definition =>
    cases List.mem_singleton.mp member
    exact reached.attended depth (List.Subset.refl _) (List.subset_append_right _ _)
  | returns span value =>
    cases value with
    | none => cases member
    | some value => exact reached.attended_exprs (List.Subset.refl _) member
  | throws span value | expr span value =>
    exact reached.attended_exprs (List.Subset.refl _) member
  | ifElse span test consequent alternate =>
    simp only [TreeNode.ofStmt,List.mem_cons] at member
    rcases member with rfl | rfl | member
    · have visited : Reached v tasks ⟨.expr test, depth⟩ := reached.part List.mem_cons_self
      exact visited.attended_expr
    · have parts : branch v depth consequent ⊆ exprs depth [test] ++ branch v depth consequent :=
        List.subset_append_right _ _
      exact reached.attended_branch (List.subset_append_of_subset_left _ parts) opened
    · cases alternate with
      | none => cases member
      | some alternate =>
        cases List.mem_singleton.mp member
        exact reached.attended_branch (List.subset_append_right _ _) opened
  | block span braces =>
    cases List.mem_singleton.mp member
    exact reached.attended depth (List.Subset.refl _) (List.nil_subset _)
  | tryCatch span body handler finalizer =>
    simp only [TreeNode.ofStmt,List.mem_cons,List.mem_append] at member
    rcases member with rfl | member | member
    · exact reached.attended depth (fun t => by simp +contextual [due,parts,ofStmt])
        (List.nil_subset _)
    · obtain ⟨clause, given, rfl⟩ := List.mem_map.mp member
      cases Option.mem_toList.mp given
      exact reached.attended depth (fun t => by simp +contextual [due,parts,ofStmt])
        (List.nil_subset _)
    · obtain ⟨braces, given, rfl⟩ := List.mem_map.mp member
      cases Option.mem_toList.mp given
      exact reached.attended depth (List.subset_append_right _ _) (List.nil_subset _)
  | forLoop span init test update body =>
    simp only [TreeNode.ofStmt,List.mem_append,List.mem_singleton] at member
    simp only [overlooked,List.mem_append,not_or] at watched
    rcases member with member | member | member | rfl
    · obtain ⟨start, given, within⟩ := List.mem_flatMap.mp member
      cases Option.mem_toList.mp given
      cases start with
      | bindings span kind declarators =>
        obtain ⟨d, listed, rfl⟩ := List.mem_map.mp within
        exact reached.attended_declarator (List.subset_append_left _ _) listed
      | expr value =>
        cases List.mem_singleton.mp within
        exact (reached.part List.mem_cons_self).attended_expr
    · exact absurd member watched.1
    · exact absurd member watched.2
    · exact reached.attended_branch (List.subset_append_right _ _) opened
  | forEach span left right body ofValues =>
    simp only [TreeNode.ofStmt,List.mem_append,List.mem_cons,List.not_mem_nil,or_false] at member
    simp only [overlooked,List.mem_append,List.mem_singleton,not_or] at watched
    rcases member with member | rfl | rfl
    · exact absurd member watched.1
    · exact absurd rfl watched.2
    · exact reached.attended_branch (List.Subset.refl _) opened
  | whileLoop span test body =>
    rcases List.mem_cons.mp member with rfl | member
    · exact absurd List.mem_cons_self watched
    · cases List.mem_singleton.mp member
      exact reached.attended_branch (List.Subset.refl _) opened
  | doWhile span body test =>
    rcases List.mem_cons.mp member with rfl | member
    · exact reached.attended_branch (List.Subset.refl _) opened
    · exact absurd member watched
  | switch span discriminant cases =>
    rcases List.mem_cons.mp member with rfl | member
    · exact absurd List.mem_cons_self watched
    · obtain ⟨clause, listed, rfl⟩ := List.mem_map.mp member
      refine reached.attended depth (fun t member => ?_) (List.nil_subset _)
      exact List.mem_flatMap.mpr ⟨clause, listed, member⟩
  | labeled span label body =>
    cases List.mem_singleton.mp member
    exact (reached.part List.mem_cons_self).attended_stmt
  | breaks | continues | empty | debugger => cases member

theorem Reached.attended_ofExpr {value : Expr} (reached : Reached v tasks ⟨.expr value, depth⟩)
    (member : c ∈ TreeNode.ofExpr value) (watched : c ∉ (TreeNode.expr value).overlooked)
    (around : value.span.contains v.caret) : Attended v tasks c := by
  have all {values : List Expr} (operands : ofExpr v depth value = exprs depth values)
      (member : c ∈ TreeNode.exprs values) : Attended v tasks c := by
    have parts : exprs depth values ⊆ parts v ⟨.expr value, depth⟩ := fun t given =>
      show t ∈ ofExpr v depth value from operands ▸ given
    exact reached.attended_exprs parts member
  cases value with
  | assign span op target value =>
    rcases List.mem_cons.mp member with rfl | member
    · exact absurd List.mem_cons_self watched
    · exact reached.attended_exprs (List.Subset.refl _) member
  | call span callee arguments isOptional =>
    have operands : c ∈ TreeNode.exprs (callee :: arguments) := member
    refine all ?_ operands
    rw [ofExpr,if_pos (show v.isIn span from around)]
  | construct span callee arguments =>
    rcases List.mem_cons.mp member with rfl | member
    · exact absurd List.mem_cons_self watched
    · refine all ?_ member
      rw [ofExpr,if_pos (show v.isIn span from around)]
  | function span function =>
    cases List.mem_singleton.mp member
    exact reached.attended depth (List.Subset.refl _) (List.subset_append_right _ _)
  | classValue span definition =>
    cases List.mem_singleton.mp member
    exact reached.attended depth (List.Subset.refl _) (List.subset_append_right _ _)
  | object span properties =>
    obtain ⟨property, listed, rfl⟩ := List.mem_map.mp member
    refine reached.attended depth (fun t given => ?_) (List.nil_subset _)
    cases List.mem_singleton.mp given
    simp only [parts,ofExpr,if_pos (show v.isIn span from around)]
    exact List.mem_map.mpr ⟨property.value, List.mem_map.mpr ⟨property, listed, rfl⟩, rfl⟩
  | array span elements =>
    refine all ?_ member
    rw [ofExpr,if_pos (show v.isIn span from around)]
  | member span base name isOptional =>
    rcases List.mem_cons.mp member with rfl | member
    · exact (reached.part List.mem_cons_self).attended_expr
    · exact absurd member watched
  | sequence | conditional | binary | unary | spread =>
    exact reached.attended_exprs (List.Subset.refl _) member
  | update => exact absurd member watched
  | ident | thisRef | superRef | literal => cases member

theorem attended_functionBody {function : Function}
    (visited : ∀ t ∈ functionBody v depth function, Reached v tasks t)
    (member : c ∈ ofFunctionBody function.body) (inside : c.span.contains v.caret) :
    Attended v tasks c := by
  obtain ⟨name, params, body, isArrow, span⟩ := function
  cases body with
  | block braces =>
    cases List.mem_singleton.mp member
    have opened : v.opens braces.span = true := opens_of_isIn inside
    have entered : v.isIn braces.span := inside
    refine ⟨depth, fun t given => visited t ?_, nofun⟩
    rw [due,block,if_pos opened] at given
    simpa [functionBody,FunctionBody.span,entered] using given
  | expr value =>
    cases List.mem_singleton.mp member
    have entered : v.isIn value.span := inside
    refine (visited ⟨.expr value, depth + 1⟩ ?_).attended_expr
    simp [functionBody,FunctionBody.span,entered]

variable {n : TreeNode}

/-- The step from a statement that is looked into to what is right below it. -/
theorem Attended.statement (attended : Attended v tasks n) (statement : n.isStatement = true)
    (member : c ∈ n.children) (watched : c ∉ n.overlooked) (around : v.opens n.span = true)
    (opened : v.opens c.span = true) : Attended v tasks c := by
  obtain ⟨depth, visited, -⟩ := attended
  cases n with
  | stmt value =>
    cases value with
    | block span braces =>
      cases List.mem_singleton.mp member
      exact ⟨depth, visited, by simp [dueDeclared]⟩
    | _ => exact (visited _ List.mem_cons_self).attended_ofStmt member watched opened
  | block value =>
    obtain ⟨first, listed, rfl⟩ := List.mem_map.mp member
    refine (visited ⟨.stmt first, depth + 1⟩ ?_).attended_stmt
    rw [due,block,if_pos (show v.opens value.span = true from around)]
    exact List.mem_map.mpr ⟨first, listed, rfl⟩
  | catchClause value =>
    cases List.mem_singleton.mp member
    exact ⟨depth, visited, by simp [dueDeclared]⟩
  | switchCase value =>
    rcases List.mem_append.mp member with test | later
    · exact absurd test watched
    · obtain ⟨first, listed, rfl⟩ := List.mem_map.mp later
      refine (visited ⟨.stmt first, depth + 1⟩ ?_).attended_stmt
      rw [due,if_pos (show v.opens value.span = true from around)]
      exact List.mem_map.mpr ⟨first, listed, rfl⟩
  | program | declarator | function | classDef | member | property | expr => cases statement

/-- The step from a node that is looked into to one right below it that has the caret in it. -/
theorem Attended.child {before text : List Char} {ls : List Lexeme}
    (attended : Attended v tasks n) (tiling : Tiling before text ls) (tidy : Parser.Tidy ls n)
    (member : c ∈ n.children) (watched : c ∉ n.overlooked) (around : n.span.contains v.caret)
    (inside : c.span.contains v.caret) : Attended v tasks c := by
  by_cases statement : n.isStatement = true
  · exact attended.statement statement member watched (opens_of_isIn around) (opens_of_isIn inside)
  obtain ⟨depth, visited, declared⟩ := attended
  cases n with
  | stmt | block | catchClause | switchCase => exact absurd rfl statement
  | program value =>
    obtain ⟨first, listed, rfl⟩ := List.mem_map.mp member
    exact (visited _ (List.mem_map.mpr ⟨first, listed, rfl⟩)).attended_stmt
  | declarator value =>
    obtain ⟨init, given, rfl⟩ := List.mem_map.mp member
    refine (visited ⟨.expr init, depth⟩ (List.mem_map.mpr ⟨init, ?_, rfl⟩)).attended_expr
    simpa using given
  | function value =>
    rcases List.mem_append.mp member with fallback | body
    · exact absurd fallback watched
    · exact attended_functionBody visited body inside
  | classDef value =>
    rcases List.mem_append.mp member with parent | entry
    · exact absurd parent watched
    · obtain ⟨part, listed, rfl⟩ := List.mem_map.mp entry
      have body : v.isIn value.bodySpan := tiling.contains_bodySpan tidy listed inside
      refine ⟨depth, fun t given => visited t ?_, fun d given => declared d ?_⟩
      · rw [due,classBody,if_pos body]
        exact List.mem_flatMap.mpr ⟨part, listed, given⟩
      · rw [dueDeclared,classDeclared,if_pos body]
        exact List.mem_flatMap.mpr ⟨part, List.mem_reverse.mpr listed, given⟩
  | member value =>
    rcases List.mem_append.mp member with key | body
    · exact absurd key watched
    · obtain ⟨key, isStatic, kind, span⟩ := value
      cases kind with
      | constructor function | method function | getter function | setter function =>
        cases List.mem_singleton.mp body
        exact ⟨depth, visited, declared⟩
      | field init =>
        obtain ⟨value, given, rfl⟩ := List.mem_map.mp body
        cases Option.mem_toList.mp given
        refine (visited ⟨.expr value, depth + 1⟩ ?_).attended_expr
        simp only [due,memberBody,if_pos (show v.isIn value.span from inside)]
        exact List.mem_cons_self
  | property value =>
    rcases List.mem_append.mp member with key | body
    · exact absurd key watched
    · cases List.mem_singleton.mp body
      exact (visited _ List.mem_cons_self).attended_expr
  | expr value => exact (visited _ List.mem_cons_self).attended_ofExpr member watched around

/-- A walk through a program looks into every node around the caret with nothing overlooked above
it. -/
theorem attended_of_watched {before text : List Char} {ls : List Lexeme} {program : Program}
    (tiling : Tiling before text ls) (tidy : Parser.Tidy ls (.program program))
    (path : Watched (.program program) n) (inside : n.span.contains v.caret) :
    Attended v (stmts 0 program.body) n := by
  induction path with
  | refl => exact ⟨0, fun _ given => .mem given, nofun⟩
  | tail path step ih =>
    have here := tidy.descendant (Watched.below path)
    have around := tiling.contains_of_child here step.1 inside
    exact (ih around).child tiling here step.1 step.2 around inside

end Task

open TreeNode

def walkAt (body : List Stmt) (caret : Position) (limits : Limits) : Walk Budget :=
  Walk.run ⟨caret, false⟩ limits.shaping (Task.stmts 0 body) { root := .empty, budget := {} }

/-- The parameters of every function around the caret are in scope and weigh at least one, unless
something above the function is overlooked or the budget runs out. -/
theorem visibleAt_parameters (source : String) (program : Program) (caret : Position)
    (limits : Limits) (function : Function) (p : Param) (h : parseText source = .ok program)
    (watched : Watched (.program program) (.function function))
    (inside : function.body.span.contains caret)
    (enough : (walkAt program.body caret limits).budget.exhausted = false)
    (given : p ∈ function.params) :
    ∃ known, (visibleAt program.body caret limits).property? p.name.name = some known ∧
      1 ≤ known.weight := by
  obtain ⟨line, rest, ls, -, -, tiling, tidy⟩ := tidy_of_parseText h
  have around : function.span.contains caret := by
    have here := tidy.descendant watched.below
    obtain ⟨name, params, body, isArrow, span⟩ := function
    cases body with
    | block braces =>
      exact tiling.contains_of_child (c := .block braces) here
        (by simp [children,ofFunctionBody]) inside
    | expr value =>
      exact tiling.contains_of_child (c := .expr value) here
        (by simp [children,ofFunctionBody]) inside
  obtain ⟨depth, -, declared⟩ :=
    Task.attended_of_watched (v := ⟨caret, false⟩) tiling tidy watched around
  have member : (p.name.name, depth + 1) ∈ Task.functionDeclared ⟨caret, false⟩ depth function := by
    rw [Task.functionDeclared,if_pos (show Viewpoint.isIn ⟨caret, false⟩ _ from inside)]
    exact List.mem_map.mpr ⟨p, given, rfl⟩
  obtain ⟨task, reached, member⟩ := declared _ member
  exact Walk.weighs_run reached member (Nat.le_add_left 1 depth) enough

/-- The method in a text like `x=[{m(){}}]`. -/
def Program.method? (program : Program) : Option Function :=
  match program.body with
  | [.expr _ (.assign _ _ (.ident ..) (.array _ [some (.object _
      [⟨.ident _, .function _ method, _, _⟩])]))] => some method
  | _ => none

theorem watched_method {program : Program} {method : Function} (found : program.method? = some method) :
    Watched (.program program) (.function method) := by
  obtain ⟨body, span⟩ := program
  simp only [Program.method?] at found
  split at found
  next =>
    cases found
    refine .head ⟨List.mem_cons_self, by simp [overlooked]⟩ ?_
    refine .head ⟨List.mem_cons_self, by simp [overlooked]⟩ ?_
    refine .head ⟨List.mem_cons_of_mem _ List.mem_cons_self, by simp [overlooked]⟩ ?_
    refine .head ⟨List.mem_cons_self, by simp [overlooked]⟩ ?_
    refine .head ⟨List.mem_cons_self, by simp [overlooked]⟩ ?_
    refine .head ⟨List.mem_cons_self, by simp [overlooked,ofKey]⟩ ?_
    exact .single ⟨List.mem_cons_self, by simp [overlooked]⟩
  next => cases found

/-- A method in an object in an array, with the caret in its body. -/
theorem visibleAt_parameters_method : ∃ program function p known,
    parseText "x=[{m(p){}}]" = .ok program ∧ Watched (.program program) (.function function) ∧
    function.body.span.contains ⟨0, 9⟩ ∧
    (walkAt program.body ⟨0, 9⟩ {}).budget.exhausted = false ∧ p ∈ function.params ∧
    (visibleAt program.body ⟨0, 9⟩ {}).property? p.name.name = some known ∧
    1 ≤ known.weight := by
  obtain ⟨program, read, enough, found⟩ : ∃ program, parseText "x=[{m(p){}}]" = .ok program ∧
      (walkAt program.body ⟨0, 9⟩ {}).budget.exhausted = false ∧
      program.method?.any (fun method => method.body.span.contains ⟨0, 9⟩ && !method.params.isEmpty) =
        true := exists_ok_of_any (by decide +kernel)
  obtain ⟨method, here, found⟩ := (Option.any_eq_true _ _).mp found
  obtain ⟨inside, nonempty⟩ := Bool.and_eq_true_iff.mp found
  obtain ⟨p, given⟩ := List.exists_mem_of_ne_nil method.params (by simpa using nonempty)
  have watched := watched_method here
  obtain ⟨known, found, heavy⟩ :=
    visibleAt_parameters _ program ⟨0, 9⟩ {} method p read watched inside enough given
  exact ⟨program, method, p, known, read, watched, inside, enough, given, found, heavy⟩

/-- The test of a loop is overlooked: the parameter of a function there is not in scope. -/
theorem parameters_hidden_in_test : ∃ program function p,
    parseText "while(p=>p);" = .ok program ∧ Below (.program program) (.function function) ∧
    function.body.span.contains ⟨0, 10⟩ ∧
    (walkAt program.body ⟨0, 10⟩ {}).budget.exhausted = false ∧ p ∈ function.params ∧
    (visibleAt program.body ⟨0, 10⟩ {}).property? p.name.name = none := by
  have lexed : lexText "while(p=>p);" = .ok (onFirstLine [(.word "while", 0, 5), (.leftParen, 5, 6),
      (.word "p", 6, 7), (.arrow, 7, 9), (.word "p", 9, 10), (.rightParen, 10, 11),
      (.semicolon, 11, 12), (.endOfInput, 12, 12)]) := by decide +kernel
  refine ⟨⟨[.whileLoop (firstLine 0 12) (.function (firstLine 6 10)
      ⟨none, [⟨⟨"p", firstLine 6 7⟩, none, false⟩], .expr (.ident (firstLine 9 10) "p"), true,
        firstLine 6 10⟩) (.empty (firstLine 11 12))], firstLine 0 12⟩,
    ⟨none, [⟨⟨"p", firstLine 6 7⟩, none, false⟩], .expr (.ident (firstLine 9 10) "p"), true,
      firstLine 6 10⟩, ⟨⟨"p", firstLine 6 7⟩, none, false⟩, by rw [parseText,lexed]; cbv, ?_,
    by decide, by decide +kernel, List.mem_cons_self, by decide +kernel⟩
  refine .head List.mem_cons_self (.head List.mem_cons_self ?_)
  exact .single List.mem_cons_self

end CodeCompletion
