import CodeCompletion.Analysis.Walk
import CodeCompletion.Proofs.Analysis.Account
import CodeCompletion.Proofs.Program.Spelling
import CodeCompletion.Proofs.Shape.Declaration

/-! What a walk comes to and what it declares there. `Reached` says which tasks there are, from
the parts of tasks alone; `declared` lists the names that a task declares in the root, with
their weights. A walk declares nothing but what is declared by tasks that it reaches, and all
of that unless its budget runs out. -/
namespace CodeCompletion

variable {v : Viewpoint} {shaping : Shaping Budget} {tasks : List Task} {task : Task}

namespace Task

def treeNode (task : Task) : TreeNode :=
  match task.node with
  | .stmt value => .stmt value
  | .expr value => .expr value

/-- The task is one of the given ones, or comes up when these are visited. -/
def Reached (v : Viewpoint) (tasks : List Task) (task : Task) : Prop :=
  ∃ first ∈ tasks, Relation.ReflTransGen (fun t part => part ∈ t.parts v) first task

theorem Reached.mem (member : task ∈ tasks) : Reached v tasks task := ⟨task, member, .refl⟩

theorem Reached.part {part : Task} (reached : Reached v tasks task) (member : part ∈ task.parts v) :
    Reached v tasks part := by
  obtain ⟨first, given, way⟩ := reached
  exact ⟨first, given, way.tail member⟩

/-- Visiting a task leads to what visiting its parts and the other tasks leads to. -/
theorem reached_cons {head : Task} {rest : List Task} :
    Reached v (head :: rest) task ↔ task = head ∨ Reached v (head.parts v ++ rest) task := by
  constructor
  · rintro ⟨first, given, way⟩
    rcases List.mem_cons.mp given with rfl | later
    · cases way.cases_head with
      | inl same => exact Or.inl same.symm
      | inr step =>
        obtain ⟨part, member, way⟩ := step
        exact Or.inr ⟨part, List.mem_append_left _ member, way⟩
    · exact Or.inr ⟨first, List.mem_append_right _ later, way⟩
  · rintro (rfl | ⟨first, given, way⟩)
    · exact .mem List.mem_cons_self
    · rcases List.mem_append.mp given with part | later
      · exact ⟨head, List.mem_cons_self, .head part way⟩
      · exact ⟨first, List.mem_cons_of_mem _ later, way⟩

end Task

namespace Walk

/-- What the notes of all reached tasks keep, a run keeps. -/
theorem run_keeps {P : Shape → Prop} {w : Walk Budget}
    (keeps : ∀ t w, Task.Reached v tasks t → P w.root → P (note v shaping t w).root)
    (start : P w.root) : P (run v shaping tasks w).root := by
  fun_induction run v shaping tasks w with
  | case1 w => exact start
  | case2 w task rest budget stopped => exact start
  | case3 w task rest budget visited ih =>
    refine ih (fun t w reached => keeps t w (Task.reached_cons.mpr (Or.inr reached))) ?_
    exact keeps task _ (Task.reached_cons.mpr (Or.inl rfl)) start

/-- What the note of a reached task brings about and all notes keep holds after a run, unless
the budget runs out. The note may rely on what all notes before it have kept. -/
theorem run_brings {K P : Shape → Prop} {w : Walk Budget} (start : K w.root)
    (lasts : ∀ t w, K w.root → K (note v shaping t w).root) (reached : Task.Reached v tasks task)
    (brings : ∀ w, K w.root → P (note v shaping task w).root)
    (keeps : ∀ t w, P w.root → P (note v shaping t w).root)
    (enough : (run v shaping tasks w).budget.exhausted = false) :
    P (run v shaping tasks w).root := by
  fun_induction run v shaping tasks w with
  | case1 w =>
    obtain ⟨first, given, -⟩ := reached
    cases given
  | case2 w head rest budget stopped =>
    cases (Budget.exhausted_of_visit stopped).symm.trans enough
  | case3 w head rest budget visited ih =>
    rcases Task.reached_cons.mp reached with rfl | later
    · exact run_keeps (fun t w _ => keeps t w) (brings _ start)
    · exact ih (lasts head _ start) later enough

end Walk

namespace Task

def paramsDeclared (weight : Nat) (params : List Param) : List Declaration :=
  params.map fun p => (p.name.name, weight)

def nameDeclared (weight : Nat) (name : Option Ident) : List Declaration :=
  name.toList.map fun given => (given.name, weight)

/-- Only the first name of a path is declared in the root. -/
def pathDeclared (weight : Nat) (value : Expr) : List Declaration :=
  (value.path?.bind List.head?).toList.map fun name => (name, weight)

def bindingsDeclared (weight : Nat) (declarators : List Declarator) : List Declaration :=
  declarators.map fun d => (d.target.name, weight)

def argumentsDeclared (weight : Nat) (arguments : List Expr) : List Declaration :=
  arguments.filterMap fun
    | .ident _ name => some (name, weight)
    | _ => none

def callDeclared (weight : Nat) (callee : Expr) (arguments : List Expr) : List Declaration :=
  if callee.path?.isSome then pathDeclared weight callee ++ argumentsDeclared weight arguments
  else []

def functionDeclared (v : Viewpoint) (depth : Nat) (function : Function) : List Declaration :=
  if v.isIn function.body.span then paramsDeclared (depth + 1) function.params else []

def memberDeclared (v : Viewpoint) (depth : Nat) (member : ClassMember) : List Declaration :=
  match member.kind with
  | .constructor function | .method function | .getter function | .setter function =>
    functionDeclared v depth function
  | .field _ => []

def classDeclared (v : Viewpoint) (depth : Nat) (definition : Class) : List Declaration :=
  if v.isIn definition.bodySpan then definition.members.reverse.flatMap (memberDeclared v depth)
  else []

def stmtDeclared (v : Viewpoint) (depth : Nat) : Stmt → List Declaration
  | .declare _ _ declarators | .forLoop _ (some (.bindings _ _ declarators)) _ _ _
  | .forEach _ (.bindings _ _ declarators) _ _ _ => bindingsDeclared depth declarators
  | .function _ function => nameDeclared depth function.name ++ functionDeclared v depth function
  | .classDeclaration _ definition =>
    nameDeclared depth definition.name ++ classDeclared v depth definition
  | .tryCatch _ _ (some clause) _ =>
    if v.opens clause.body.span then nameDeclared (depth + 1) clause.param else []
  | _ => []

def exprDeclared (v : Viewpoint) (depth : Nat) : Expr → List Declaration
  | .assign _ _ target _ => pathDeclared depth target
  | .call _ callee arguments _ => callDeclared depth callee arguments
  | .construct _ callee _ => pathDeclared depth callee
  | .function _ function =>
    (if v.isIn function.body.span then nameDeclared (depth + 1) function.name else []) ++
      functionDeclared v depth function
  | .classValue _ definition =>
    (if v.isIn definition.bodySpan then nameDeclared (depth + 1) definition.name else []) ++
      classDeclared v depth definition
  | _ => []

def declared (v : Viewpoint) (task : Task) : List Declaration :=
  match task.node with
  | .stmt value => stmtDeclared v task.depth value
  | .expr value => exprDeclared v task.depth value

end Task

/-- A path of names is not empty. -/
theorem Expr.path?_eq_cons {value : Expr} {path : List String} (h : value.path? = some path) :
    ∃ first rest, path = first :: rest := by
  rw [Expr.path?.eq_def] at h
  split at h
  · exact ⟨_, _, (Option.some.inj h).symm⟩
  · exact ⟨_, _, (Option.some.inj h).symm⟩
  · obtain ⟨before, -, rfl⟩ := Option.map_eq_some_iff.mp h
    exact List.exists_cons_of_ne_nil (by simp)
  · cases h

open TreeNode

def Gives {α : Type} (P : α → Prop) (find : StateM Budget α) : Prop :=
  ∀ budget, P (find budget).1

/-- The shapes that a walk takes in are of a kind `I`, as far as the names in the tree are of a
kind `Q`. -/
structure Shaping.Sound (shaping : Shaping Budget) (Q : String → Prop) (I : Shape → Prop) : Prop where
  function {value : Function} : Named Q (.function value) → Gives I (shaping.function value)
  classDef {value : Class} : Named Q (.classDef value) → Gives I (shapeOfClass shaping value)
  value {weight : Nat} {value : Expr} :
    Named Q (.expr value) → Gives I (shapeOfValue shaping weight 0 value)

theorem Shaping.sound_trivial (shaping : Shaping Budget) {Q : String → Prop} :
    shaping.Sound Q (fun _ => True) :=
  ⟨fun _ _ => trivial, fun _ _ => trivial, fun _ _ => trivial⟩

namespace Walk

open Shape CodeCompletion.Task

variable {α : Type} {Q : String → Prop} {C : Change} {I : Shape → Prop} {w : Walk Budget}
  {weight depth : Nat}

/-- Going through a list, each item of which makes some declarations. -/
theorem declares_foldl {visit : Walk Budget → α → Walk Budget} {ds : α → List Declaration} {items : List α}
    (each : ∀ w, ∀ item ∈ items, Declares Q C (ds item) w.root (visit w item).root) (w : Walk Budget) :
    Declares Q C (items.flatMap ds) w.root (items.foldl visit w).root := by
  induction items generalizing w with
  | nil => exact .nil
  | cons item rest ih =>
    refine (each w item List.mem_cons_self).append (ih (fun w item member => ?_) (visit w item))
    exact each w item (List.mem_cons_of_mem _ member)

theorem declares_foldl_single {visit : Walk Budget → α → Walk Budget} {d : α → Declaration} {items : List α}
    (each : ∀ w, ∀ item ∈ items, Declares Q C [d item] w.root (visit w item).root) (w : Walk Budget) :
    Declares Q C (items.map d) w.root (items.foldl visit w).root := by
  rw [List.map_eq_flatMap]
  exact declares_foldl each w

section Notes

variable (allows : Allows Q C I) (sound : shaping.Sound Q I) (self : Q "this")

include allows

theorem declares_declareParams {params : List Param} (named : ∀ p ∈ params, Q p.name.name)
    (w : Walk Budget) :
    Declares Q C (paramsDeclared weight params) w.root (w.declareParams params weight).root :=
  declares_foldl_single (fun _ p member => .typed allows (named p member)) w

theorem declares_openFunction {function : Function} (named : Named Q (.function function))
    (w : Walk Budget) : Declares Q C (functionDeclared v depth function) w.root
      (openFunction v w function depth).root := by
  rw [functionDeclared,openFunction]
  split
  · exact declares_declareParams allows named.function.2 w
  · exact .nil

theorem declares_openMember {entry : ClassMember} (named : Named Q (.member entry)) (w : Walk Budget) :
    Declares Q C (memberDeclared v depth entry) w.root (openMember v depth entry w).root := by
  obtain ⟨key, isStatic, kind, span⟩ := entry
  cases kind with
  | constructor function | method function | getter function | setter function =>
    have value : Named Q (.function function) := named.child (by simp [children,ofMemberKind])
    exact declares_openFunction allows value w
  | field init => exact .nil

theorem declares_openClass {definition : Class} (named : Named Q (.classDef definition))
    (w : Walk Budget) : Declares Q C (classDeclared v depth definition) w.root
      (openClass v w definition depth).root := by
  rw [classDeclared,openClass]
  split
  · rw [List.foldr_eq_foldl_reverse]
    refine declares_foldl (fun w entry member => ?_) w
    refine declares_openMember allows (named.child (List.mem_append_right _ ?_)) w
    exact List.mem_map_of_mem (List.mem_reverse.mp member)
  · exact .nil

theorem declares_declareFunction {path : List String} {callee : Expr} (self : Q "this")
    (named : Named Q (.expr callee)) (spelled : callee.path? = some path) (w : Walk Budget) :
    Declares Q C (pathDeclared weight callee) w.root (w.declareFunction path weight).root := by
  obtain ⟨first, rest, rfl⟩ := Expr.path?_eq_cons spelled
  rw [pathDeclared,spelled]
  exact .path allows (allows.typed _) (named.path self spelled)

theorem declares_declareArguments {origin : String} {arguments : List Expr}
    (named : ∀ value ∈ arguments, Named Q (.expr value)) (position : Nat) (w : Walk Budget) :
    Declares Q C (argumentsDeclared weight arguments) w.root
      (declareArguments origin weight position arguments w).root := by
  induction arguments generalizing position w with
  | nil => exact .nil
  | cons argument rest ih =>
    obtain ⟨first, others⟩ := List.forall_mem_cons.mp named
    cases argument with
    | ident span name =>
      exact (Declares.typed allows (first.here List.mem_cons_self)).append
        (ih others (position + 1)
          (w.declare name (some ⟨origin, Facet.ofParameter position⟩) weight))
    | _ => exact ih others (position + 1) w

theorem declares_noteCall {callee : Expr} {arguments : List Expr} (self : Q "this")
    (named : Named Q (.expr callee)) (passed : ∀ value ∈ arguments, Named Q (.expr value))
    (w : Walk Budget) : Declares Q C (callDeclared weight callee arguments) w.root
      (w.noteCall callee arguments weight).root := by
  rw [callDeclared,noteCall]
  cases spelled : callee.path? with
  | none => exact .nil
  | some path =>
    exact (declares_declareFunction allows self named spelled w).append
      (declares_declareArguments allows passed 0 (w.declareFunction path weight))

theorem declares_noteConstruction {callee : Expr} (self : Q "this")
    (named : Named Q (.expr callee)) (w : Walk Budget) :
    Declares Q C (pathDeclared weight callee) w.root (w.noteConstruction callee weight).root := by
  rw [noteConstruction]
  cases spelled : callee.path? with
  | none =>
    rw [pathDeclared,spelled]
    exact .nil
  | some path => exact declares_declareFunction allows self named spelled w

include sound

theorem declares_declareValue {target value : Expr} (self : Q "this")
    (place : Named Q (.expr target)) (named : Named Q (.expr value)) (w : Walk Budget) :
    Declares Q C (pathDeclared weight target) w.root
      (target.path?.elim w fun path => declareValue shaping w path value weight).root := by
  rw [pathDeclared]
  cases spelled : target.path? with
  | none => exact .nil
  | some path =>
    obtain ⟨first, rest, rfl⟩ := Expr.path?_eq_cons spelled
    exact .path allows (allows.merged (sound.value named w.budget)) (place.path self spelled)

theorem declares_declareBindings {declarators : List Declarator}
    (named : ∀ d ∈ declarators, Named Q (.declarator d)) (w : Walk Budget) :
    Declares Q C (bindingsDeclared weight declarators) w.root
      (declareBindings shaping w declarators weight).root := by
  refine declares_foldl_single (fun w d member => ?_) w
  have here := named d member
  cases given : d.init with
  | none => exact .typed allows (here.here List.mem_cons_self)
  | some init =>
    have value : Named Q (.expr init) := here.child (by simp [children,exprs?,TreeNode.exprs,given])
    exact .single (here.here List.mem_cons_self) (allows.merged (sound.value value w.budget))

omit sound in
/-- The shape that a name is declared with is found first, if there is a name. -/
theorem declares_name {find : StateM Budget Shape} (found : Gives I find)
    {name : Option Ident} (named : ∀ given ∈ name, Q given.name) (w : Walk Budget) :
    Declares Q C (nameDeclared weight name) w.root
      (name.elim w fun name => w.declareShaped name.name weight find).root := by
  cases name with
  | none => exact .nil
  | some name => exact .single (named name rfl) (allows.merged (found w.budget))

omit sound in
/-- The name of a function or class expression is declared inside it only. -/
theorem declares_innerName {find : StateM Budget Shape} (found : Gives I find)
    {name : Option Ident} (named : ∀ given ∈ name, Q given.name) (inside : Bool) (w : Walk Budget) :
    Declares Q C (if inside then nameDeclared weight name else []) w.root
      (if inside then name.elim w fun name => w.declareShaped name.name weight find else w).root := by
  cases inside with
  | false => exact .nil
  | true => exact declares_name allows found named w

theorem declares_noteStmt {value : Stmt} (named : Named Q (.stmt value)) (w : Walk Budget) :
    Declares Q C (stmtDeclared v depth value) w.root (noteStmt v shaping depth w value).root := by
  fun_cases noteStmt v shaping depth w value with
  | case1 span kind declarators =>
    refine declares_declareBindings allows sound (fun d member => named.child ?_) w
    exact List.mem_map_of_mem member
  | case2 span span' kind declarators test update body =>
    refine declares_declareBindings allows sound (fun d member => named.child ?_) w
    simp [children,TreeNode.ofStmt,ofLoopStart,member]
  | case3 span function =>
    have value : Named Q (.function function) := named.child List.mem_cons_self
    exact (declares_name allows (sound.function value) value.function.1 w).append
      (declares_openFunction allows value _)
  | case4 span definition =>
    have value : Named Q (.classDef definition) := named.child List.mem_cons_self
    exact (declares_name allows (sound.classDef value) value.classDef w).append
      (declares_openClass allows value _)
  | case5 span body clause finalizer opened =>
    have handler : Named Q (.catchClause clause) := named.child (by simp [children,TreeNode.ofStmt])
    rw [stmtDeclared,if_pos opened]
    cases given : clause.param with
    | none => exact .nil
    | some param => exact .typed allows (handler.here (by simp [spelled,given]))
  | case6 span body clause finalizer closed =>
    rw [stmtDeclared,if_neg closed]
    exact .nil
  | case7 span span' kind declarators =>
    refine declares_foldl_single (fun w d member => .typed allows ?_) w
    refine (named.child (c := .declarator d) ?_).here List.mem_cons_self
    simp [children,TreeNode.ofStmt,ofLoopStart,member]
  | case8 =>
    rw [stmtDeclared] <;> try assumption
    exact .nil

theorem declares_noteExpr (self : Q "this") {value : Expr} (named : Named Q (.expr value))
    (w : Walk Budget) :
    Declares Q C (exprDeclared v depth value) w.root (noteExpr v shaping depth w value).root := by
  fun_cases noteExpr v shaping depth w value with
  | case1 span op target value =>
    exact declares_declareValue allows sound self (named.child List.mem_cons_self)
      (named.child (List.mem_cons_of_mem _ List.mem_cons_self)) w
  | case2 span callee arguments =>
    refine declares_noteCall allows self (named.child List.mem_cons_self) (fun value member => ?_) w
    exact named.child (List.mem_cons_of_mem _ (List.mem_map_of_mem member))
  | case3 span callee =>
    exact declares_noteConstruction allows self (named.child List.mem_cons_self) w
  | case4 span function =>
    have value : Named Q (.function function) := named.child List.mem_cons_self
    exact (declares_innerName allows (sound.function value) value.function.1 _ w).append
      (declares_openFunction allows value _)
  | case5 span definition =>
    have value : Named Q (.classDef definition) := named.child List.mem_cons_self
    exact (declares_innerName allows (sound.classDef value) value.classDef _ w).append
      (declares_openClass allows value _)
  | case6 =>
    rw [exprDeclared] <;> try assumption
    exact .nil

/-- A visit declares what the task has to declare, and nothing else. -/
theorem note_declares (self : Q "this") {task : Task} (named : Named Q task.treeNode) (w : Walk Budget) :
    Declares Q C (task.declared v) w.root (note v shaping task w).root := by
  obtain ⟨node, depth⟩ := task
  cases node with
  | stmt value => exact declares_noteStmt allows sound named w
  | expr value => exact declares_noteExpr allows sound self named w

end Notes

theorem note_declares_grows (task : Task) (w : Walk Budget) :
    Declares (fun _ => True) Grows (task.declared v) w.root (note v shaping task w).root :=
  note_declares allows_grows shaping.sound_trivial trivial (.trivial task.treeNode) w

/-- Every name that a run adds to the root is declared by a task it comes to. -/
theorem mem_names_run {name : String}
    (member : name ∈ (run v shaping tasks w).root.names) :
    name ∈ w.root.names ∨ ∃ t, Reached v tasks t ∧ name ∈ (t.declared v).map (·.1) := by
  refine run_keeps (w := w) (P := fun root => name ∈ root.names → name ∈ w.root.names ∨
    ∃ t, Reached v tasks t ∧ name ∈ (t.declared v).map (·.1)) ?_ Or.inl member
  intro t w' reached before member
  rcases (note_declares_grows t w').mem_names member with earlier | here
  · exact before earlier
  · exact Or.inr ⟨t, reached, here⟩

/-- What a task in reach declares at a positive depth is in the root in the end and weighs
something there, unless the budget runs out. -/
theorem weighs_run {name : String} (reached : Reached v tasks task)
    (member : (name, weight) ∈ task.declared v) (positive : 1 ≤ weight)
    (enough : (run v shaping tasks w).budget.exhausted = false) :
    (run v shaping tasks w).root.Weighs name :=
  run_brings (K := fun _ => True) (P := (·.Weighs name)) trivial (fun _ _ _ => trivial) reached
    (fun w _ => (note_declares_grows task w).weighs_of_mem member positive)
    (fun t w weighs => (note_declares_grows t w).weighs_of_weighs weighs) enough

/-- What is known before the run and declared again weighs something in the end. -/
theorem weighs_run_again {name : String} (known : name ∈ w.root.names) (reached : Reached v tasks task)
    (member : name ∈ (task.declared v).map (·.1))
    (enough : (run v shaping tasks w).budget.exhausted = false) :
    (run v shaping tasks w).root.Weighs name :=
  run_brings (K := (name ∈ ·.names)) (P := (·.Weighs name)) known
    (fun t w known => (note_declares_grows t w).keeps_name known) reached
    (fun w known => (note_declares_grows task w).weighs_again known member)
    (fun t w weighs => (note_declares_grows t w).weighs_of_weighs weighs) enough

/-- What no task in reach declares stays as it is. -/
theorem property?_run {name : String}
    (undeclared : ∀ t, Reached v tasks t → name ∉ (t.declared v).map (·.1)) :
    (run v shaping tasks w).root.property? name = w.root.property? name :=
  run_keeps (w := w) (P := (·.property? name = w.root.property? name)) (fun t w' reached before =>
    ((note_declares_grows t w').property?_eq (undeclared t reached)).trans before) rfl

end Walk

end CodeCompletion
