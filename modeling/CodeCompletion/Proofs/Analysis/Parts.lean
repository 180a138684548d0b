import CodeCompletion.Proofs.Analysis.Visit

/-! Where a walk goes. The parts of a task are at nodes below the node of the task, and every
function body, block, branch, loop body and case that a walk goes into on the way there is one
that its viewpoint opens. -/
namespace CodeCompletion

namespace TreeNode

/-- Those of the nodes right below that keep their declarations to themselves: the bodies of
functions and loops, branches, cases and blocks. -/
@[simp] def regions : TreeNode → List TreeNode
  | stmt (.ifElse _ _ consequent alternate) => stmt consequent :: stmts alternate.toList
  | stmt (.block _ braces) => [block braces]
  | stmt (.tryCatch _ body _ finalizer) => block body :: finalizer.toList.map block
  | stmt (.forLoop _ _ _ _ body) | stmt (.forEach _ _ _ body _) | stmt (.whileLoop _ _ body)
  | stmt (.doWhile _ body _) => [stmt body]
  | stmt (.switch _ _ cases) => cases.map switchCase
  | catchClause value => [block value.body]
  | function value => ofFunctionBody value.body
  | _ => []

def Through (lets : TreeNode → Prop) : TreeNode → TreeNode → Prop :=
  Relation.ReflTransGen fun n c => c ∈ n.children ∧ (c ∈ n.regions → lets c)

namespace Through

variable {lets : TreeNode → Prop} {n c m k : TreeNode}

theorem below (path : Through lets n m) : Below n m :=
  Relation.ReflTransGen.mono (fun _ _ step => step.1) _ _ path

theorem trans (first : Through lets n m) (second : Through lets m k) : Through lets n k :=
  Relation.ReflTransGen.trans first second

/-- A child that is no region is always let through. -/
theorem child (member : c ∈ n.children) (free : c ∉ n.regions) (path : Through lets c m) :
    Through lets n m :=
  .head ⟨member, fun region => absurd region free⟩ path

theorem region (member : c ∈ n.children) (entered : lets c) (path : Through lets c m) :
    Through lets n m :=
  .head ⟨member, fun _ => entered⟩ path

end Through

/-- What a viewpoint opens is let through. A statement in braces is opened by its own extent, and
the braces with it. -/
structure Lets (v : Viewpoint) (lets : TreeNode → Prop) (n : TreeNode) : Prop where
  opened : ∀ c, v.opens c.span = true → lets c
  braces : ∀ span braces, Below n (.stmt (.block span braces)) → v.opens span = true →
    lets (.block braces)

theorem Lets.child {v : Viewpoint} {lets : TreeNode → Prop} {n c : TreeNode}
    (entered : Lets v lets n) (member : c ∈ n.children) : Lets v lets c :=
  ⟨entered.opened, fun span braces path => entered.braces span braces (.head member path)⟩

end TreeNode

namespace Task

open TreeNode

variable {depth : Nat} {task part : Task}

theorem mem_stmts {body : List Stmt} (member : part ∈ stmts depth body) :
    part.treeNode ∈ TreeNode.stmts body := by
  obtain ⟨value, given, rfl⟩ := List.mem_map.mp member
  exact List.mem_map.mpr ⟨value, given, rfl⟩

theorem mem_exprs {values : List Expr} (member : part ∈ exprs depth values) :
    part.treeNode ∈ TreeNode.exprs values := by
  obtain ⟨value, given, rfl⟩ := List.mem_map.mp member
  exact List.mem_map.mpr ⟨value, given, rfl⟩

/-! Each part of a task is at a node that is reached from the node of the task through regions that
are let through. -/
section Parts

variable {v : Viewpoint} {lets : TreeNode → Prop}

theorem opens_of_isIn {span : Span} (inside : v.isIn span = true) : v.opens span = true := by
  simp [Viewpoint.opens,inside]

theorem through_block {braces : Block} (member : part ∈ block v depth braces) :
    v.opens braces.span = true ∧ Through lets (.block braces) part.treeNode := by
  rw [block] at member
  split at member
  · exact ⟨‹_›, .child (mem_stmts member) (by simp) .refl⟩
  · cases member

theorem through_branch {body : Stmt} (entered : Lets v lets (.stmt body))
    (member : part ∈ branch v depth body) :
    v.opens body.span = true ∧ Through lets (.stmt body) part.treeNode := by
  unfold branch at member
  split at member
  · have opened : v.opens body.span = true := ‹_›
    refine ⟨opened, ?_⟩
    split at member
    · -- the braces are entered without a visit to the statement they make up
      refine .region (c := .block _) List.mem_cons_self (entered.braces _ _ .refl opened) ?_
      exact .child (mem_stmts member) (by simp) .refl
    · cases List.mem_singleton.mp member
      exact .refl
  · cases member

theorem through_functionBody {function : Function} (entered : ∀ c, v.opens c.span = true → lets c)
    (member : part ∈ functionBody v depth function) :
    Through lets (.function function) part.treeNode := by
  obtain ⟨name, params, body, isArrow, span⟩ := function
  rw [functionBody] at member
  split at member
  · have opened : v.opens body.span = true := opens_of_isIn ‹_›
    cases body with
    | block braces =>
      refine .region (c := .block braces) (by simp [children,ofFunctionBody]) (entered _ opened) ?_
      exact .child (mem_stmts member) (by simp) .refl
    | expr value =>
      cases List.mem_singleton.mp member
      exact .region (c := .expr value) (by simp [children,ofFunctionBody]) (entered _ opened) .refl
  · cases member

theorem through_memberBody {entry : ClassMember} (entered : ∀ c, v.opens c.span = true → lets c)
    (member : part ∈ memberBody v depth entry) : Through lets (.member entry) part.treeNode := by
  obtain ⟨key, isStatic, kind, span⟩ := entry
  cases kind with
  | constructor function | method function | getter function | setter function =>
    refine .child ?_ (by simp) (through_functionBody entered member)
    simp [children,ofMemberKind]
  | field init =>
    cases init with
    | none => cases member
    | some init =>
      simp only [memberBody] at member
      split at member
      · cases List.mem_singleton.mp member
        exact .child (by simp [children,ofMemberKind,exprs?,TreeNode.exprs,treeNode])
          (by simp) .refl
      · cases member

theorem through_classBody {definition : Class} (entered : ∀ c, v.opens c.span = true → lets c)
    (member : part ∈ classBody v depth definition) :
    Through lets (.classDef definition) part.treeNode := by
  rw [classBody] at member
  split at member
  · obtain ⟨entry, listed, member⟩ := List.mem_flatMap.mp member
    refine .child ?_ (by simp) (through_memberBody entered member)
    exact List.mem_append_right _ (List.mem_map_of_mem listed)
  · cases member

theorem through_inits {declarators : List Declarator} (member : part ∈ inits depth declarators) :
    ∃ d ∈ declarators, Through lets (.declarator d) part.treeNode := by
  obtain ⟨value, given, rfl⟩ := List.mem_map.mp member
  obtain ⟨d, listed, init⟩ := List.mem_filterMap.mp given
  refine ⟨d, listed, .child ?_ (by simp) .refl⟩
  simp [children,exprs?,TreeNode.exprs,init,treeNode]

theorem through_ofStmt {value : Stmt} (entered : Lets v lets (.stmt value))
    (member : part ∈ ofStmt v depth value) : Through lets (.stmt value) part.treeNode := by
  have branch {body : Stmt} (child : .stmt body ∈ (TreeNode.stmt value).children)
      (member : part ∈ branch v depth body) : Through lets (.stmt value) part.treeNode := by
    obtain ⟨opened, path⟩ := through_branch (entered.child child) member
    exact .region child (entered.opened _ opened) path
  have block {braces : Block} (child : .block braces ∈ (TreeNode.stmt value).children)
      (member : part ∈ block v depth braces) : Through lets (.stmt value) part.treeNode := by
    obtain ⟨opened, path⟩ := through_block member
    exact .region child (entered.opened _ opened) path
  cases value with
  | declare span kind declarators =>
    obtain ⟨d, listed, path⟩ := through_inits member
    exact .child (List.mem_map_of_mem listed) (by simp) path
  | function span function =>
    exact .child List.mem_cons_self (by simp) (through_functionBody entered.opened member)
  | classDeclaration span definition =>
    exact .child List.mem_cons_self (by simp) (through_classBody entered.opened member)
  | returns span value =>
    cases value with
    | none => cases member
    | some value => exact .child (mem_exprs member) (by simp) .refl
  | throws span value | expr span value =>
    exact .child (mem_exprs member) (by simp) .refl
  | ifElse span test consequent alternate =>
    simp only [ofStmt,List.mem_append] at member
    rcases member with (member | member) | member
    · refine .child (List.mem_cons.mpr (Or.inl ?_)) ?_ .refl
      · exact List.mem_singleton.mp (mem_exprs member)
      · cases List.mem_singleton.mp member
        simp [treeNode,TreeNode.stmts]
    · exact branch (by simp [children,TreeNode.ofStmt]) member
    · cases alternate with
      | none => cases member
      | some alternate => exact branch (by simp [children,TreeNode.ofStmt,TreeNode.stmts]) member
  | block span braces => exact block List.mem_cons_self member
  | tryCatch span body handler finalizer =>
    simp only [ofStmt,List.mem_append] at member
    rcases member with (member | member) | member
    · exact block List.mem_cons_self member
    · cases handler with
      | none => cases member
      | some clause =>
        obtain ⟨opened, path⟩ := through_block member
        exact .child (c := .catchClause clause) (by simp [children,TreeNode.ofStmt])
          (by simp) (.region List.mem_cons_self (entered.opened _ opened) path)
    · cases finalizer with
      | none => cases member
      | some finalizer => exact block (by simp [children,TreeNode.ofStmt]) member
  | forLoop span init test update body =>
    simp only [ofStmt,List.mem_append] at member
    rcases member with member | member
    · split at member
      · obtain ⟨d, listed, path⟩ := through_inits member
        exact .child (by simp [children,TreeNode.ofStmt,ofLoopStart,listed]) (by simp) path
      · cases List.mem_singleton.mp member
        exact .child (by simp [children,TreeNode.ofStmt,ofLoopStart,treeNode])
          (by simp [treeNode]) .refl
      · cases member
    · exact branch (by simp [children,TreeNode.ofStmt]) member
  | forEach span left right body ofValues => exact branch (by simp [children,TreeNode.ofStmt]) member
  | whileLoop span test body => exact branch (by simp [children,TreeNode.ofStmt]) member
  | doWhile span body test => exact branch (by simp [children,TreeNode.ofStmt]) member
  | switch span discriminant cases =>
    obtain ⟨clause, listed, member⟩ := List.mem_flatMap.mp member
    split at member
    · refine .region (c := .switchCase clause) (by simp [children,TreeNode.ofStmt,listed])
        (entered.opened _ ‹_›) ?_
      exact .child (List.mem_append_right _ (mem_stmts member)) (by simp) .refl
    · cases member
  | labeled span label body => exact .child (mem_stmts member) (by simp) .refl
  | breaks | continues | empty | debugger => cases member

theorem through_ofExpr {value : Expr} (entered : ∀ c, v.opens c.span = true → lets c)
    (member : part ∈ ofExpr v depth value) : Through lets (.expr value) part.treeNode := by
  have operand {values : List Expr} (below : TreeNode.exprs values ⊆ (TreeNode.expr value).children)
      (member : part ∈ exprs depth values) : Through lets (.expr value) part.treeNode :=
    .child (below (mem_exprs member)) (by simp) .refl
  cases value with
  | assign span op target value => exact operand (List.subset_cons_self _ _) member
  | call span callee arguments isOptional =>
    refine operand ?_ member
    apply List.cons_subset_cons
    split
    · exact List.Subset.refl _
    · exact List.nil_subset _
  | construct span callee arguments =>
    refine operand ?_ member
    apply List.subset_cons_of_subset
    split
    · exact List.Subset.refl _
    · exact List.nil_subset _
  | function span function =>
    exact .child List.mem_cons_self (by simp) (through_functionBody entered member)
  | classValue span definition =>
    exact .child List.mem_cons_self (by simp) (through_classBody entered member)
  | object span properties =>
    obtain ⟨value, given, rfl⟩ := List.mem_map.mp member
    split at given
    · obtain ⟨property, listed, rfl⟩ := List.mem_map.mp given
      refine .child (c := .property property) (List.mem_map_of_mem listed) (by simp) ?_
      exact .child (by simp [children,treeNode]) (by simp) .refl
    · cases given
  | array span elements =>
    refine operand ?_ member
    split
    · exact List.Subset.refl _
    · exact List.nil_subset _
  | member span base name isOptional =>
    refine operand ?_ member
    exact List.cons_subset_cons _ (List.nil_subset _)
  | sequence | conditional | binary | unary | spread =>
    exact operand (List.Subset.refl _) member
  | ident | thisRef | superRef | literal | update => cases member

theorem through_parts (entered : Lets v lets task.treeNode) (member : part ∈ task.parts v) :
    Through lets task.treeNode part.treeNode := by
  obtain ⟨node, depth⟩ := task
  cases node with
  | stmt value => exact through_ofStmt entered member
  | expr value => exact through_ofExpr entered.opened member

end Parts

/-- A walk only goes down. -/
theorem Reached.below {v : Viewpoint} {tasks : List Task} (reached : Reached v tasks task) :
    ∃ first ∈ tasks, Below first.treeNode task.treeNode := by
  obtain ⟨first, given, way⟩ := reached
  refine ⟨first, given, ?_⟩
  induction way with
  | refl => exact .refl
  | @tail task part _ member ih =>
    have entered : Lets v (fun _ => True) task.treeNode :=
      ⟨fun _ _ => trivial, fun _ _ _ _ => trivial⟩
    exact ih.trans (through_parts entered member).below

end Task

end CodeCompletion
