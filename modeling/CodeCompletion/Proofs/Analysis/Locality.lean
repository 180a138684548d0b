import CodeCompletion.Analysis.Scope
import CodeCompletion.Proofs.Analysis.Parts
import CodeCompletion.Proofs.Parser.Nesting

/-! Locals stay where they are. `visibleAt_local` says of every name in scope at a caret that it
is introduced at a node which no function body, block, branch, loop body or case around it keeps
from the caret. -/
namespace CodeCompletion

namespace TreeNode

/-- A node at or below another one, the caret being in all regions between them. -/
def Open (caret : Position) : TreeNode → TreeNode → Prop :=
  Through fun n => n.span.contains caret

def pathHead (value : Expr) : List String := (value.path?.bind List.head?).toList

def bareName : Expr → Option String
  | .ident _ name => some name
  | _ => none

def introduces : TreeNode → List String
  | declarator value => [value.target.name]
  | stmt (.function _ value) => value.name.toList.map (·.name)
  | stmt (.classDeclaration _ value) => value.name.toList.map (·.name)
  | expr (.assign _ _ target _) => pathHead target
  | expr (.call _ callee arguments _) => pathHead callee ++ arguments.filterMap bareName
  | expr (.construct _ callee _) => pathHead callee
  | _ => []

/-- The names that a node introduces in a body of its own, with the extent of this body. -/
def introducesWithin : TreeNode → List (String × Span)
  | function value => value.params.map fun p => (p.name.name, value.body.span)
  | catchClause value => value.param.toList.map fun p => (p.name, value.body.span)
  | expr (.function _ value) => value.name.toList.map fun given => (given.name, value.body.span)
  | expr (.classValue _ value) => value.name.toList.map fun given => (given.name, value.bodySpan)
  | _ => []

def Introduces (caret : Position) (n : TreeNode) (name : String) : Prop :=
  name ∈ n.introduces ∨ ∃ span, (name, span) ∈ n.introducesWithin ∧ span.contains caret

end TreeNode

theorem Parser.Tidy.block_span {ls : List Lexeme} {span : Span} {braces : Block}
    (tidy : Tidy ls (.stmt (.block span braces))) : span = braces.span := by
  obtain ⟨-, -, -, -, genuine⟩ := tidy
  exact genuine

namespace Task

open TreeNode

variable {ls : List Lexeme} {caret : Position} {depth : Nat} {task part : Task} {name : String}

theorem contains_of_opens {v : Viewpoint} (narrow : v.everyBlock = false) {span : Span}
    (opened : v.opens span = true) : span.contains v.caret = true := by
  simpa [Viewpoint.opens,Viewpoint.isIn,narrow] using opened

/-- Whatever a walk through a program comes to is open from the program. -/
theorem Reached.open {v : Viewpoint} {program : Program} (narrow : v.everyBlock = false)
    (tidy : Parser.Tidy ls (.program program))
    (reached : Reached v (stmts 0 program.body) task) :
    Open v.caret (.program program) task.treeNode := by
  obtain ⟨first, given, way⟩ := reached
  induction way with
  | refl => exact .child (mem_stmts given) (by simp) .refl
  | tail _ member ih =>
    have path : Below (.program program) _ := Through.below ih
    refine Through.trans ih (through_parts ⟨fun _ => contains_of_opens narrow, ?_⟩ member)
    intro span braces further opened
    show braces.span.contains v.caret = true
    rw [← (tidy.descendant (path.trans further)).block_span]
    exact contains_of_opens narrow opened

/-! Each name that a task declares is introduced at a node that is open from it. -/
section Names

variable {v : Viewpoint}

def Traced (v : Viewpoint) (n : TreeNode) (name : String) : Prop :=
  ∃ m, Open v.caret n m ∧ Introduces v.caret m name

theorem Traced.child {n c : TreeNode} (member : c ∈ n.children) (free : c ∉ n.regions)
    (traced : Traced v c name) : Traced v n name := by
  obtain ⟨m, path, found⟩ := traced
  exact ⟨m, .child member free path, found⟩

theorem traced_functionDeclared {function : Function}
    (member : name ∈ (functionDeclared v depth function).map (·.1)) :
    Traced v (.function function) name := by
  rw [functionDeclared] at member
  split at member
  · have inside : function.body.span.contains v.caret := ‹_›
    refine ⟨_, .refl, Or.inr ⟨_, ?_, inside⟩⟩
    simpa [paramsDeclared,introducesWithin] using member
  · cases member

theorem traced_memberDeclared {entry : ClassMember}
    (member : name ∈ (memberDeclared v depth entry).map (·.1)) :
    Traced v (.member entry) name := by
  obtain ⟨key, isStatic, kind, span⟩ := entry
  cases kind with
  | constructor function | method function | getter function | setter function =>
    exact .child (by simp [children,ofMemberKind]) (by simp)
      (traced_functionDeclared member)
  | field init => cases member

theorem traced_classDeclared {definition : Class}
    (member : name ∈ (classDeclared v depth definition).map (·.1)) :
    Traced v (.classDef definition) name := by
  rw [classDeclared] at member
  split at member
  · simp only [List.map_flatMap,List.mem_flatMap,List.mem_reverse] at member
    obtain ⟨entry, listed, member⟩ := member
    refine .child ?_ (by simp) (traced_memberDeclared member)
    exact List.mem_append_right _ (List.mem_map_of_mem listed)
  · cases member

theorem traced_bindings {declarators : List Declarator} {n : TreeNode}
    (member : name ∈ (bindingsDeclared depth declarators).map (·.1))
    (below : ∀ d ∈ declarators, .declarator d ∈ n.children ∧ .declarator d ∉ n.regions) :
    Traced v n name := by
  simp only [bindingsDeclared,List.map_map,List.mem_map,Function.comp_apply] at member
  obtain ⟨d, listed, rfl⟩ := member
  exact .child (below d listed).1 (below d listed).2 ⟨_, .refl, Or.inl (by simp [introduces])⟩

theorem traced_name {given : Option Ident} {n : TreeNode}
    (member : name ∈ (nameDeclared depth given).map (·.1))
    (introduced : given.toList.map (·.name) ⊆ n.introduces) : Traced v n name := by
  refine ⟨n, .refl, Or.inl (introduced ?_)⟩
  simpa [nameDeclared] using member

/-- A name that is declared around the caret only. -/
theorem traced_innerName {given : Option Ident} {n : TreeNode} {span : Span}
    (member : name ∈ (if v.isIn span then nameDeclared depth given else []).map (·.1))
    (introduced : given.toList.map (fun given => (given.name, span)) ⊆ n.introducesWithin) :
    Traced v n name := by
  split at member
  · refine ⟨n, .refl, Or.inr ⟨span, introduced ?_, ‹_›⟩⟩
    simpa [nameDeclared] using member
  · cases member

theorem traced_pathDeclared {value : Expr} {n : TreeNode}
    (member : name ∈ (pathDeclared depth value).map (·.1))
    (introduced : pathHead value ⊆ n.introduces) : Traced v n name := by
  refine ⟨n, .refl, Or.inl (introduced ?_)⟩
  simpa [pathDeclared,pathHead] using member

theorem mem_argumentsDeclared {arguments : List Expr}
    (member : name ∈ (argumentsDeclared depth arguments).map (·.1)) :
    name ∈ arguments.filterMap bareName := by
  simp only [argumentsDeclared,List.mem_map,List.mem_filterMap] at member ⊢
  obtain ⟨d, ⟨argument, listed, declared⟩, rfl⟩ := member
  refine ⟨argument, listed, ?_⟩
  cases argument with
  | ident span name =>
    cases declared
    rfl
  | _ => cases declared

theorem traced_stmtDeclared (narrow : v.everyBlock = false) {value : Stmt}
    (member : name ∈ (stmtDeclared v depth value).map (·.1)) : Traced v (.stmt value) name := by
  fun_cases stmtDeclared v depth value with
  | case1 span kind declarators =>
    refine traced_bindings member fun d listed => ⟨List.mem_map_of_mem listed, ?_⟩
    simp
  | case2 span span' kind declarators test update body =>
    refine traced_bindings member fun d listed => ⟨?_, by simp⟩
    simp [children,TreeNode.ofStmt,ofLoopStart,listed]
  | case3 span span' kind declarators right body ofValues =>
    refine traced_bindings member fun d listed => ⟨?_, by simp⟩
    simp [children,TreeNode.ofStmt,ofLoopStart,listed]
  | case4 span function =>
    rw [stmtDeclared,List.map_append,List.mem_append] at member
    rcases member with member | member
    · exact traced_name member (List.Subset.refl _)
    · exact .child List.mem_cons_self (by simp) (traced_functionDeclared member)
  | case5 span definition =>
    rw [stmtDeclared,List.map_append,List.mem_append] at member
    rcases member with member | member
    · exact traced_name member (List.Subset.refl _)
    · exact .child List.mem_cons_self (by simp) (traced_classDeclared member)
  | case6 span body clause finalizer opened =>
    rw [stmtDeclared,if_pos opened] at member
    refine .child (c := .catchClause clause) (by simp [children,TreeNode.ofStmt])
      (by simp) ⟨_, .refl, Or.inr ⟨_, ?_, contains_of_opens narrow opened⟩⟩
    simpa [nameDeclared,introducesWithin] using member
  | case7 span body clause finalizer closed =>
    rw [stmtDeclared,if_neg closed] at member
    cases member
  | case8 =>
    rw [stmtDeclared] at member <;> try assumption
    cases member

theorem traced_exprDeclared {value : Expr}
    (member : name ∈ (exprDeclared v depth value).map (·.1)) : Traced v (.expr value) name := by
  fun_cases exprDeclared v depth value with
  | case1 span op target value => exact traced_pathDeclared member (List.Subset.refl _)
  | case2 span callee arguments isOptional =>
    rw [exprDeclared,callDeclared] at member
    split at member
    · rw [List.map_append,List.mem_append] at member
      rcases member with member | member
      · exact traced_pathDeclared member (List.subset_append_left _ _)
      · exact ⟨_, .refl, Or.inl (List.mem_append_right _ (mem_argumentsDeclared member))⟩
    · cases member
  | case3 span callee arguments => exact traced_pathDeclared member (List.Subset.refl _)
  | case4 span function =>
    rw [exprDeclared,List.map_append,List.mem_append] at member
    rcases member with member | member
    · exact traced_innerName member (List.Subset.refl _)
    · exact .child List.mem_cons_self (by simp) (traced_functionDeclared member)
  | case5 span definition =>
    rw [exprDeclared,List.map_append,List.mem_append] at member
    rcases member with member | member
    · exact traced_innerName member (List.Subset.refl _)
    · exact .child List.mem_cons_self (by simp) (traced_classDeclared member)
  | case6 =>
    rw [exprDeclared] at member <;> try assumption
    cases member

theorem traced_declared (narrow : v.everyBlock = false)
    (member : name ∈ (task.declared v).map (·.1)) : Traced v task.treeNode name := by
  obtain ⟨node, depth⟩ := task
  cases node with
  | stmt value => exact traced_stmtDeclared narrow member
  | expr value => exact traced_exprDeclared member

end Names

end Task

open TreeNode

/-- Every name in scope at a caret is introduced in the open: the caret is in all regions around
the node that introduces it, and where the name belongs to a body, in this body. -/
theorem visibleAt_local (source : String) (program : Program) (caret : Position) (limits : Limits)
    (name : String) (h : parseText source = .ok program)
    (member : name ∈ (visibleAt program.body caret limits).names) :
    ∃ n, Open caret (.program program) n ∧
      (name ∈ n.introduces ∨ ∃ span, (name, span) ∈ n.introducesWithin ∧ span.contains caret) := by
  obtain ⟨-, -, ls, -, -, -, tidy⟩ := tidy_of_parseText h
  rcases Walk.mem_names_run member with start | ⟨task, reached, declared⟩
  · cases start
  · obtain ⟨n, path, introduced⟩ := Task.traced_declared rfl declared
    exact ⟨n, (reached.open rfl tidy).trans path, introduced⟩

/-- A caret in the body of the second of two functions: its parameter and what is assigned in it
are in scope, those of the first one are not. -/
theorem visibleAt_local_arrow : ∃ program, parseText "a=>b=c;p=>{q=p}" = .ok program ∧
    (visibleAt program.body ⟨0, 12⟩ {}).names = ["p", "q"] ∧
    ∃ n, Open ⟨0, 12⟩ (.program program) n ∧ ("q" ∈ n.introduces ∨
      ∃ span, ("q", span) ∈ n.introducesWithin ∧ span.contains ⟨0, 12⟩) := by
  obtain ⟨program, read, names⟩ : ∃ program, parseText "a=>b=c;p=>{q=p}" = .ok program ∧
      (visibleAt program.body ⟨0, 12⟩ {}).names = ["p", "q"] := exists_ok_of_any (by decide +kernel)
  exact ⟨program, read, names, visibleAt_local _ _ ⟨0, 12⟩ {} "q" read (by simp [names])⟩

end CodeCompletion
