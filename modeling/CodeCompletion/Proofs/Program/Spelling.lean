import CodeCompletion.Proofs.Program.TreeNode

/-! The names that a syntax tree is written with. What holds of all of them holds of the names
along every path in the tree. -/
namespace CodeCompletion.TreeNode

variable {Q : String → Prop} {n m c : TreeNode} {name : String}

/-- The names in a node itself. Those in computed keys are in the nodes below. -/
def spelled : TreeNode → List String
  | declarator value => [value.target.name]
  | catchClause value => value.param.toList.map (·.name)
  | function value => value.name.toList.map (·.name) ++ value.params.map (·.name.name)
  | classDef value => value.name.toList.map (·.name)
  | member value => value.key.name?.toList
  | property value => value.key.name?.toList
  | expr (.ident _ name) => [name]
  | expr (.member _ _ (.name part) _) => [part.name]
  | _ => []

def Named (Q : String → Prop) (n : TreeNode) : Prop :=
  ∀ m, Below n m → ∀ name ∈ m.spelled, Q name

namespace Named

theorem trivial (n : TreeNode) : Named (fun _ => True) n := fun _ _ _ _ => True.intro

theorem here (named : Named Q n) (member : name ∈ n.spelled) : Q name := named n .refl name member

theorem below (named : Named Q n) (path : Below n m) : Named Q m :=
  fun k further => named k (path.trans further)

theorem child (named : Named Q n) (member : c ∈ n.children) : Named Q c :=
  named.below (.single member)

/-- The names along a path, which may start with `this`. -/
theorem path {value : Expr} {names : List String} (named : Named Q (.expr value))
    (self : Q "this") (spelled : value.path? = some names) : ∀ name ∈ names, Q name := by
  fun_induction Expr.path? value generalizing names with
  | case1 span name =>
    cases spelled
    exact List.forall_mem_singleton.mpr (named.here List.mem_cons_self)
  | case2 span =>
    cases spelled
    exact List.forall_mem_singleton.mpr self
  | case3 span base part isOptional ih =>
    obtain ⟨first, before, rfl⟩ := Option.map_eq_some_iff.mp spelled
    refine List.forall_mem_append.mpr ⟨ih (named.child List.mem_cons_self) before, ?_⟩
    exact List.forall_mem_singleton.mpr (named.here List.mem_cons_self)
  | case4 => cases spelled

theorem function {value : Function} (named : Named Q (.function value)) :
    (∀ given ∈ value.name, Q given.name) ∧ ∀ p ∈ value.params, Q p.name.name := by
  refine ⟨fun given member => named.here ?_, fun p member => named.here ?_⟩
  · exact List.mem_append_left _ (List.mem_map.mpr ⟨given, Option.mem_toList.mpr member, rfl⟩)
  · exact List.mem_append_right _ (List.mem_map.mpr ⟨p, member, rfl⟩)

theorem classDef {value : Class} (named : Named Q (.classDef value)) :
    ∀ given ∈ value.name, Q given.name := fun given member =>
  named.here (List.mem_map.mpr ⟨given, Option.mem_toList.mpr member, rfl⟩)

end Named

end CodeCompletion.TreeNode
