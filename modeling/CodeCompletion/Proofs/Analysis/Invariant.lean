import CodeCompletion.Analysis.Scope
import CodeCompletion.Proofs.Analysis.Parts
import CodeCompletion.Proofs.Analysis.Return

/-! What all shapes of an analysis have in common. A kind of shapes that is `Closed` under the few
things that an analysis does with shapes is never left by one, whatever the tree, the caret and
the limits are. -/
namespace CodeCompletion

open TreeNode

/-- Names that an analysis uses although they may not be written in the tree. -/
def impliedNames : List String := ["this", "constructor", "prototype"]

namespace Shape

/-- The kind `I` of shapes is kept by what an analysis does with shapes, as long as the names that
it declares are of the kind `Q`. -/
structure Closed (Q : String → Prop) (I : Shape → Prop) : Prop where
  implied : ∀ name ∈ impliedNames, Q name
  ofWeight (weight : Nat) : I (.ofWeight weight)
  withType {s : Shape} (f : Facet) : I s → I (s.withType f)
  declare {s : Shape} {name : String} {weight : Nat} {change : Shape → Shape} : Q name → I s →
    (∀ child, I child → I (change child)) → I (s.declare name weight change)
  changeSource {s : Shape} {index : Nat} {change : Shape → Shape} : I s →
    (∀ child, I child → I (change child)) → I (s.changeSource index change)
  merge {s t : Shape} : I s → I t → I (s.merge t)
  property {s child : Shape} {name : String} : I s → s.property? name = some child → I child
  source {s child : Shape} {index : Nat} : I s → s.source? index = some child → I child

def Keeps (I : Shape → Prop) : Change := fun change => ∀ child, I child → I (change child)

variable {Q : String → Prop} {I : Shape → Prop}

namespace Closed

theorem self (closed : Closed Q I) : Q "this" := closed.implied _ (by simp [impliedNames])

theorem function (closed : Closed Q I) (weight : Nat) : I (.function weight) :=
  closed.withType _ (closed.ofWeight weight)

theorem allows (closed : Closed Q I) : Allows Q (Keeps I) I where
  same _ holds := holds
  typed f _ holds := closed.withType f holds
  merged found _ holds := closed.merge holds found
  deeper named keeps _ holds := closed.declare named holds keeps

/-- A member of a class goes to the class or to its prototype. -/
theorem declareMember (closed : Closed Q I) {shape : Shape} {isStatic : Bool} {name : String}
    {change : Shape → Shape} (holds : I shape) (named : Q name) (keeps : Keeps I change) :
    I (declareMember shape isStatic name change) := by
  rw [CodeCompletion.declareMember]
  split
  · exact closed.declare named holds keeps
  · refine closed.declare (closed.implied _ (by simp [impliedNames])) holds fun child inner => ?_
    exact closed.declare named inner keeps

end Closed

theorem Declares.keeps (closed : Closed Q I) {ds : List Declaration} {s s' : Shape}
    (declares : Declares Q (Keeps I) ds s s') (holds : I s) : I s' := by
  induction declares with
  | nil => exact holds
  | cons named keeps _ ih => exact ih (closed.declare named holds keeps)

end Shape

open Shape

section Gives

variable {α β : Type} {P : α → Prop} {R : β → Prop}

theorem gives_pure {a : α} (holds : P a) : Gives P (pure a) := fun _ => holds

theorem Gives.bind {find : StateM Budget α} {next : α → StateM Budget β} (first : Gives P find)
    (then_ : ∀ a, P a → Gives R (next a)) : Gives R (find >>= next) :=
  fun budget => then_ _ (first budget) _

end Gives

def Shaping.Shapes (shaping : Shaping Budget) (Q : String → Prop) (I : Shape → Prop) : Prop :=
  ∀ {value : Function}, Named Q (.function value) → Gives I (shaping.function value)

section Values

variable {Q : String → Prop} {I : Shape → Prop} {shaping : Shaping Budget}

mutual

theorem gives_shapeOfValue (closed : Closed Q I) (functions : shaping.Shapes Q I) (weight depth : Nat)
    (value : Expr) (named : Named Q (.expr value)) :
    Gives I (shapeOfValue shaping weight depth value) := by
  have blank := closed.ofWeight weight
  have merged {found : StateM Budget Shape} (gives : Gives I found) :
      Gives I (do return (Shape.ofWeight weight).merge (← found)) :=
    gives.bind fun _ holds => gives_pure (closed.merge blank holds)
  unfold shapeOfValue
  split
  · exact gives_pure blank
  split
  · rename_i literal
    refine gives_pure ?_
    cases literal.typeName? with
    | none => exact blank
    | some name => exact closed.withType _ blank
  · exact gives_pure (closed.withType _ blank)
  · refine gives_addProperties closed functions weight depth _ _ (fun p member => named.child ?_)
      (closed.withType _ blank)
    exact List.mem_map_of_mem member
  · rename_i callee _
    have known : Q "constructor" := closed.implied _ (by simp [impliedNames])
    refine gives_pure (closed.declare known ?_ (closed.allows.typed .function))
    cases callee.path? with
    | none => exact blank
    | some path => exact closed.withType _ blank
  · rename_i function _ _
    have callee : Named Q (.expr (.function _ function)) := named.child List.mem_cons_self
    refine (functions (callee.child List.mem_cons_self)).bind fun shape holds => gives_pure ?_
    cases found : shape.source? Facet.ofResult with
    | none => exact blank
    | some result => exact closed.merge blank (closed.source holds found)
  · rename_i callee _ _ _
    refine gives_pure ?_
    cases callee.path? with
    | none => exact blank
    | some path => exact closed.withType _ blank
  · exact merged (functions (named.child List.mem_cons_self))
  · exact merged (gives_shapeOfClass closed functions _ (named.child List.mem_cons_self))
  · exact merged (gives_shapeOfValue closed functions weight (depth + 1) _
      (named.child (List.mem_cons_of_mem _ List.mem_cons_self)))
  · split
    · refine (gives_shapeOfValue closed functions weight (depth + 1) _ (named.child List.mem_cons_self)).bind
        fun left first => ?_
      refine (gives_shapeOfValue closed functions weight (depth + 1) _
        (named.child (List.mem_cons_of_mem _ List.mem_cons_self))).bind fun right second => ?_
      exact gives_pure (closed.merge (closed.merge blank first) second)
    · exact gives_pure blank
  · refine (gives_shapeOfValue closed functions weight (depth + 1) _
      (named.child (List.mem_cons_of_mem _ List.mem_cons_self))).bind fun left first => ?_
    refine (gives_shapeOfValue closed functions weight (depth + 1) _ (named.child
      (List.mem_cons_of_mem _ (List.mem_cons_of_mem _ List.mem_cons_self)))).bind
        fun right second => ?_
    exact gives_pure (closed.merge (closed.merge blank first) second)
  · exact gives_pure blank
termination_by sizeOf value
decreasing_by
  all_goals subst_vars
  all_goals simp only [Expr.object.sizeOf_spec,Expr.classValue.sizeOf_spec,Expr.assign.sizeOf_spec,
    Expr.binary.sizeOf_spec,Expr.conditional.sizeOf_spec]
  all_goals omega

theorem gives_addProperties (closed : Closed Q I) (functions : shaping.Shapes Q I)
    (weight depth : Nat) (properties : List Property) (shape : Shape)
    (named : ∀ p ∈ properties, Named Q (.property p)) (holds : I shape) :
    Gives I (addProperties shaping weight depth properties shape) := by
  unfold addProperties
  split
  · exact gives_pure holds
  · obtain ⟨first, others⟩ := List.forall_mem_cons.mp named
    rename_i key value kind span rest
    split
    · exact gives_addProperties closed functions weight depth rest shape others holds
    · rename_i name given
      have known : Q name := first.here (by simp [spelled,given])
      refine (gives_shapeOfValue closed functions weight (depth + 1) value (first.child (by simp [children]))).bind
        fun child found => ?_
      exact gives_addProperties closed functions weight depth rest _ others
        (closed.declare known holds (closed.allows.merged found))
    · rename_i kind name given _
      have known : Q name := first.here (by simp [spelled,given])
      exact gives_addProperties closed functions weight depth rest _ others
        (closed.declare known holds closed.allows.same)
termination_by sizeOf properties
decreasing_by
  all_goals subst_vars
  all_goals simp only [List.cons.sizeOf_spec,Property.mk.sizeOf_spec]
  all_goals omega

theorem gives_shapeOfClass (closed : Closed Q I) (functions : shaping.Shapes Q I)
    (definition : Class) (named : Named Q (.classDef definition)) :
    Gives I (shapeOfClass shaping definition) := by
  match definition, named with
  | ⟨name, parent, members, bodySpan, span⟩, named =>
    unfold shapeOfClass
    refine gives_addMembers closed functions members _ (fun m member => named.child ?_) ?_
    · exact List.mem_append_right _ (List.mem_map_of_mem member)
    · split
      · exact closed.function 0
      · exact closed.changeSource (closed.function 0) (closed.allows.typed _)
termination_by sizeOf definition
decreasing_by
  simp only [Class.mk.sizeOf_spec]
  omega

theorem gives_addMembers (closed : Closed Q I) (functions : shaping.Shapes Q I)
    (members : List ClassMember) (shape : Shape) (named : ∀ m ∈ members, Named Q (.member m)) (holds : I shape) :
    Gives I (addMembers shaping members shape) := by
  unfold addMembers
  split
  · exact gives_pure holds
  · obtain ⟨first, others⟩ := List.forall_mem_cons.mp named
    rename_i key isStatic kind span rest
    split
    · exact gives_addMembers closed functions rest shape others holds
    · rename_i name given
      have known : Q name := first.here (by simp [spelled,given])
      split
      · rename_i function
        have inner : Named Q (.function function) := first.child (by simp [children,ofMemberKind])
        refine (functions inner).bind fun found good => ?_
        exact gives_addMembers closed functions rest _ others (closed.merge holds good)
      · rename_i function
        have inner : Named Q (.function function) := first.child (by simp [children,ofMemberKind])
        refine (functions inner).bind fun found good => ?_
        exact gives_addMembers closed functions rest _ others
          (closed.declareMember holds known (closed.allows.merged good))
      · exact gives_addMembers closed functions rest _ others (closed.declareMember holds known closed.allows.same)
      · exact gives_addMembers closed functions rest _ others (closed.declareMember holds known closed.allows.same)
      · rename_i init
        have inner : ∀ value ∈ init, Named Q (.expr value) := fun value member =>
          first.child (by simp [children,ofMemberKind,exprs?,exprs,Option.mem_def.mp member])
        refine (gives_shapeOfField closed functions init inner).bind fun value good => ?_
        have declared : Keeps I fun holder => holder.declare name 0 (·.merge value) :=
          closed.allows.deeper known (closed.allows.merged good)
        refine gives_addMembers closed functions rest _ others ?_
        split
        · exact declared shape holds
        · exact closed.changeSource holds declared
termination_by sizeOf members
decreasing_by
  all_goals subst_vars
  all_goals simp only [List.cons.sizeOf_spec,ClassMember.mk.sizeOf_spec,MemberKind.field.sizeOf_spec]
  all_goals omega

theorem gives_shapeOfField (closed : Closed Q I) (functions : shaping.Shapes Q I)
    (init : Option Expr) (named : ∀ value ∈ init, Named Q (.expr value)) :
    Gives I (shapeOfField shaping init) := by
  match init, named with
  | none, _ => exact gives_pure (closed.ofWeight 0)
  | some value, named => exact gives_shapeOfValue closed functions 0 0 value (named value rfl)
termination_by sizeOf init
decreasing_by
  simp only [Option.some.sizeOf_spec]
  omega

end

end Values

section Functions

variable {Q : String → Prop} {I : Shape → Prop} {shaping : Shaping Budget} (closed : Closed Q I)

include closed

/-- A walk through statements keeps the kind of its root. -/
theorem Walk.run_keeps_kind (sound : shaping.Sound Q I) {v : Viewpoint} {body : List Stmt}
    (named : ∀ s ∈ body, Named Q (.stmt s)) {w : Walk Budget} (holds : I w.root) :
    I (Walk.run v shaping (Task.stmts 0 body) w).root := by
  refine Walk.run_keeps (P := I) (fun t w reached before => ?_) holds
  obtain ⟨first, given, path⟩ := reached.below
  obtain ⟨s, member, rfl⟩ := List.mem_map.mp given
  have here : Named Q t.treeNode := (named s member).below path
  exact (Walk.note_declares closed.allows sound closed.self here w).keeps closed before

theorem gives_scopeOfBody (sound : shaping.Sound Q I) (v : Viewpoint) {params : List Param}
    {body : List Stmt} (given : ∀ p ∈ params, Q p.name.name)
    (named : ∀ s ∈ body, Named Q (.stmt s)) : Gives I (scopeOfBody shaping v params body) := by
  intro budget
  refine Walk.run_keeps_kind closed sound named ?_
  exact (Walk.declares_declareParams closed.allows given _).keeps closed (closed.ofWeight 0)

theorem addParameters_keeps {scope : Shape} (known : I scope) (position : Nat)
    (params : List Param) {shape : Shape} (holds : I shape) :
    I (addParameters scope position params shape) := by
  induction params generalizing position shape with
  | nil => exact holds
  | cons param rest ih =>
    refine ih (position + 1) ?_
    cases found : scope.property? param.name.name with
    | none => exact holds
    | some child =>
      exact closed.changeSource holds (closed.allows.merged (closed.property known found))

theorem gives_resultShape? (sound : shaping.Sound Q I) {params : List Param} {body : List Stmt}
    {scope : Shape} (given : ∀ p ∈ params, Q p.name.name) (named : ∀ s ∈ body, Named Q (.stmt s))
    (known : I scope) :
    Gives (fun result => ∀ shape ∈ result, I shape) (resultShape? shaping params body scope) := by
  unfold resultShape?
  split
  · exact gives_pure nofun
  · rename_i span value found
    obtain ⟨s, member, path⟩ := returnsIn_of_firstReturn? found
    have here : Named Q (.expr value) :=
      ((named s member).below path.below).child List.mem_cons_self
    split
    · refine (gives_scopeOfBody closed sound _ given named).bind fun found holds => ?_
      exact gives_pure fun shape got => closed.property holds got
    · exact gives_pure fun shape got => closed.property known got
    · refine (sound.value here).bind fun found holds => gives_pure fun shape got => ?_
      cases got
      exact holds

/-- The shape of a function is of the kind that the shapes of the functions in it are of. -/
theorem gives_bodyShape (sound : shaping.Sound Q I) {function : Function}
    (named : Named Q (.function function)) : Gives I (bodyShape shaping function) := by
  obtain ⟨name, params, body, isArrow, span⟩ := function
  have blank := closed.function 0
  cases body with
  | expr value =>
    have inner : Named Q (.expr value) := named.child (by simp [children,ofFunctionBody])
    refine (sound.value inner).bind fun result holds => gives_pure ?_
    exact closed.changeSource blank (closed.allows.merged holds)
  | block braces =>
    have inner : Named Q (.block braces) := named.child (by simp [children,ofFunctionBody])
    have statements : ∀ s ∈ braces.body, Named Q (.stmt s) := fun s member =>
      inner.child (List.mem_map_of_mem member)
    have given := named.function.2
    refine (gives_scopeOfBody closed sound _ given statements).bind fun scope known => ?_
    have shaped : I (addParameters scope 0 params ((scope.property? "this").elim (.function 0)
        fun known => (Shape.function 0).changeSource Facet.ofInstance (·.merge known))) := by
      refine addParameters_keeps closed known 0 params ?_
      cases found : scope.property? "this" with
      | none => exact blank
      | some self =>
        exact closed.changeSource blank (closed.allows.merged (closed.property known found))
    refine (gives_resultShape? closed sound given statements known).bind fun result holds => ?_
    refine gives_pure ?_
    cases result with
    | none => exact shaped
    | some result => exact closed.changeSource shaped (closed.allows.merged (holds result rfl))

theorem shaping_sound (functions : shaping.Shapes Q I) : shaping.Sound Q I :=
  ⟨functions, gives_shapeOfClass closed functions _, gives_shapeOfValue closed functions _ 0 _⟩

theorem shapes_shapeWithin (limits : Limits) (levels : Nat) :
    Shaping.Shapes ⟨limits, shapeWithin limits levels⟩ Q I := by
  induction levels with
  | zero => exact fun _ => gives_pure (closed.function 0)
  | succ levels ih =>
    intro function named budget
    dsimp only [shapeWithin]
    split
    · exact closed.function 0
    · exact gives_bodyShape closed (shaping_sound closed ih) named _

theorem shapes_shapeOfFunction (limits : Limits) : Shaping.Shapes limits.shaping Q I :=
  shapes_shapeWithin closed limits limits.shapeDepth

/-- What is in scope is of every kind that an analysis does not leave. -/
theorem visibleAt_keeps {body : List Stmt} (named : ∀ s ∈ body, Named Q (.stmt s))
    (caret : Position) (limits : Limits) : I (visibleAt body caret limits) :=
  Walk.run_keeps_kind closed (shaping_sound closed (shapes_shapeOfFunction closed limits)) named
    (closed.ofWeight 0)

end Functions

end CodeCompletion
