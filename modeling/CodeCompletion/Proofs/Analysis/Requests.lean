import CodeCompletion.Analysis.Scope

/-! How shapes are found. What is found is made of the shapes of functions, which are asked for one
after the other, and the state in which account is kept is passed on from one to the next without
being looked at. The functions that are asked for are together not larger than the text that they are
found in. -/
namespace CodeCompletion

variable {α β : Type}

abbrev Answer (σ : Type) : Type := Function → StateM σ Shape

/-- Something is found by asking for the shapes of functions whose sizes come to no more than the
bound. -/
inductive Asks : {α : Type} → Nat → ((σ : Type) → Answer σ → StateM σ α) → Prop where
  | pure {α : Type} {bound : Nat} (a : α) : Asks bound fun _ _ => pure a
  | function {bound : Nat} {function : Function} (small : sizeOf function ≤ bound) :
      Asks bound fun _ answer => answer function
  | bind {α β : Type} {bound first second : Nat} {find : (σ : Type) → Answer σ → StateM σ α}
      {next : α → (σ : Type) → Answer σ → StateM σ β} (found : Asks first find)
      (then_ : ∀ a, Asks second (next a)) (small : first + second ≤ bound) :
      Asks bound fun σ answer => find σ answer >>= (next · σ answer)

namespace Asks

variable {bound bound' : Nat} {find : (σ : Type) → Answer σ → StateM σ α}

theorem mono (asks : Asks bound find) (le : bound ≤ bound') : Asks bound' find := by
  cases asks with
  | pure a => exact .pure a
  | function small => exact .function (Nat.le_trans small le)
  | bind found then_ small => exact .bind found then_ (Nat.le_trans small le)

/-- Something is made of what was found. -/
theorem map {find' : (σ : Type) → Answer σ → StateM σ β} (asks : Asks bound find) (make : α → β)
    (made : ∀ σ answer, find' σ answer = make <$> find σ answer) : Asks bound find' := by
  have same : find' = fun σ answer => find σ answer >>= fun a => Pure.pure (make a) :=
    funext fun σ => funext fun answer => made σ answer
  rw [same]
  have made (a : α) : Asks 0 fun _ _ => Pure.pure (make a) := .pure (make a)
  exact .bind asks made (Nat.le_refl _)

end Asks

section Values

variable (limits : Limits)

mutual

theorem asks_shapeOfValue (weight depth : Nat) (value : Expr) :
    Asks (sizeOf value) fun _ answer => shapeOfValue ⟨limits, answer⟩ weight depth value := by
  have deeper (inner : Expr) (smaller : sizeOf inner < sizeOf value) :
      Asks (sizeOf inner) fun _ answer => shapeOfValue ⟨limits, answer⟩ weight (depth + 1) inner :=
    asks_shapeOfValue weight (depth + 1) inner
  unfold shapeOfValue
  by_cases deep : limits.literalDepth ≤ depth
  · simp only [if_pos deep]
    exact .pure _
  simp only [if_neg deep]
  match value with
  | .object _ properties =>
    exact (asks_addProperties weight depth properties _).mono (by rw [Expr.object.sizeOf_spec]; omega)
  | .call span callee arguments flag =>
    cases callee with
    | function place function =>
      have small : sizeOf function ≤ sizeOf (Expr.call span (.function place function) arguments flag) := by
        rw [Expr.call.sizeOf_spec,Expr.function.sizeOf_spec]
        omega
      exact Asks.map (.function small) (fun shape => (shape.source? Facet.ofResult).elim
        (.ofWeight weight) (Shape.ofWeight weight).merge) fun _ _ => rfl
    | _ => exact .pure _
  | .function span function =>
    have small : sizeOf function ≤ sizeOf (Expr.function span function) := by
      rw [Expr.function.sizeOf_spec]
      omega
    exact Asks.map (.function small) _ fun _ _ => rfl
  | .classValue _ definition =>
    refine ((asks_shapeOfClass definition).mono ?_).map _ fun _ _ => rfl
    rw [Expr.classValue.sizeOf_spec]
    omega
  | .assign span op target inner =>
    have small : sizeOf inner < sizeOf (Expr.assign span op target inner) := by
      rw [Expr.assign.sizeOf_spec]
      omega
    exact ((deeper inner small).mono (Nat.le_of_lt small)).map _ fun _ _ => rfl
  | .binary span op left right =>
    by_cases alternative : isAlternative op = true
    · simp only [if_pos alternative]
      have small : sizeOf left + sizeOf right < sizeOf (Expr.binary span op left right) := by
        rw [Expr.binary.sizeOf_spec]
        omega
      refine .bind (deeper left (by omega)) (fun shape => ?_) (Nat.le_of_lt small)
      exact (deeper right (by omega)).map _ fun _ _ => rfl
    · simp only [if_neg alternative]
      exact .pure _
  | .conditional span test consequent alternate =>
    have small : sizeOf consequent + sizeOf alternate <
        sizeOf (Expr.conditional span test consequent alternate) := by
      rw [Expr.conditional.sizeOf_spec]
      omega
    refine .bind (deeper consequent (by omega)) (fun shape => ?_) (Nat.le_of_lt small)
    exact (deeper alternate (by omega)).map _ fun _ _ => rfl
  | .literal .. | .ident .. | .thisRef .. | .superRef .. | .array .. | .construct .. | .member ..
  | .sequence .. | .unary .. | .update .. | .spread .. => exact .pure _
termination_by sizeOf value

theorem asks_addProperties (weight depth : Nat) (properties : List Property) (shape : Shape) :
    Asks (sizeOf properties)
      fun _ answer => addProperties ⟨limits, answer⟩ weight depth properties shape := by
  match properties with
  | [] =>
    unfold addProperties
    exact .pure shape
  | ⟨key, value, kind, span⟩ :: rest =>
    unfold addProperties
    have small : sizeOf value + sizeOf rest ≤ sizeOf (Property.mk key value kind span :: rest) := by
      rw [List.cons.sizeOf_spec,Property.mk.sizeOf_spec]
      omega
    have others (shape : Shape) := (asks_addProperties weight depth rest shape).mono
      (Nat.le_trans (Nat.le_add_left _ _) small)
    cases key.name? with
    | none => exact others shape
    | some name =>
      cases kind with
      | value =>
        exact .bind (asks_shapeOfValue weight (depth + 1) value)
          (fun child => asks_addProperties weight depth rest _) small
      | _ => exact others _
termination_by sizeOf properties

theorem asks_shapeOfClass (definition : Class) :
    Asks (sizeOf definition) fun _ answer => shapeOfClass ⟨limits, answer⟩ definition := by
  match definition with
  | ⟨name, parent, members, bodySpan, span⟩ =>
    unfold shapeOfClass
    exact (asks_addMembers members _).mono (by rw [Class.mk.sizeOf_spec]; omega)
termination_by sizeOf definition

theorem asks_addMembers (members : List ClassMember) (shape : Shape) :
    Asks (sizeOf members) fun _ answer => addMembers ⟨limits, answer⟩ members shape := by
  match members with
  | [] =>
    unfold addMembers
    exact .pure shape
  | ⟨key, isStatic, kind, span⟩ :: rest =>
    unfold addMembers
    have small : sizeOf kind + sizeOf rest ≤
        sizeOf (ClassMember.mk key isStatic kind span :: rest) := by
      rw [List.cons.sizeOf_spec,ClassMember.mk.sizeOf_spec]
      omega
    have others (shape : Shape) := (asks_addMembers rest shape).mono
      (Nat.le_trans (Nat.le_add_left _ _) small)
    cases key.name? with
    | none => exact others shape
    | some name =>
      cases kind with
      | constructor function =>
        rw [MemberKind.constructor.sizeOf_spec] at small
        exact .bind (.function (Nat.le_refl _)) (fun found => asks_addMembers rest _) (by omega)
      | method function =>
        rw [MemberKind.method.sizeOf_spec] at small
        exact .bind (.function (Nat.le_refl _)) (fun found => asks_addMembers rest _) (by omega)
      | getter function | setter function => exact others _
      | field init =>
        rw [MemberKind.field.sizeOf_spec] at small
        exact .bind (asks_shapeOfField init) (fun found => asks_addMembers rest _) (by omega)
termination_by sizeOf members

theorem asks_shapeOfField (init : Option Expr) :
    Asks (sizeOf init) fun _ answer => shapeOfField ⟨limits, answer⟩ init := by
  match init with
  | none =>
    unfold shapeOfField
    exact .pure Shape.empty
  | some value =>
    unfold shapeOfField
    exact (asks_shapeOfValue 0 0 value).mono (by rw [Option.some.sizeOf_spec]; omega)
termination_by sizeOf init

end

end Values

namespace Walk

def rootAfter {σ : Type} (visit : Walk σ → Walk σ) (root : Shape) : StateM σ Shape := fun budget =>
  let w := visit ⟨root, budget⟩
  (w.root, w.budget)

def Asking (bound : Nat) (visit : (σ : Type) → Answer σ → Walk σ → Walk σ) : Prop :=
  ∀ root, Asks bound fun σ answer => rootAfter (visit σ answer) root

variable {v : Viewpoint} {limits : Limits} {depth weight bound bound' : Nat}
  {visit visit' : (σ : Type) → Answer σ → Walk σ → Walk σ}

section Combinators

theorem asking_root (change : Shape → Shape) :
    Asking bound fun _ _ w => { w with root := change w.root } :=
  fun root => .pure (change root)

theorem asking_id : Asking bound fun _ _ w => w := asking_root fun root => root

theorem asking_shape {find : (σ : Type) → Answer σ → StateM σ Shape}
    (change : Shape → Shape → Shape) (asks : Asks bound find) :
    Asking bound fun σ answer w =>
      ⟨change (find σ answer w.budget).1 w.root, (find σ answer w.budget).2⟩ :=
  fun root => asks.map (change · root) fun _ _ => rfl

theorem Asking.append {total : Nat} (first : Asking bound visit) (second : Asking bound' visit')
    (small : bound + bound' ≤ total) :
    Asking total fun σ answer w => visit' σ answer (visit σ answer w) :=
  fun root => .bind (first root) second small

/-- What needs no shape can come last. -/
theorem Asking.then_ (first : Asking bound visit) (second : Asking 0 visit') :
    Asking bound fun σ answer w => visit' σ answer (visit σ answer w) :=
  first.append second (Nat.le_refl _)

theorem Asking.mono (asking : Asking bound visit) (le : bound ≤ bound') : Asking bound' visit :=
  fun root => (asking root).mono le

theorem asking_foldl {visit : (σ : Type) → Answer σ → Walk σ → α → Walk σ} [SizeOf α]
    (each : ∀ item, Asking (sizeOf item) fun σ answer w => visit σ answer w item) (items : List α) :
    Asking (sizeOf items) fun σ answer w => items.foldl (visit σ answer) w := by
  induction items with
  | nil => exact asking_id
  | cons item rest ih => exact (each item).append ih (by rw [List.cons.sizeOf_spec]; omega)

theorem asking_foldl_zero {visit : (σ : Type) → Walk σ → α → Walk σ}
    (each : ∀ item, Asking 0 fun σ _ w => visit σ w item) (items : List α) :
    Asking 0 fun σ _ w => items.foldl (visit σ) w := by
  induction items with
  | nil => exact asking_id
  | cons item rest ih => exact (each item).append ih (Nat.le_refl _)

theorem asking_elim {given : Option α} {visit : α → (σ : Type) → Answer σ → Walk σ → Walk σ}
    (each : ∀ item, Asking bound (visit item)) :
    Asking bound fun σ answer w => given.elim w fun item => visit item σ answer w := by
  cases given with
  | none => exact asking_id
  | some item => exact each item

theorem asking_ite {inside : Bool} (asking : Asking bound visit) :
    Asking bound fun σ answer w => if inside then visit σ answer w else w := by
  cases inside with
  | false => exact asking_id
  | true => exact asking

end Combinators

section Notes

theorem asking_declare (name : String) (type : Option Facet) :
    Asking bound fun _ _ w => w.declare name type weight :=
  asking_root (·.declareTyped name type weight)

theorem asking_declareFunction (path : List String) :
    Asking bound fun _ _ w => w.declareFunction path weight :=
  asking_root (Shape.declarePath weight (·.withType .function) path)

theorem asking_declareArguments (origin : String) (position : Nat) (arguments : List Expr) :
    Asking 0 fun _ _ w => declareArguments origin weight position arguments w := by
  induction arguments generalizing position with
  | nil => exact asking_id
  | cons argument rest ih =>
    cases argument with
    | ident span name => exact (asking_declare name _).then_ (ih (position + 1))
    | _ => exact ih (position + 1)

theorem asking_noteCall (callee : Expr) (arguments : List Expr) :
    Asking 0 fun _ _ w => w.noteCall callee arguments weight := by
  simp only [noteCall]
  cases callee.path? with
  | none => exact asking_id
  | some path => exact (asking_declareFunction path).then_ (asking_declareArguments _ 0 arguments)

theorem asking_declareParams (params : List Param) (weight : Nat) :
    Asking 0 fun _ _ w => w.declareParams params weight := by
  refine asking_foldl_zero (fun p => ?_) params
  exact asking_declare p.name.name _

theorem asking_openFunction (function : Function) :
    Asking 0 fun _ _ w => openFunction v w function depth :=
  asking_ite (asking_declareParams function.params (depth + 1))

theorem asking_openClass (definition : Class) :
    Asking 0 fun _ _ w => openClass v w definition depth := by
  apply asking_ite
  simp only [List.foldr_eq_foldl_reverse]
  refine asking_foldl_zero (fun entry => ?_) definition.members.reverse
  obtain ⟨key, isStatic, kind, span⟩ := entry
  cases kind with
  | constructor function | method function | getter function | setter function =>
    exact asking_openFunction function
  | field init => exact asking_id

theorem asking_declareValue (path : List String) (value : Expr) :
    Asking (sizeOf value) fun _ answer w => declareValue ⟨limits, answer⟩ w path value weight :=
  asking_shape (fun found => Shape.declarePath weight (·.merge found) path)
    (asks_shapeOfValue limits weight 0 value)

theorem asking_declareShaped {find : (σ : Type) → Answer σ → StateM σ Shape} (name : String)
    (weight : Nat) (asks : Asks bound find) :
    Asking bound fun σ answer w => w.declareShaped name weight (find σ answer) :=
  asking_shape (fun found root => root.declare name weight (·.merge found)) asks

theorem asking_declareBindings (declarators : List Declarator) :
    Asking (sizeOf declarators)
      fun _ answer w => declareBindings ⟨limits, answer⟩ w declarators weight := by
  refine asking_foldl (fun d => ?_) declarators
  obtain ⟨target, init, span⟩ := d
  cases init with
  | none => exact asking_declare target.name none
  | some init =>
    refine (asking_declareValue [target.name] init).mono ?_
    rw [Declarator.mk.sizeOf_spec,Option.some.sizeOf_spec]
    omega

theorem asking_noteStmt (value : Stmt) :
    Asking (sizeOf value - 1) fun _ answer w => noteStmt v ⟨limits, answer⟩ depth w value := by
  cases value with
  | declare span kind declarators =>
    refine (asking_declareBindings declarators).mono ?_
    rw [Stmt.declare.sizeOf_spec]
    omega
  | function span function =>
    have small : sizeOf function ≤ sizeOf (Stmt.function span function) - 1 := by
      rw [Stmt.function.sizeOf_spec]
      omega
    have named (name : Ident) := asking_declareShaped name.name depth (.function small)
    exact (asking_elim named).then_ (asking_openFunction function)
  | classDeclaration span definition =>
    have small : sizeOf definition ≤ sizeOf (Stmt.classDeclaration span definition) - 1 := by
      rw [Stmt.classDeclaration.sizeOf_spec]
      omega
    have named (name : Ident) := asking_declareShaped name.name depth
      ((asks_shapeOfClass limits definition).mono small)
    exact (asking_elim named).then_ (asking_openClass definition)
  | tryCatch span body handler finalizer =>
    cases handler with
    | none => exact asking_id
    | some clause => exact asking_ite (asking_elim fun param => asking_declare param.name none)
  | forLoop span init test update body =>
    rcases init with _ | ⟨_, _, declarators⟩ | value
    · exact asking_id
    · refine (asking_declareBindings declarators).mono ?_
      rw [Stmt.forLoop.sizeOf_spec,Option.some.sizeOf_spec,LoopStart.bindings.sizeOf_spec]
      omega
    · exact asking_id
  | forEach span left right body ofValues =>
    cases left with
    | bindings start kind declarators =>
      refine (asking_foldl_zero (fun d => ?_) declarators).mono (Nat.zero_le _)
      exact asking_declare d.target.name _
    | expr value => exact asking_id
  | _ => exact asking_id

theorem asking_noteExpr (value : Expr) :
    Asking (sizeOf value - 1) fun _ answer w => noteExpr v ⟨limits, answer⟩ depth w value := by
  cases value with
  | assign span op target inner =>
    refine (asking_elim fun path => asking_declareValue path inner).mono ?_
    rw [Expr.assign.sizeOf_spec]
    omega
  | call span callee arguments isOptional =>
    exact (asking_noteCall callee arguments).mono (Nat.zero_le _)
  | construct span callee arguments => exact asking_elim asking_declareFunction
  | function span function =>
    have small : sizeOf function ≤ sizeOf (Expr.function span function) - 1 := by
      rw [Expr.function.sizeOf_spec]
      omega
    have named (name : Ident) := asking_declareShaped name.name (depth + 1) (.function small)
    exact (asking_ite (asking_elim named)).then_ (asking_openFunction function)
  | classValue span definition =>
    have small : sizeOf definition ≤ sizeOf (Expr.classValue span definition) - 1 := by
      rw [Expr.classValue.sizeOf_spec]
      omega
    have named (name : Ident) := asking_declareShaped name.name (depth + 1)
      ((asks_shapeOfClass limits definition).mono small)
    exact (asking_ite (asking_elim named)).then_ (asking_openClass definition)
  | _ => exact asking_id

/-- What a task declares is found by asking for functions that are smaller than it. -/
theorem asking_note (task : Task) :
    Asking (task.size - 1) fun _ answer => note v ⟨limits, answer⟩ task := by
  obtain ⟨node, depth⟩ := task
  cases node with
  | stmt value =>
    rw [Task.size_stmt]
    exact asking_noteStmt value
  | expr value =>
    rw [Task.size_expr]
    exact asking_noteExpr value

end Notes

end Walk

end CodeCompletion
