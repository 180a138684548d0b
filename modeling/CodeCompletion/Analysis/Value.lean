import CodeCompletion.Analysis.Budget
import CodeCompletion.Program.Tree
import CodeCompletion.Shape.Merge

/-! The shape of a value, read off the expression that makes it: literals get the type of their
constructor, object literals a property for each key, and alternatives all that either side
has. How functions are shaped is a parameter here. -/
namespace CodeCompletion

variable {σ : Type}

structure Shaping (σ : Type) where
  limits : Limits
  /-- The shape of a function, which may take steps to find out. -/
  function : Function → StateM σ Shape

def instanceOfPath (path : List String) : Facet :=
  .instanceOf (Facet.originOf path)

/-- Operators whose value is one of their operands. -/
def isAlternative (op : String) : Bool :=
  ["||", "??", "&&"].contains op

/-- Declares a property of a class: on the class itself when static, else on its
prototype. -/
def declareMember (shape : Shape) (isStatic : Bool) (name : String)
    (change : Shape → Shape) : Shape :=
  if isStatic then shape.declare name 0 change
  else shape.declare "prototype" 0 fun prototype => prototype.declare name 0 change

mutual

/-- The shape of the value of an expression. `depth` counts the literals and alternatives
around it. -/
def shapeOfValue (shaping : Shaping σ) (weight depth : Nat) (value : Expr) :
    StateM σ Shape := do
  let blank := Shape.ofWeight weight
  if shaping.limits.literalDepth ≤ depth then return blank
  match value with
  | .literal _ literal =>
    return literal.typeName?.elim blank fun name => blank.withType (.instanceOf name)
  | .array _ _ => return blank.withType (.instanceOf "Array")
  | .object _ properties =>
    addProperties shaping weight depth properties (blank.withType (.instanceOf "Object"))
  | .construct _ callee _ =>
    let typed := callee.path?.elim blank fun path => blank.withType (instanceOfPath path)
    return typed.declareTyped "constructor" (some .function) weight
  | .call _ (.function _ function) _ _ =>
    let shape ← shaping.function function
    return (shape.source? Facet.ofResult).elim blank blank.merge
  | .call _ callee _ _ =>
    return callee.path?.elim blank fun path =>
      blank.withType ⟨Facet.originOf path, Facet.ofResult⟩
  | .function _ function => return blank.merge (← shaping.function function)
  | .classValue _ definition => return blank.merge (← shapeOfClass shaping definition)
  | .assign _ _ _ value => return blank.merge (← shapeOfValue shaping weight (depth + 1) value)
  | .binary _ op left right =>
    if isAlternative op then
      let shape := blank.merge (← shapeOfValue shaping weight (depth + 1) left)
      return shape.merge (← shapeOfValue shaping weight (depth + 1) right)
    else return blank
  | .conditional _ _ consequent alternate =>
    let shape := blank.merge (← shapeOfValue shaping weight (depth + 1) consequent)
    return shape.merge (← shapeOfValue shaping weight (depth + 1) alternate)
  | _ => return blank

/-- Declares the properties of an object literal. What an accessor gives is not known. -/
def addProperties (shaping : Shaping σ) (weight depth : Nat) (properties : List Property)
    (shape : Shape) : StateM σ Shape := do
  match properties with
  | [] => return shape
  | ⟨key, value, kind, _⟩ :: rest =>
    match key.name?, kind with
    | none, _ => addProperties shaping weight depth rest shape
    | some name, .value =>
      let child ← shapeOfValue shaping weight (depth + 1) value
      addProperties shaping weight depth rest (shape.declare name weight (·.merge child))
    | some name, _ =>
      addProperties shaping weight depth rest (shape.declare name weight id)

/-- A class is the function that constructs it. Its fields are known on its instances, its
methods on its prototype, and what is static on the class itself. -/
def shapeOfClass (shaping : Shaping σ) (definition : Class) : StateM σ Shape := do
  match definition with
  | ⟨_, parent, members, _, _⟩ =>
    let shape := Shape.function 0
    let shape :=
      match parent.bind Expr.path? with
      | none => shape
      | some path => shape.changeSource Facet.ofInstance (·.withType (instanceOfPath path))
    addMembers shaping members shape

def addMembers (shaping : Shaping σ) (members : List ClassMember) (shape : Shape) :
    StateM σ Shape := do
  match members with
  | [] => return shape
  | ⟨key, isStatic, kind, _⟩ :: rest =>
    match key.name? with
    | none => addMembers shaping rest shape
    | some name =>
      match kind with
      | .constructor function =>
        addMembers shaping rest (shape.merge (← shaping.function function))
      | .method function =>
        let method ← shaping.function function
        addMembers shaping rest (declareMember shape isStatic name (·.merge method))
      | .getter _ | .setter _ =>
        addMembers shaping rest (declareMember shape isStatic name id)
      | .field init =>
        let value ← shapeOfField shaping init
        let declareField (holder : Shape) := holder.declare name 0 (·.merge value)
        addMembers shaping rest
          (if isStatic then declareField shape
          else shape.changeSource Facet.ofInstance declareField)

def shapeOfField (shaping : Shaping σ) (init : Option Expr) : StateM σ Shape :=
  match init with
  | none => return .empty
  | some value => shapeOfValue shaping 0 0 value

end

end CodeCompletion
