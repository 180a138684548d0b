import CodeCompletion.Analysis.Return
import CodeCompletion.Analysis.Walk

/-! What is in scope at a caret. A function is shaped by walking its body with its parameters
in scope: what is assigned through `this`, what is done with each parameter, and what the
first `return` gives. Bodies are followed into each other as deeply as the limits allow. -/
namespace CodeCompletion

variable {σ : Type} [Account σ]

def scopeOfBody (shaping : Shaping σ) (v : Viewpoint) (params : List Param)
    (body : List Stmt) : StateM σ Shape := fun budget =>
  let start : Walk σ := { root := .empty, budget }
  let w := Walk.run v shaping (Task.stmts 0 body) (start.declareParams params 0)
  (w.root, Account.absorb budget w.budget)

def addParameters (scope : Shape) : Nat → List Param → Shape → Shape
  | _, [], shape => shape
  | position, param :: rest, shape =>
    let shape := (scope.property? param.name.name).elim shape fun known =>
      shape.changeSource (Facet.ofParameter position) (·.merge known)
    addParameters scope (position + 1) rest shape

/-- The shape of what a body returns. A name is looked up as it stands at the `return`. -/
def resultShape? (shaping : Shaping σ) (params : List Param) (body : List Stmt)
    (scope : Shape) : StateM σ (Option Shape) := do
  match firstReturn? body with
  | none => return none
  | some (span, value) =>
    match value with
    | .ident _ name =>
      let here ← scopeOfBody shaping ⟨span.stop.position, false⟩ params body
      return here.property? name
    | .thisRef _ => return scope.property? "this"
    | _ => return some (← shapeOfValue shaping 0 0 value)

def bodyShape (shaping : Shaping σ) (function : Function) : StateM σ Shape := do
  let blank := Shape.function 0
  match function.body with
  | .expr value =>
    let result ← shapeOfValue shaping 0 0 value
    return blank.changeSource Facet.ofResult (·.merge result)
  | .block block =>
    let scope ←
      scopeOfBody shaping ⟨block.span.stop.position, true⟩ function.params block.body
    let shape := (scope.property? "this").elim blank fun known =>
      blank.changeSource Facet.ofInstance (·.merge known)
    let shape := addParameters scope 0 function.params shape
    let result ← resultShape? shaping function.params block.body scope
    return result.elim shape fun known => shape.changeSource Facet.ofResult (·.merge known)

/-- The shape of a function, with functions followed into each other at most `levels` deep. -/
def shapeWithin (limits : Limits) : Nat → Function → StateM σ Shape
  | 0, _ => return .function 0
  | levels + 1, function => fun budget =>
    match Account.enter? limits budget with
    | none => (.function 0, budget)
    | some inner =>
      let (shape, inner) := bodyShape ⟨limits, shapeWithin limits levels⟩ function inner
      (shape, Account.leave inner)

/-- The shape of a function. There are never more levels than the account lets be entered. -/
def shapeOfFunction (limits : Limits) (function : Function) : StateM σ Shape :=
  shapeWithin limits limits.shapeDepth function

def Limits.shaping (limits : Limits) : Shaping σ :=
  ⟨limits, shapeOfFunction limits⟩

/-- The shape that holds every name in scope at a caret, as properties. -/
def visibleAt (body : List Stmt) (caret : Position) (limits : Limits) : Shape :=
  let start : Walk Budget := { root := .empty, budget := {} }
  (Walk.run ⟨caret, false⟩ limits.shaping (Task.stmts 0 body) start).root

end CodeCompletion
