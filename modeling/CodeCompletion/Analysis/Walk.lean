import CodeCompletion.Analysis.TaskSize

/-! The walk over a tree. Tasks are taken in order; each declares what it has to in the root
shape, and its parts come next. The walk ends when no task is left or none may be visited. -/
namespace CodeCompletion

variable {σ : Type}

structure Walk (σ : Type) where
  root : Shape
  budget : σ

namespace Walk

def shape (w : Walk σ) (find : StateM σ Shape) : Shape × Walk σ :=
  let (found, budget) := find w.budget
  (found, { w with budget })

def declare (w : Walk σ) (name : String) (type : Option Facet) (weight : Nat) : Walk σ :=
  { w with root := w.root.declareTyped name type weight }

def declareShaped (w : Walk σ) (name : String) (weight : Nat) (find : StateM σ Shape) : Walk σ :=
  let (found, w) := w.shape find
  { w with root := w.root.declare name weight (·.merge found) }

def declareValue (shaping : Shaping σ) (w : Walk σ) (path : List String) (value : Expr)
    (weight : Nat) : Walk σ :=
  let (found, w) := w.shape (shapeOfValue shaping weight 0 value)
  { w with root := w.root.declarePath weight (·.merge found) path }

def declareFunction (w : Walk σ) (path : List String) (weight : Nat) : Walk σ :=
  { w with root := w.root.declarePath weight (·.withType .function) path }

/-- Declares the names that are passed to a function, as its parameters by position. -/
def declareArguments (origin : String) (weight : Nat) : Nat → List Expr → Walk σ → Walk σ
  | _, [], w => w
  | position, argument :: rest, w =>
    let w :=
      match argument with
      | .ident _ name => w.declare name (some ⟨origin, Facet.ofParameter position⟩) weight
      | _ => w
    declareArguments origin weight (position + 1) rest w

/-- A call makes its callee a function and tells what is passed to it. -/
def noteCall (w : Walk σ) (callee : Expr) (arguments : List Expr) (weight : Nat) : Walk σ :=
  match callee.path? with
  | none => w
  | some path =>
    declareArguments (Facet.originOf path) weight 0 arguments (w.declareFunction path weight)

def noteConstruction (w : Walk σ) (callee : Expr) (weight : Nat) : Walk σ :=
  callee.path?.elim w fun path => w.declareFunction path weight

def declareBindings (shaping : Shaping σ) (w : Walk σ) (declarators : List Declarator)
    (weight : Nat) : Walk σ :=
  declarators.foldl
    (fun w d =>
      match d.init with
      | some init => declareValue shaping w [d.target.name] init weight
      | none => w.declare d.target.name none weight) w

/-- Declares parameters. One that takes all remaining arguments is an array. -/
def declareParams (w : Walk σ) (params : List Param) (weight : Nat) : Walk σ :=
  params.foldl
    (fun w p =>
      w.declare p.name.name (if p.isRest then some (.instanceOf "Array") else none) weight) w

def openFunction (v : Viewpoint) (w : Walk σ) (function : Function) (depth : Nat) : Walk σ :=
  if v.isIn function.body.span then w.declareParams function.params (depth + 1) else w

def openMember (v : Viewpoint) (depth : Nat) (member : ClassMember) (w : Walk σ) : Walk σ :=
  match member.kind with
  | .constructor function | .method function | .getter function | .setter function =>
    openFunction v w function depth
  | .field _ => w

/-- Declares the parameters of the methods around the caret, the last method first. -/
def openClass (v : Viewpoint) (w : Walk σ) (definition : Class) (depth : Nat) : Walk σ :=
  if v.isIn definition.bodySpan then definition.members.foldr (openMember v depth) w
  else w

def noteStmt (v : Viewpoint) (shaping : Shaping σ) (depth : Nat) (w : Walk σ) : Stmt → Walk σ
  | .declare _ _ declarators | .forLoop _ (some (.bindings _ _ declarators)) _ _ _ =>
    declareBindings shaping w declarators depth
  | .function _ function =>
    let w := function.name.elim w fun name =>
      w.declareShaped name.name depth (shaping.function function)
    openFunction v w function depth
  | .classDeclaration _ definition =>
    let w := definition.name.elim w fun name =>
      w.declareShaped name.name depth (shapeOfClass shaping definition)
    openClass v w definition depth
  | .tryCatch _ _ (some clause) _ =>
    if v.opens clause.body.span then
      clause.param.elim w fun param => w.declare param.name none (depth + 1)
    else w
  | .forEach _ (.bindings _ _ declarators) _ _ ofValues =>
    let type := if ofValues then none else some (.instanceOf "String")
    declarators.foldl (fun w d => w.declare d.target.name type depth) w
  | _ => w

/-- Declares what an expression declares by itself. The name of a function or class
expression is known inside it only. -/
def noteExpr (v : Viewpoint) (shaping : Shaping σ) (depth : Nat) (w : Walk σ) : Expr → Walk σ
  | .assign _ _ target value =>
    target.path?.elim w fun path => declareValue shaping w path value depth
  | .call _ callee arguments _ => w.noteCall callee arguments depth
  | .construct _ callee _ => w.noteConstruction callee depth
  | .function _ function =>
    let w :=
      if v.isIn function.body.span then
        function.name.elim w fun name =>
          w.declareShaped name.name (depth + 1) (shaping.function function)
      else w
    openFunction v w function depth
  | .classValue _ definition =>
    let w :=
      if v.isIn definition.bodySpan then
        definition.name.elim w fun name =>
          w.declareShaped name.name (depth + 1) (shapeOfClass shaping definition)
      else w
    openClass v w definition depth
  | _ => w

def note (v : Viewpoint) (shaping : Shaping σ) (task : Task) (w : Walk σ) : Walk σ :=
  match task.node with
  | .stmt value => noteStmt v shaping task.depth w value
  | .expr value => noteExpr v shaping task.depth w value

def run [Account σ] (v : Viewpoint) (shaping : Shaping σ) (tasks : List Task) (w : Walk σ) : Walk σ :=
  match tasks with
  | [] => w
  | task :: rest =>
    match Account.visit shaping.limits w.budget with
    | .error budget => { w with budget }
    | .ok budget => run v shaping (task.parts v ++ rest) (note v shaping task { w with budget })
termination_by Task.totalSize tasks
decreasing_by
  have := Task.totalSize_parts v task
  simp only [Task.totalSize_append,Task.totalSize_cons]
  omega

end Walk

end CodeCompletion
