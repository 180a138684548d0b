import CodeCompletion.Shape.Facet

/-! Shapes: what is known about a value. A shape holds the shapes of the value's properties, the
types it may have and a weight for ranking; the shape of a function also holds one source for its
instances, one for its results and one for each parameter. Properties and types keep the order in
which they were declared. -/
namespace CodeCompletion

structure Shape where
  properties : List (String × Shape)
  types : Facets
  weight : Nat
  /-- Present for functions only: instances, results, then parameters. -/
  sources : Option (List Shape)

namespace Shape

def empty : Shape := ⟨[], .empty, 0, none⟩

def ofWeight (weight : Nat) : Shape := ⟨[], .empty, weight, none⟩

def maxWeight : Nat := 0xffffffff

def property? (s : Shape) (name : String) : Option Shape :=
  s.properties.lookup name

def names (s : Shape) : List String :=
  s.properties.map (·.1)

def get? (s : Shape) : List String → Option Shape
  | [] => some s
  | name :: rest => (s.property? name).bind (get? · rest)

def source? (s : Shape) (index : Nat) : Option Shape :=
  s.sources.bind (·[index]?)

/-- Neither types nor properties: there is nothing to complete from here. -/
def isUnknown (s : Shape) : Bool :=
  s.types.isEmpty && s.properties.isEmpty

def isFunction (s : Shape) : Bool :=
  s.types.hasOrigin Facet.functionOrigin

/-- Adds a type. What becomes a function gets sources for its instances and results. -/
def withType (s : Shape) (f : Facet) : Shape :=
  let s := { s with types := s.types.insert f }
  if f.origin = Facet.functionOrigin ∧ s.sources.isNone then
    { s with sources := some [empty, empty] }
  else s

def function (weight : Nat) : Shape :=
  (ofWeight weight).withType Facet.function

/-- Changes the entry of a name, or adds one at the end. -/
def upsert (name : String) (change : Option Shape → Shape) :
    List (String × Shape) → List (String × Shape)
  | [] => [(name, change none)]
  | (other, shape) :: rest =>
    if other = name then (other, change (some shape)) :: rest
    else (other, shape) :: upsert name change rest

/-- The weight of a property that is declared again: one more, if there is a larger one, and at
least `weight`. -/
def redeclaredWeight (previous weight : Nat) : Nat :=
  max (if previous < maxWeight then previous + 1 else previous) weight

def declare (s : Shape) (name : String) (weight : Nat) (change : Shape → Shape) : Shape :=
  let declared : Option Shape → Shape
    | none => ofWeight weight
    | some child => { child with weight := redeclaredWeight child.weight weight }
  { s with properties := upsert name (change ∘ declared) s.properties }

def declareTyped (s : Shape) (name : String) (type : Option Facet) (weight : Nat) : Shape :=
  s.declare name weight fun child => type.elim child child.withType

/-- Declares every name along a path and changes the shape at its end. -/
def declarePath (weight : Nat) (change : Shape → Shape) : List String → Shape → Shape
  | [], s => change s
  | name :: rest, s => s.declare name weight (declarePath weight change rest)

/-- Makes the shape a function with at least `count` sources. -/
def growSources (s : Shape) (count : Nat) : Shape :=
  let s := if s.sources.isNone then s.withType Facet.function else s
  let sources := s.sources.getD []
  { s with sources := some (sources ++ List.replicate (count - sources.length) empty) }

/-- Changes a source, which the shape gets if it has none. -/
def changeSource (s : Shape) (index : Nat) (change : Shape → Shape) : Shape :=
  let s := s.growSources (index + 1)
  { s with sources := s.sources.map (·.modify index change) }

inductive Step where
  | property (name : String)
  | source (index : Nat)
deriving DecidableEq

def step? (s : Shape) : Step → Option Shape
  | .property name => s.property? name
  | .source index => s.source? index

@[simp] def at? (s : Shape) : List Step → Option Shape
  | [] => some s
  | step :: rest => (s.step? step).bind (at? · rest)

def setStep (s : Shape) (step : Step) (child : Shape) : Shape :=
  match step with
  | .property name => { s with properties := upsert name (fun _ => child) s.properties }
  | .source index => { s with sources := s.sources.map (·.set index child) }

/-- Changes the shape at the end of some steps; `none` when they lead nowhere. -/
@[simp] def modifyAt? (change : Shape → Shape) : List Step → Shape → Option Shape
  | [], s => some (change s)
  | step :: rest, s => do
    let child ← s.step? step
    let child ← modifyAt? change rest child
    return s.setStep step child

end Shape

end CodeCompletion
