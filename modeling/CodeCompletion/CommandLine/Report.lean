import CodeCompletion.Candidate.Basic
import CodeCompletion.Caret.Intent
import CodeCompletion.CommandLine.Json
import CodeCompletion.Shape.Basic
import CodeCompletion.Text.Quoted

/-! How answers are shown: candidates, an intent and the shape of a scope, each as lines of text
and as JSON. -/
namespace CodeCompletion.Report

def spaces (count : Nat) : String :=
  String.ofList (List.replicate count ' ')

/-- One line for a candidate. The scores stand in a column to the right of the longest
display text in bytes. -/
def candidateLine (width : Nat) (c : Candidate) : String :=
  c.display ++ spaces (width - c.display.length) ++ "  " ++ toString c.score

def candidateLines (found : Completions) : List String :=
  let width := (found.candidates.map (·.display.utf8ByteSize)).foldl max 0
  found.candidates.map (candidateLine width)

def candidatesJson (found : Completions) : JsonValue :=
  .arr <| found.candidates.map fun c =>
    .obj [("display", .str c.display), ("prefix", .str c.typed), ("score", .num c.score)]

def intentLines (intent : Intent) : List String :=
  ["kind:   " ++ intent.kind.name,
    "chain:  " ++ ".".intercalate intent.chain,
    "prefix: " ++ quoted intent.typed]

def intentJson : Option Intent → JsonValue
  | none => .null
  | some intent =>
    .obj [("kind", .str intent.kind.name), ("chain", .arr (intent.chain.map .str)),
      ("prefix", .str intent.typed)]

def typesText (types : Facets) : String :=
  ", ".intercalate (types.toList.map fun t => t.origin ++ "#" ++ toString t.index)

def sourceLabel (index : Nat) : String :=
  if index = Facet.ofInstance then "(this)"
  else if index = Facet.ofResult then "(return)"
  else "(param " ++ toString (index - Facet.ofParameter 0) ++ ")"

mutual

/-- A line for a shape and, further to the right, the lines of the shapes in it. -/
def shapeLines (name : String) (depth : Nat) : Shape → List String
  | ⟨properties, types, weight, sources⟩ =>
    (spaces (2 * depth) ++ name ++ " [" ++ typesText types ++ "] weight " ++ toString weight)
      :: (propertyLines (depth + 1) properties ++ sourceLines (depth + 1) sources)

def propertyLines (depth : Nat) : List (String × Shape) → List String
  | [] => []
  | (name, shape) :: rest => shapeLines name depth shape ++ propertyLines depth rest

def sourceLines (depth : Nat) : Option (List Shape) → List String
  | none => []
  | some sources => sourceLinesFrom 0 depth sources

def sourceLinesFrom (index depth : Nat) : List Shape → List String
  | [] => []
  | source :: rest =>
    (if source.isUnknown then [] else shapeLines (sourceLabel index) depth source)
      ++ sourceLinesFrom (index + 1) depth rest

end

def scopeLines (scope : Shape) : List String :=
  propertyLines 0 scope.properties

def typesJson (types : Facets) : JsonValue :=
  .obj <| types.entries.map fun (origin, indices) =>
    (origin, .arr (indices.map fun (index : Nat) => .num index))

mutual

def shapeJson : Shape → JsonValue
  | ⟨properties, types, weight, sources⟩ =>
    .obj ([("properties", .obj (propertiesJson properties)), ("type", typesJson types),
      ("weight", .num weight)] ++ sourcesJson sources)

def propertiesJson : List (String × Shape) → List (String × JsonValue)
  | [] => []
  | (name, shape) :: rest => (name, shapeJson shape) :: propertiesJson rest

def sourcesJson : Option (List Shape) → List (String × JsonValue)
  | none => []
  | some sources => [("sources", .arr (shapesJson sources))]

def shapesJson : List Shape → List JsonValue
  | [] => []
  | shape :: rest => shapeJson shape :: shapesJson rest

end

end CodeCompletion.Report
