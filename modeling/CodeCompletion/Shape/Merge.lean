import CodeCompletion.Shape.Basic

/-! Merging what is known about a value from two places: the larger weight, all types, all
properties and all sources. What the first shape holds keeps its place. -/
namespace CodeCompletion.Shape

/-- Takes over the weight and the types of another shape, and as many sources. -/
def combine (s other : Shape) : Shape :=
  let s := { s with weight := max s.weight other.weight }
  let s := other.types.toList.foldl withType s
  match other.sources with
  | none | some [] => s
  | some sources => s.growSources sources.length

mutual

def merge (s other : Shape) : Shape :=
  match other with
  | ⟨properties, types, weight, sources⟩ =>
    let base := s.combine ⟨properties, types, weight, sources⟩
    { base with
      properties := mergeProperties base.properties properties
      sources :=
        match sources with
        | none => base.sources
        | some theirs => base.sources.map (mergeSources · theirs) }

/-- Properties of both sides are merged; new ones come at the end. -/
def mergeProperties (ours theirs : List (String × Shape)) : List (String × Shape) :=
  match theirs with
  | [] => ours
  | (name, child) :: rest =>
    let change : Option Shape → Shape
      | none => child
      | some mine => mine.merge child
    mergeProperties (upsert name change ours) rest

def mergeSources (ours theirs : List Shape) : List Shape :=
  match theirs with
  | [] => ours
  | theirs :: theirRest =>
    match ours with
    | [] => []
    | ours :: ourRest => ours.merge theirs :: mergeSources ourRest theirRest

end

end CodeCompletion.Shape
