import CodeCompletion.Shape.Basic

/-! Equality of shapes. The order in which names, origins and indices were declared does not count.
-/
namespace CodeCompletion.Shape

mutual

def sameAs (s other : Shape) : Bool :=
  match s with
  | ⟨properties, types, weight, sources⟩ =>
    properties.length = other.properties.length && sameProperties properties other &&
      types.sameAs other.types && weight = other.weight && sameSources sources other.sources

def sameProperties (properties : List (String × Shape)) (other : Shape) : Bool :=
  match properties with
  | [] => true
  | (name, child) :: rest =>
    (other.property? name).any (child.sameAs ·) && sameProperties rest other

def sameSources (ours theirs : Option (List Shape)) : Bool :=
  match ours, theirs with
  | none, none => true
  | some ours, some theirs => sameSlots ours theirs
  | _, _ => false

def sameSlots (ours theirs : List Shape) : Bool :=
  match ours, theirs with
  | [], [] => true
  | our :: rest, their :: others => our.sameAs their && sameSlots rest others
  | _, _ => false

end

end CodeCompletion.Shape
