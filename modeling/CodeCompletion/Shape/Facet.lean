/-! Types as hypotheses about where a value comes from. A facet names a function by its dotted path
and says which of its shapes the value has; a set of facets keeps the order in which origins, and
for each origin the indices, were first seen. -/
namespace CodeCompletion

/-- The parts of a text between its dots, of which there is always one. -/
def splitAtDots : List Char → List (List Char)
  | [] => [[]]
  | c :: rest =>
    if c = '.' then [] :: splitAtDots rest
    else
      match splitAtDots rest with
      | [] => [[c]]
      | part :: parts => (c :: part) :: parts

structure Facet where
  /-- Dotted path of the function. -/
  origin : String
  /-- Which shape of the function: 0 for its instances, 1 for its results, `2 + n` for its
  parameter `n`. -/
  index : Nat
deriving DecidableEq

namespace Facet

def ofInstance : Nat := 0

def ofResult : Nat := 1

def ofParameter (n : Nat) : Nat := 2 + n

def instanceOf (origin : String) : Facet := ⟨origin, ofInstance⟩

def functionOrigin : String := "Function"

def function : Facet := instanceOf functionOrigin

def path (f : Facet) : List String :=
  (splitAtDots f.origin.toList).map String.ofList

def originOf (path : List String) : String :=
  String.ofList (['.'].intercalate (path.map String.toList))

end Facet

/-- Indices by origin. -/
structure Facets where
  entries : List (String × List Nat)

namespace Facets

def empty : Facets := ⟨[]⟩

def isEmpty (s : Facets) : Bool := s.entries.isEmpty

/-- In order of origin, then of index. -/
def toList (s : Facets) : List Facet :=
  s.entries.flatMap fun (origin, indices) => indices.map (⟨origin, ·⟩)

def hasOrigin (s : Facets) (origin : String) : Bool :=
  s.entries.any (·.1 = origin)

def contains (s : Facets) (f : Facet) : Bool :=
  s.entries.any fun (origin, indices) => origin = f.origin && indices.contains f.index

/-- Adds an index to the entry of its origin, or a new entry at the end. -/
def insertEntry (f : Facet) : List (String × List Nat) → List (String × List Nat)
  | [] => [(f.origin, [f.index])]
  | (origin, indices) :: rest =>
    if origin = f.origin then
      (origin, if indices.contains f.index then indices else indices ++ [f.index]) :: rest
    else (origin, indices) :: insertEntry f rest

def insert (s : Facets) (f : Facet) : Facets :=
  ⟨insertEntry f s.entries⟩

def union (s t : Facets) : Facets :=
  t.toList.foldl insert s

def sameAs (s t : Facets) : Bool :=
  s.toList.length = t.toList.length && s.toList.all t.contains

end Facets

end CodeCompletion
