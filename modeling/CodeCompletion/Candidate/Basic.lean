/-! Completion candidates, and ordered sets of them in which each display text occurs once. -/
namespace CodeCompletion

structure Candidate where
  /-- The full text offered. -/
  display : String
  /-- The text already typed, which the completion replaces. -/
  typed : String
  /-- A higher score comes first. -/
  score : Int
deriving DecidableEq

def properlyExtends (typed name : String) : Bool :=
  typed.toList.isPrefixOf name.toList && typed != name

structure Completions where
  candidates : List Candidate

namespace Completions

def empty : Completions := ⟨[]⟩

def get? (s : Completions) (display : String) : Option Candidate :=
  s.candidates.find? (·.display = display)

def contains (s : Completions) (display : String) : Bool :=
  s.candidates.any (·.display = display)

def size (s : Completions) : Nat := s.candidates.length

def isEmpty (s : Completions) : Bool := s.candidates.isEmpty

def displays (s : Completions) : List String :=
  s.candidates.map (·.display)

/-- Adds a candidate, unless its display text is taken. -/
def insert (s : Completions) (c : Candidate) : Completions :=
  if s.contains c.display then s else ⟨s.candidates ++ [c]⟩

def insertAll (s : Completions) (cs : List Candidate) : Completions :=
  cs.foldl insert s

def ofList (cs : List Candidate) : Completions :=
  empty.insertAll cs

def addAll (s t : Completions) : Completions :=
  s.insertAll t.candidates

/-- By descending score; candidates of one score keep their order. -/
def sort (s : Completions) : Completions :=
  ⟨s.candidates.mergeSort fun a b => decide (b.score ≤ a.score)⟩

end Completions

end CodeCompletion
