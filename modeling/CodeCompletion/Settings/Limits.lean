/-! Bounds on the work done for one answer. -/
namespace CodeCompletion

structure Limits where
  /-- Tree nodes visited by one analysis, those of nested function bodies included. -/
  walkSteps : Nat := 100000
  /-- How deeply function bodies are analysed inside each other, and how many types a
  look-up follows in a row. -/
  shapeDepth : Nat := 8
  /-- How deeply the shape of one value is followed into literals and alternatives. -/
  literalDepth : Nat := 32
  /-- Prototype links followed from one object. -/
  prototypeDepth : Nat := 32
deriving DecidableEq

end CodeCompletion
