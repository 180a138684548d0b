/-! Places in a text. A position is a line and a column; a place adds the byte offset; a span is
two places. Lines and columns start at zero, a column counts characters from the start of its line,
and only a line feed ends a line. -/
namespace CodeCompletion

structure Position where
  line : Nat
  column : Nat
deriving DecidableEq, Inhabited

namespace Position

def le (a b : Position) : Prop :=
  a.line < b.line ∨ a.line = b.line ∧ a.column ≤ b.column

instance : LE Position := ⟨le⟩

instance (a b : Position) : Decidable (a ≤ b) :=
  inferInstanceAs (Decidable (a.line < b.line ∨ a.line = b.line ∧ a.column ≤ b.column))

theorem le_iff {a b : Position} :
    a ≤ b ↔ a.line < b.line ∨ a.line = b.line ∧ a.column ≤ b.column := Iff.rfl

def display (p : Position) : String :=
  toString (p.line + 1) ++ ":" ++ toString (p.column + 1)

end Position

/-- A position together with its distance from the start of the text in UTF-8 bytes. -/
structure Place where
  offset : Nat
  position : Position
deriving DecidableEq, Inhabited

namespace Place

def origin : Place := ⟨0, ⟨0, 0⟩⟩

def after (p : Place) (c : Char) : Place :=
  if c = '\n' then ⟨p.offset + c.utf8Size, ⟨p.position.line + 1, 0⟩⟩
  else ⟨p.offset + c.utf8Size, ⟨p.position.line, p.position.column + 1⟩⟩

def afterAll (p : Place) (cs : List Char) : Place :=
  cs.foldl after p

@[simp] theorem afterAll_nil (p : Place) : p.afterAll [] = p := rfl

@[simp] theorem afterAll_cons (p : Place) (c : Char) (cs : List Char) :
    p.afterAll (c :: cs) = (p.after c).afterAll cs := rfl

theorem afterAll_append (p : Place) (xs ys : List Char) :
    p.afterAll (xs ++ ys) = (p.afterAll xs).afterAll ys :=
  List.foldl_append

end Place

/-- The text from `start` up to but not including `stop`. -/
structure Span where
  start : Place
  stop : Place
deriving DecidableEq, Inhabited

namespace Span

/-- The smallest span that covers both. Equal offsets keep the places of the first. -/
def cover (a b : Span) : Span where
  start := if b.start.offset < a.start.offset then b.start else a.start
  stop := if a.stop.offset < b.stop.offset then b.stop else a.stop

/-- Both ends count: a caret right after the last character still belongs to the span. -/
def contains (s : Span) (p : Position) : Bool :=
  s.start.position ≤ p ∧ p ≤ s.stop.position

end Span

end CodeCompletion
