import CodeCompletion.Text.Position

/-! Conversion between byte offsets and positions. The table of a text holds the offset at which
each line starts; a line's own end excludes the line feed that closes it. -/
namespace CodeCompletion

/-- Length in UTF-8 bytes. -/
def byteLength : List Char → Nat
  | [] => 0
  | c :: cs => c.utf8Size + byteLength cs

@[simp] theorem byteLength_nil : byteLength [] = 0 := rfl

@[simp] theorem byteLength_cons (c : Char) (cs : List Char) :
    byteLength (c :: cs) = c.utf8Size + byteLength cs := rfl

@[simp] theorem byteLength_append (xs ys : List Char) :
    byteLength (xs ++ ys) = byteLength xs + byteLength ys := by
  induction xs with
  | nil => simp
  | cons c cs ih => simp [ih,Nat.add_assoc]

/-- Cuts a text at a byte offset. `none` past the end and inside a character. -/
def splitAtByte : List Char → Nat → Option (List Char × List Char)
  | cs, 0 => some ([], cs)
  | [], _ + 1 => none
  | c :: cs, n + 1 =>
    if c.utf8Size ≤ n + 1 then
      (splitAtByte cs (n + 1 - c.utf8Size)).map fun (left, right) => (c :: left, right)
    else none

def bytesBefore : List Char → Nat → Option Nat
  | _, 0 => some 0
  | [], _ + 1 => none
  | c :: cs, column + 1 => (bytesBefore cs column).map (c.utf8Size + ·)

structure LineTable where
  /-- Offset of the first character of each line, in order; the first line starts at 0. -/
  starts : List Nat
  /-- Length of the text in bytes. -/
  size : Nat

namespace LineTable

def startsAfter (offset : Nat) : List Char → List Nat
  | [] => []
  | c :: cs =>
    let next := offset + c.utf8Size
    if c = '\n' then next :: startsAfter next cs else startsAfter next cs

def ofChars (text : List Char) : LineTable where
  starts := 0 :: startsAfter 0 text
  size := byteLength text

def count (table : LineTable) : Nat :=
  table.starts.length

def start? (table : LineTable) (line : Nat) : Option Nat :=
  table.starts[line]?

/-- Offset just past the last character of the line, its line feed excluded. -/
def stop? (table : LineTable) (line : Nat) : Option Nat :=
  if line < table.starts.length then
    match table.starts[line + 1]? with
    | some next => some (next - 1)
    | none => some table.size
  else none

/-- Offset of a position of `text`. The column may equal the length of its line; a missing
line or a larger column gives `none`. -/
def offset? (table : LineTable) (text : List Char) (p : Position) : Option Nat := do
  let start ← table.start? p.line
  let stop ← table.stop? p.line
  let (_, rest) ← splitAtByte text start
  let (line, _) ← splitAtByte rest (stop - start)
  let bytes ← bytesBefore line p.column
  return start + bytes

/-- The line that holds an offset: the last one that starts at or before it. -/
def lineOf (table : LineTable) (offset : Nat) : Nat :=
  table.starts.countP (· ≤ offset) - 1

/-- Position of a byte offset of `text`. Offsets past the end count as the end, and one
inside a character gets column 0. -/
def position (table : LineTable) (text : List Char) (offset : Nat) : Position :=
  let offset := min offset table.size
  let line := table.lineOf offset
  let start := (table.start? line).getD 0
  let column := do
    let (_, rest) ← splitAtByte text start
    let (left, _) ← splitAtByte rest (offset - start)
    return left.length
  ⟨line, column.getD 0⟩

end LineTable

end CodeCompletion
