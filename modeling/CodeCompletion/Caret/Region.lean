import CodeCompletion.Text.CharClass

/-! Which lexical region a character lies in, found by a scan from the start of the text. The scan
tells code from literals and comments without reading tokens, so it works on text that is not a
program. -/
namespace CodeCompletion

inductive Region where
  | code
  | lineComment
  | blockComment
  | quoted (quote : Char)
  | template
  | regex (inClass : Bool)
deriving DecidableEq

structure RegionState where
  region : Region
  /-- Braces open in the substitution of each template around, innermost first; 0 in the
  text of a template. -/
  templates : List Nat
  previous : Option Char
  /-- The last character of code that is not blank. -/
  significant : Option Char
  escaped : Bool
  /-- Whether the next character is the second half of an opening. -/
  skipping : Bool
deriving DecidableEq

namespace RegionState

def initial : RegionState where
  region := .code
  templates := []
  previous := none
  significant := none
  escaped := false
  skipping := false

/-- Back to code after a literal, which leaves the scan where an operator can follow. -/
def endLiteral (s : RegionState) : RegionState :=
  { s with region := .code, significant := some ')' }

def allowsRegex (s : RegionState) : Bool :=
  match s.significant with
  | none => true
  | some c => !(isNameContinue c || c = ')' || c = ']' || c = '\x7d')

def note (s : RegionState) (c : Char) : RegionState :=
  if isBlank c then s else { s with significant := some c }

/-- Opens a brace in the innermost substitution, if there is one. -/
def openBrace (s : RegionState) : RegionState :=
  match s.templates with
  | depth :: outer => if 0 < depth then { s with templates := (depth + 1) :: outer } else s
  | [] => s

def readCode (s : RegionState) (c : Char) (next : Option Char) : RegionState :=
  if c = '/' ∧ next = some '/' then { s with region := .lineComment }.note c
  else if c = '/' ∧ next = some '*' then { s with region := .blockComment, skipping := true }
  else if c = '/' ∧ s.allowsRegex then { s with region := .regex false }
  else if c = '\'' ∨ c = '"' then { s with region := .quoted c }
  else if c = '\x60' then { s with region := .template, templates := 0 :: s.templates }
  else if c = '\x7b' then s.openBrace.note c
  else if c = '\x7d' then
    match s.templates with
    | 1 :: outer => { s with region := .template, templates := 0 :: outer }
    | depth :: outer => { s with templates := (depth - 1) :: outer }.note c
    | [] => s.note c
  else s.note c

/-- A character of a region that a backslash can escape from; `plain` handles the others. -/
def readEscapable (s : RegionState) (c : Char) (plain : RegionState) : RegionState :=
  if s.escaped then { s with escaped := false }
  else if c = '\\' then { s with escaped := true }
  else plain

def readTemplate (s : RegionState) (c : Char) (next : Option Char) : RegionState :=
  if c = '\x60' then { s with templates := s.templates.drop 1 }.endLiteral
  else if c = '$' ∧ next = some '\x7b' then
    { s with
      region := .code
      templates := s.templates.modifyHead fun _ => 1
      significant := some '\x7b'
      skipping := true }
  else s

def readRegex (s : RegionState) (inClass : Bool) (c : Char) : RegionState :=
  if c = '\n' then { s with region := .code }
  else if inClass then if c = ']' then { s with region := .regex false } else s
  else if c = '[' then { s with region := .regex true }
  else if c = '/' then s.endLiteral
  else s

def read (s : RegionState) (c : Char) (next : Option Char) : RegionState :=
  if s.skipping then { s with skipping := false, previous := none }
  else
    let after :=
      match s.region with
      | .code => s.readCode c next
      | .lineComment => if c = '\n' then { s with region := .code } else s
      | .blockComment =>
        if c = '/' ∧ s.previous = some '*' then { s with region := .code } else s
      | .quoted quote =>
        s.readEscapable c (if c = quote ∨ c = '\n' then s.endLiteral else s)
      | .template => s.readEscapable c (s.readTemplate c next)
      | .regex inClass => s.readEscapable c (s.readRegex inClass c)
    { after with previous := some c }

end RegionState

end CodeCompletion
