import CodeCompletion.Caret.Intent
import CodeCompletion.Caret.Region
import CodeCompletion.Text.LineTable
import CodeCompletion.Token.Stream

/-! From a caret to an intent. Only a slice of the text around the caret is read into tokens: from
the last line that starts in code to the end of the caret's line, and further while a literal or
comment is still open there. There is no intent in literals, comments, numbers and blanks, for a
caret outside the text, and where the slice cannot be read. -/
namespace CodeCompletion

/-- Scans the text before the caret. Gives the scanner at the caret and the number of
characters since the last line that starts in code; `after` is the text from the caret on
and `since` counts the characters so far. -/
def scanBefore (after : List Char) (s : RegionState) (since : Nat) :
    List Char → RegionState × Nat
  | [] => (s, since)
  | c :: rest =>
    let s := s.read c (rest.head?.or after.head?)
    let since := if c = '\n' ∧ s.region = .code then 0 else since + 1
    scanBefore after s since rest

/-- How many characters from the caret on belong to the slice. `inLine` holds until the
end of the caret's line. -/
def sliceExtent (s : RegionState) (inLine : Bool) : List Char → Nat
  | [] => 0
  | c :: rest =>
    let inLine := inLine && c ≠ '\n'
    if !inLine && s.region = .code then 0
    else 1 + sliceExtent (s.read c rest.head?) inLine rest

def surroundingSlice (before after : List Char) : Option (List Char × List Char) :=
  let (s, since) := scanBefore after .initial 0 before
  if s.region = .code then
    some (before.drop (before.length - since), after.take (sliceExtent s true after))
  else none

/-- The first index from `low` up to `high` at which `p` fails, by halving: `p` is to hold up to
some index and to fail from there on. -/
def partitionPoint {α : Type} (p : α → Bool) (xs : Array α) (low high : Nat) : Nat :=
  if low < high then
    let middle := (low + high) / 2
    if xs[middle]?.any p then partitionPoint p xs (middle + 1) high
    else partitionPoint p xs low middle
  else low
termination_by high - low

/-- Index of the first token that ends at or after an offset, if it also starts before it. -/
def touchedToken? (lexemes : List Lexeme) (offset : Nat) : Option Nat := do
  let index := partitionPoint (·.span.stop.offset < offset) lexemes.toArray 0 lexemes.length
  let lexeme ← lexemes[index]?
  if lexeme.token = .endOfInput ∨ offset ≤ lexeme.span.start.offset then none
  else some index

def isLinkable (word : String) : Bool :=
  word = "this" || !isReserved word

/-- The chain that ends with the first of these tokens, which are in reverse order, and
what it hangs on: a name, a string or a regular expression. -/
def chainEndingIn : List Token → Option (List String × IntentKind)
  | .word word :: rest =>
    if isLinkable word then
      match rest with
      | .dot :: rest | .questionDot :: rest =>
        (chainEndingIn rest).map fun (chain, kind) => (chain ++ [word], kind)
      | _ => some ([word], .identifier)
    else none
  | .str _ :: _ | .template _ :: _ => some ([], .string)
  | .regex _ _ :: _ => some ([], .regex)
  | _ => none

def intentAtDot (before : List Token) : Option Intent :=
  (chainEndingIn before).map fun (chain, kind) =>
    if kind = .identifier then ⟨.property, chain⟩
    else ⟨kind, if chain.isEmpty then [] else chain ++ [""]⟩

/-- The intent in or after a word of which `typed` stands before the caret. -/
def intentInWord (before : List Token) (typed : String) : Option Intent :=
  match before with
  | .dot :: rest | .questionDot :: rest =>
    (chainEndingIn rest).map fun (chain, kind) => ⟨kind, chain ++ [typed]⟩
  | _ => some ⟨.identifier, [typed]⟩

def intentAmong (lexemes : List Lexeme) (offset : Nat) : Option Intent := do
  let index ← touchedToken? lexemes offset
  let lexeme ← lexemes[index]?
  let before := (lexemes.take index).reverse.map (·.token)
  match lexeme.token with
  | .dot | .questionDot => intentAtDot before
  | .word word =>
    let (typed, _) ← splitAtByte word.toList (offset - lexeme.span.start.offset)
    intentInWord before (String.ofList typed)
  | _ => none

def contextAt (source : String) (caret : Position) : Option Intent := do
  let text := source.toList
  let offset ← (LineTable.ofChars text).offset? text caret
  let (before, after) ← splitAtByte text offset
  let (left, right) ← surroundingSlice before after
  match lexChars (left ++ right) with
  | .ok lexemes => intentAmong lexemes (byteLength left)
  | .error _ => none

end CodeCompletion
