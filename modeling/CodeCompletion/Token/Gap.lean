import CodeCompletion.Text.CharClass
import CodeCompletion.Token.Reading

/-! What may stand between tokens: blanks, the byte order mark, line comments up to their line
feed, and block comments up to the first `*/`. -/
namespace CodeCompletion

/-- Length of a block comment after its opening, the closing included; `none` when it does
not end. -/
def commentBody : List Char → Option Nat
  | [] => none
  | '*' :: '/' :: _ => some 2
  | _ :: rest => (commentBody rest).map (1 + ·)

def isGapChar (c : Char) : Bool :=
  isBlank c || c.toNat = 0xfeff

def gapLength (here : Place) (text : List Char) : Except SyntaxError Nat :=
  match text with
  | '/' :: '/' :: rest =>
    let size := 2 + runLength (· ≠ '\n') rest
    (gapLength (here.afterAll (text.take size)) (rest.drop (size - 2))).map (size + ·)
  | '/' :: '*' :: rest =>
    match commentBody rest with
    | none => .error ⟨.unterminatedComment, here.position⟩
    | some body =>
      let size := 2 + body
      (gapLength (here.afterAll (text.take size)) (rest.drop body)).map (size + ·)
  | c :: rest =>
    if isGapChar c then (gapLength (here.after c) rest).map (1 + ·) else .ok 0
  | [] => .ok 0
termination_by text.length
decreasing_by all_goals simp only [List.length_cons,List.length_drop]; omega

/-- Length of a first line that starts with `#!`, its line feed excluded. -/
def interpreterLine (text : List Char) : Nat :=
  match text with
  | '#' :: '!' :: _ => runLength (· ≠ '\n') text
  | _ => 0

end CodeCompletion
