import CodeCompletion.Text.CharClass
import CodeCompletion.Token.Reading

/-! String literals. An escape stands for one character, except that a backslash before a line
break stands for none. A surrogate written as `\uHHHH` has no character of its own and reads as
U+FFFD. -/
namespace CodeCompletion

open SyntaxError.Reason

/-- The character of a code point; `none` for surrogates and numbers that are too large. -/
def charOfCode? (n : Nat) : Option Char :=
  if h : n.isValidChar then some (Char.ofNatAux n h) else none

/-- The code point written between braces. One plus sign may lead. -/
def codeInBraces? (digits : List Char) : Option Nat :=
  let digits :=
    match digits with
    | '+' :: rest => rest
    | _ => digits
  if digits.isEmpty then none else digitsValue? 16 digits

def hexCharacter (count : Nat) (text : List Char) : Except SyntaxError.Reason Char :=
  let digits := text.take count
  if digits.length = count then
    match digitsValue? 16 digits with
    | some n => .ok ((charOfCode? n).getD '�')
    | none => .error invalidHexEscape
  else .error invalidHexEscape

/-- The characters that an escape stands for, read after its backslash. -/
def escape : Reader (List Char)
  | [] => .error unterminatedEscape
  | 'n' :: _ => .ok ⟨['\n'], 1⟩
  | 't' :: _ => .ok ⟨['\t'], 1⟩
  | 'r' :: _ => .ok ⟨['\r'], 1⟩
  | 'b' :: _ => .ok ⟨['\x08'], 1⟩
  | 'f' :: _ => .ok ⟨['\x0c'], 1⟩
  | 'v' :: _ => .ok ⟨['\x0b'], 1⟩
  | '0' :: rest => if rest.head?.any Char.isDigit then .ok ⟨['0'], 1⟩ else .ok ⟨['\x00'], 1⟩
  | '\n' :: _ => .ok ⟨[], 1⟩
  | '\r' :: '\n' :: _ => .ok ⟨[], 2⟩
  | '\r' :: _ => .ok ⟨[], 1⟩
  | 'x' :: rest => (hexCharacter 2 rest).map fun c => ⟨[c], 3⟩
  | 'u' :: '\x7b' :: rest =>
    let digits := rest.takeWhile (· ≠ '\x7d')
    if digits.length < rest.length then
      match (codeInBraces? digits).bind charOfCode? with
      | some c => .ok ⟨[c], digits.length + 3⟩
      | none => .error invalidUnicodeEscape
    else .error unterminatedUnicodeEscape
  | 'u' :: rest => (hexCharacter 4 rest).map fun c => ⟨[c], 5⟩
  | c :: _ => .ok ⟨[c], 1⟩

def stringBody (quote : Char) (text : List Char) :
    Except SyntaxError.Reason (Reading (List Char)) :=
  match text with
  | [] => .error unterminatedString
  | c :: rest =>
    if c = '\n' then .error unterminatedString
    else if c = quote then .ok ⟨[], 1⟩
    else if c = '\\' then
      match escape rest with
      | .error reason => .error reason
      | .ok e =>
        match stringBody quote (rest.drop e.size) with
        | .error reason => .error reason
        | .ok body => .ok ⟨e.value ++ body.value, 1 + e.size + body.size⟩
    else
      match stringBody quote rest with
      | .error reason => .error reason
      | .ok body => .ok ⟨c :: body.value, 1 + body.size⟩
termination_by text.length
decreasing_by all_goals simp only [List.length_cons,List.length_drop]; omega

def stringLiteral : Reader String
  | [] => .error unterminatedString
  | quote :: rest =>
    (stringBody quote rest).map fun body => ⟨String.ofList body.value, 1 + body.size⟩

end CodeCompletion
