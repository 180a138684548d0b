import CodeCompletion.Text.CharClass
import CodeCompletion.Token.Reading

/-! Regular expression literals. A slash inside a character class does not end the pattern, and no
line break may stand in it. -/
namespace CodeCompletion

open SyntaxError.Reason

/-- A pattern after its opening slash, put together as it is read; the closing slash is
counted. -/
def regexPattern (inClass : Bool) : List Char → Except SyntaxError.Reason (Reading (List Char))
  | [] => .error unterminatedRegex
  | c :: rest =>
    if c = '\n' then .error unterminatedRegex
    else if c = '\\' then
      match rest with
      | [] => .error unterminatedRegex
      | next :: rest =>
        if next = '\n' then .error unterminatedRegex
        else
          (regexPattern inClass rest).map fun later =>
            ⟨c :: next :: later.value, 2 + later.size⟩
    else if c = '/' ∧ inClass = false then .ok ⟨[], 1⟩
    else
      let inClass := if c = '[' then true else if c = ']' then false else inClass
      (regexPattern inClass rest).map fun later => ⟨c :: later.value, 1 + later.size⟩

def regexLiteral : Reader (String × String)
  | [] => .error unterminatedRegex
  | _ :: rest =>
    match regexPattern false rest with
    | .error reason => .error reason
    | .ok pattern =>
      let flags := (rest.drop pattern.size).takeWhile isNameContinue
      .ok ⟨(String.ofList pattern.value, String.ofList flags),
        1 + pattern.size + flags.length⟩

end CodeCompletion
