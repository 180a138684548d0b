import CodeCompletion.Token.StringLiteral

/-! Template literals. Outside a substitution only the backslash, the backtick and the opening of a
substitution matter; inside one, braces are counted and strings and templates are skipped whole. A
template that does not end is reported where it starts. -/
namespace CodeCompletion

/-- The text of a template after its opening backtick, put together as it is read; the closing
backtick is counted. `start` is where the template starts, `here` where `text` does, and `depth`
counts the braces open in the current substitution, 0 outside of one. -/
def templateText (start here : Place) (depth : Nat) (text : List Char) :
    Except SyntaxError (Reading (List Char)) :=
  match text with
  | [] => .error ⟨.unterminatedTemplate, start.position⟩
  | c :: rest =>
    if depth = 0 then
      if c = '\x60' then .ok ⟨[], 1⟩
      else if c = '\\' then
        match rest with
        | [] => .error ⟨.unterminatedTemplate, start.position⟩
        | next :: rest =>
          (templateText start ((here.after c).after next) 0 rest).map fun later =>
            ⟨c :: next :: later.value, 2 + later.size⟩
      else if c = '$' ∧ rest.head? = some '\x7b' then
        (templateText start ((here.after c).after '\x7b') 1 (rest.drop 1)).map fun later =>
          ⟨'$' :: '\x7b' :: later.value, 2 + later.size⟩
      else
        (templateText start (here.after c) 0 rest).map fun later =>
          ⟨c :: later.value, 1 + later.size⟩
    else if c = '\x60' then
      match templateText here (here.after c) 0 rest with
      | .error e => .error e
      | .ok inner =>
        let here := (here.after c).afterAll (rest.take inner.size)
        (templateText start here depth (rest.drop inner.size)).map fun later =>
          ⟨'\x60' :: (inner.value ++ '\x60' :: later.value), 1 + inner.size + later.size⟩
    else if c = '"' ∨ c = '\'' then
      match stringBody c rest with
      | .error reason => .error ⟨reason, here.position⟩
      | .ok body =>
        let here := (here.after c).afterAll (rest.take body.size)
        -- A string keeps its escapes as they are written.
        (templateText start here depth (rest.drop body.size)).map fun later =>
          ⟨c :: (rest.take body.size ++ later.value), 1 + body.size + later.size⟩
    else
      let depth := if c = '\x7b' then depth + 1 else if c = '\x7d' then depth - 1 else depth
      (templateText start (here.after c) depth rest).map fun later =>
        ⟨c :: later.value, 1 + later.size⟩
termination_by text.length
decreasing_by all_goals simp only [List.length_cons,List.length_drop]; omega

def templateLiteral (start : Place) : List Char → Except SyntaxError (Reading String)
  | [] => .error ⟨.unterminatedTemplate, start.position⟩
  | tick :: rest =>
    (templateText start (start.after tick) 0 rest).map fun raw =>
      ⟨String.ofList raw.value, 1 + raw.size⟩

end CodeCompletion
