import CodeCompletion.Token.Gap
import CodeCompletion.Token.NumberLiteral
import CodeCompletion.Token.Punctuation
import CodeCompletion.Token.RegexLiteral
import CodeCompletion.Token.TemplateLiteral
import CodeCompletion.Token.Word

/-! The lexemes of a text, the last one being the end of input. `lexText` fails with the first
construct that is not a token. -/
namespace CodeCompletion

/-- Whether a slash starts a regular expression after the given token: not after a value. -/
def Token.allowsRegex : Option Token → Bool
  | none => true
  | some (.word text) => isReserved text && !isValueWord text
  | some (.str _) | some (.template _) | some (.num _) | some (.regex _ _) => false
  | some .rightParen | some .rightBracket | some .rightBrace => false
  | some (.op text) => text ≠ "++" && text ≠ "--"
  | some _ => true

/-- A slash: a regular expression after what is no value, else a division. -/
def slashToken (last : Option Token) (text : List Char) :
    Except SyntaxError.Reason (Reading Token) :=
  if Token.allowsRegex last then
    (regexLiteral text).map fun r => ⟨.regex r.value.1 r.value.2, r.size⟩
  else
    match text with
    | _ :: '=' :: _ => .ok ⟨.op "/=", 2⟩
    | _ => .ok ⟨.op "/", 1⟩

def readToken (start : Place) (last : Option Token) (c : Char) (rest : List Char) :
    Except SyntaxError (Reading Token) :=
  let text := c :: rest
  let atStart {α : Type} : Except SyntaxError.Reason α → Except SyntaxError α :=
    Except.mapError fun reason => ⟨reason, start.position⟩
  if c = '"' ∨ c = '\'' then
    atStart ((stringLiteral text).map fun r => ⟨.str r.value, r.size⟩)
  else if c = '\x60' then
    (templateLiteral start text).map fun r => ⟨.template r.value, r.size⟩
  else if c.isDigit ∨ c = '.' ∧ rest.head?.any Char.isDigit then
    atStart ((numberLiteral text).map fun r => ⟨.num r.value, r.size⟩)
  else if isNameStart c then
    let name := text.takeWhile isNameContinue
    .ok ⟨.word (String.ofList name), name.length⟩
  else if c = '\\' then
    .error ⟨.escapedName, start.position⟩
  else if c = '/' then
    atStart (slashToken last text)
  else
    match punctuator? text with
    | some r => .ok r
    | none => .error ⟨.unexpectedCharacter c, start.position⟩

def lexemes (here : Place) (last : Option Token) (text : List Char) :
    Except SyntaxError (List Lexeme) :=
  match gapLength here text with
  | .error e => .error e
  | .ok gap =>
    let start := here.afterAll (text.take gap)
    let newline := (text.take gap).contains '\n'
    match _h : text.drop gap with
    | [] => .ok [⟨.endOfInput, ⟨start, start⟩, newline⟩]
    | c :: rest =>
      match readToken start last c rest with
      | .error e => .error e
      | .ok r =>
        let stop := start.afterAll ((c :: rest).take r.size)
        match lexemes stop (some r.value) (rest.drop (r.size - 1)) with
        | .error e => .error e
        | .ok tail => .ok (⟨r.value, ⟨start, stop⟩, newline⟩ :: tail)
termination_by text.length
decreasing_by
  have := congrArg List.length _h
  simp only [List.length_drop,List.length_cons] at this ⊢
  omega

def lexChars (text : List Char) : Except SyntaxError (List Lexeme) :=
  let skipped := interpreterLine text
  lexemes (Place.origin.afterAll (text.take skipped)) none (text.drop skipped)

def lexText (text : String) : Except SyntaxError (List Lexeme) :=
  lexChars text.toList

/-- Whether a text is one word that is not reserved, and nothing else. -/
def isName (text : String) : Bool :=
  match lexText text with
  | .ok [⟨.word name, span, _⟩, _] =>
    span.start.offset = 0 && span.stop.offset = text.utf8ByteSize && !isReserved name
  | _ => false

end CodeCompletion
