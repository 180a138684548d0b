import CodeCompletion.Proofs.Token.Spelling

/-! Tokens keep the text that they were read from: names, operators and punctuators as they stand,
templates and regular expressions between their delimiters. -/
namespace CodeCompletion

def Span.cut? (s : Span) (text : List Char) : Option (List Char × List Char) := do
  let (_, rest) ← splitAtByte text s.start.offset
  splitAtByte rest (s.stop.offset - s.start.offset)

theorem Span.cut?_afterAll (before chars after : List Char) :
    Span.cut? ⟨Place.origin.afterAll before, Place.origin.afterAll (before ++ chars)⟩
      (before ++ (chars ++ after)) = some (chars, after) := by
  simp [cut?,Place.offset_origin_afterAll,splitAtByte_append]

def Token.text? : Token → Option String
  | .word text | .op text => some text
  | .leftBrace => some "\x7b"
  | .rightBrace => some "\x7d"
  | .leftBracket => some "["
  | .rightBracket => some "]"
  | .leftParen => some "("
  | .rightParen => some ")"
  | .semicolon => some ";"
  | .comma => some ","
  | .colon => some ":"
  | .dot => some "."
  | .ellipsis => some "..."
  | .question => some "?"
  | .questionDot => some "?."
  | .arrow => some "=>"
  | .str _ | .template _ | .num _ | .regex _ _ | .endOfInput => none

/-- How a token has kept the characters it was read from, which stand before `after`. -/
structure Token.Keeps (token : Token) (chars after : List Char) : Prop where
  text : ∀ text, token.text? = some text → chars = text.toList
  template : ∀ raw, token = .template raw → chars = '\x60' :: (raw.toList ++ ['\x60'])
  regex : ∀ pattern flags, token = .regex pattern flags →
    chars = '/' :: (pattern.toList ++ '/' :: flags.toList) ∧
      flags.toList = (flags.toList ++ after).takeWhile isNameContinue

theorem marks_text : ∀ entry ∈ marks, entry.2.text? = some (String.ofList entry.1) := by
  decide +kernel

theorem takeWhile_append_of_ends {p : Char → Bool} {run rest : List Char}
    (inside : ∀ c ∈ run, p c = true) (ends : rest.head?.any p = false) :
    (run ++ rest).takeWhile p = run := by
  rw [List.takeWhile_append_of_pos inside]
  cases rest with
  | nil => simp
  | cons c rest =>
    have stops : p c = false := by simpa using ends
    simp [stops]

theorem Spelling.keeps {token : Token} {chars rest : List Char}
    (spelled : Spelling rest token chars) : token.Keeps chars rest := by
  cases spelled with
  | word starts continues ends =>
    refine ⟨fun text same => ?_, nofun, nofun⟩
    obtain rfl := Option.some.inj same
    exact String.toList_ofList.symm
  | string quotes => exact ⟨nofun, nofun, nofun⟩
  | escaped quotes escapes => exact ⟨nofun, nofun, nofun⟩
  | template =>
    refine ⟨nofun, fun raw same => ?_, nofun⟩
    cases same
    rw [String.toList_ofList]
  | number ends => exact ⟨nofun, nofun, nofun⟩
  | regex continues ends =>
    refine ⟨nofun, nofun, fun pattern flags same => ?_⟩
    cases same
    rw [String.toList_ofList,String.toList_ofList]
    exact ⟨rfl, (takeWhile_append_of_ends continues ends).symm⟩
  | mark listed =>
    have known := marks_text _ listed
    refine ⟨fun text same => ?_, fun raw same => ?_, fun pattern flags same => ?_⟩
    · obtain rfl := Option.some.inj (known.symm.trans same)
      exact String.toList_ofList.symm
    · cases same
      cases known
    · cases same
      cases known

/-- Every token of every text that can be read keeps what its span covers. -/
theorem lexText_keeps (source : String) (ls : List Lexeme) (h : lexText source = .ok ls) :
    ∀ l ∈ ls, l.token ≠ .endOfInput → ∃ chars after,
      l.span.cut? source.toList = some (chars, after) ∧ l.token.Keeps chars after := by
  intro l member other
  obtain ⟨before, chars, after, whole, placed⟩ := placed_of_lexChars h member other
  refine ⟨chars, after, ?_, placed.spelling.keeps⟩
  rw [whole,placed.span]
  exact Span.cut?_afterAll before chars after

/-- A slash in a class and one behind a backslash, and a template in a template next to a string
that has a brace in it. -/
theorem lexText_keeps_nested : ∃ ls,
    lexText "a=/[/]\\/\x60/g,\x60\\\x60$\x7b'\x7d'+\x60é\x60\x7d\x60" = .ok ls ∧
    ls.map (·.token) = [.word "a", .op "=", .regex "[/]\\/\x60" "g", .comma,
      .template "\\\x60$\x7b'\x7d'+\x60é\x60\x7d", .endOfInput] ∧
    ∀ l ∈ ls, l.token ≠ .endOfInput → ∃ chars after,
      l.span.cut? "a=/[/]\\/\x60/g,\x60\\\x60$\x7b'\x7d'+\x60é\x60\x7d\x60".toList =
        some (chars, after) ∧ l.token.Keeps chars after := by
  have read : lexText "a=/[/]\\/\x60/g,\x60\\\x60$\x7b'\x7d'+\x60é\x60\x7d\x60" = .ok
      [⟨.word "a", ⟨⟨0, ⟨0, 0⟩⟩, ⟨1, ⟨0, 1⟩⟩⟩, false⟩,
        ⟨.op "=", ⟨⟨1, ⟨0, 1⟩⟩, ⟨2, ⟨0, 2⟩⟩⟩, false⟩,
        ⟨.regex "[/]\\/\x60" "g", ⟨⟨2, ⟨0, 2⟩⟩, ⟨11, ⟨0, 11⟩⟩⟩, false⟩,
        ⟨.comma, ⟨⟨11, ⟨0, 11⟩⟩, ⟨12, ⟨0, 12⟩⟩⟩, false⟩,
        ⟨.template "\\\x60$\x7b'\x7d'+\x60é\x60\x7d", ⟨⟨12, ⟨0, 12⟩⟩, ⟨27, ⟨0, 26⟩⟩⟩, false⟩,
        ⟨.endOfInput, ⟨⟨27, ⟨0, 26⟩⟩, ⟨27, ⟨0, 26⟩⟩⟩, false⟩] := by decide +kernel
  exact ⟨_, read, rfl, lexText_keeps _ _ read⟩

end CodeCompletion
