import CodeCompletion.Proofs.Token.Escape
import CodeCompletion.Proofs.Token.Truncation
import CodeCompletion.Proofs.Token.Verbatim

/-! String literals in a text. However the characters of a string are written, it is read back;
and a text can be read only where all that stands behind a backslash is an escape. -/
namespace CodeCompletion

open Place

variable {quote : Char}

theorem readToken_quote (quotes : quote = '"' ∨ quote = '\'') (start : Place) (last : Option Token)
    (rest : List Char) : readToken start last quote rest =
      ((stringBody quote rest).map fun b =>
        (⟨.str (String.ofList b.value), b.size + 1⟩ : Reading Token)).mapError
        fun reason => ⟨reason, start.position⟩ := by
  simp only [readToken,quotes,if_true,stringLiteral]
  cases stringBody quote rest <;> simp [Except.map,Nat.add_comm 1]

theorem solid_quote (quotes : quote = '"' ∨ quote = '\'') (rest : List Char) :
    Solid (quote :: rest) := by
  rcases quotes with rfl | rfl
  all_goals exact ⟨by decide, by simp⟩

section Writing

inductive CharForm (quote : Char) : List Char → Char → Prop where
  | itself {c : Char} (other : c ≠ quote) (unescaped : c ≠ '\\') (inLine : c ≠ '\n') :
      CharForm quote [c] c
  | backslash {c : Char} (special : c = quote ∨ c = '\\') : CharForm quote ['\\', c] c
  | letter {name c : Char} (listed : (name, c) ∈ letterEscapes) : CharForm quote ['\\', name] c
  | byte {digits : List Char} {c : Char} (two : digits.length = 2)
      (spelled : HexNumeral digits c.toNat) : CharForm quote ('\\' :: 'x' :: digits) c
  | unit {digits : List Char} {c : Char} (four : digits.length = 4)
      (spelled : HexNumeral digits c.toNat) : CharForm quote ('\\' :: 'u' :: digits) c
  | braced {digits : List Char} {c : Char} (nonempty : digits ≠ [])
      (spelled : HexNumeral digits c.toNat) :
      CharForm quote ('\\' :: 'u' :: '\x7b' :: (digits ++ ['\x7d'])) c

/-- The ways to write a string between quotes: each character in one of its ways, and lines broken
behind a backslash wherever one likes. -/
inductive StringForm (quote : Char) : List Char → List Char → Prop where
  | nil : StringForm quote [] []
  | lineBreak {text value : List Char} (later : StringForm quote text value) :
      StringForm quote ('\\' :: '\n' :: text) value
  | char {first text value : List Char} {c : Char} (here : CharForm quote first c)
      (later : StringForm quote text value) : StringForm quote (first ++ text) (c :: value)

theorem CharForm.stringText {first text value rest : List Char} {c : Char}
    (quotes : quote = '"' ∨ quote = '\'') (h : CharForm quote first c)
    (later : StringText quote rest text value) :
    StringText quote rest (first ++ text) (c :: value) := by
  cases h with
  | itself other unescaped inLine => exact .plain other unescaped inLine later
  | backslash special =>
    have escape : Escape (text ++ rest) [c] [c] := by
      refine .other ?_
      rcases special with rfl | rfl
      · rcases quotes with rfl | rfl <;> decide
      · decide
    exact .escape escape later
  | letter listed => exact .escape (.letter listed) later
  | byte two spelled => exact .escape (.byte two spelled) later
  | unit four spelled => exact .escape (.unit four spelled (Or.inl rfl)) later
  | braced nonempty spelled => exact .escape (.braced (.plain nonempty spelled)) later

theorem StringForm.stringText {text value : List Char} (quotes : quote = '"' ∨ quote = '\'')
    (h : StringForm quote text value) (rest : List Char) : StringText quote rest text value := by
  induction h with
  | nil => exact .nil
  | lineBreak _ ih => exact .escape .feed ih
  | char here _ ih => exact here.stringText quotes ih

/-- A text that stands for a string is read as one, if the quote comes behind it. -/
theorem stringBody_closed_of_text {body value rest : List Char}
    (quotes : quote = '"' ∨ quote = '\'') (h : StringText quote (quote :: rest) body value) :
    stringBody quote (body ++ quote :: rest) = .ok ⟨value, body.length + 1⟩ := by
  have closed : stringBody quote (quote :: rest) = .ok ⟨[], 1⟩ := by
    rcases quotes with rfl | rfl <;> simp [stringBody]
  rw [stringBody_append_of_text quotes h,closed]
  simp [Except.map]

theorem lexemes_nil (here : Place) (last : Option Token) :
    lexemes here last [] = .ok [⟨.endOfInput, ⟨here, here⟩, false⟩] :=
  lexemes_of_lexed (.done (by rw [gapLength]; rfl))

/-- A string is read back from all of its written forms. -/
theorem lexText_written (value : String) (quote : Char) (text : List Char)
    (quotes : quote = '"' ∨ quote = '\'') (written : StringForm quote text value.toList) :
    (lexText (String.ofList (quote :: (text ++ [quote])))).map (·.map Lexeme.token) =
      .ok [.str value, .endOfInput] := by
  have closed := stringBody_closed_of_text quotes (written.stringText quotes [quote])
  have read : readToken (origin.afterAll []) none quote ((text ++ [quote]) ++ []) =
      .ok ⟨.str value, (text ++ [quote]).length + 1⟩ := by
    rw [readToken_quote quotes,List.append_nil,closed]
    simp [Except.map,Except.mapError]
  have length : gapLength origin ([] ++ quote :: ((text ++ [quote]) ++ [])) = .ok 0 :=
    gapLength_of_gap .nil (solid_quote quotes _) origin
  have unmarked : interpreterLine (quote :: (text ++ [quote])) = 0 := by
    rcases quotes with rfl | rfl <;> rfl
  have lexed := lexemes_token length read
  rw [lexemes_nil,List.nil_append,List.append_nil] at lexed
  rw [lexText,lexChars,String.toList_ofList,unmarked]
  simp only [List.take_zero,List.drop_zero,afterAll_nil,lexed]
  rfl

/-- A backslash before what would be an escape, a digit behind the digits of one, a broken line, and
a character outside the first plane. -/
theorem lexText_written_mixed :
    StringForm '\'' "\\\\n\\x411\\\n\\u\x7b1F600\x7d\\'\\u00e9\\v\"".toList "\\nA1😀'é\x0b\"".toList ∧
    (lexText (String.ofList ('\'' :: ("\\\\n\\x411\\\n\\u\x7b1F600\x7d\\'\\u00e9\\v\"".toList ++
      ['\''])))).map (·.map Lexeme.token) = .ok [.str "\\nA1😀'é\x0b\"", .endOfInput] := by
  have hex (digits : List Char) (n : Nat) (spelled : digitsValue? 16 digits = some n) :
      HexNumeral digits n := digitsValue?_eq_some.mp spelled
  have written : StringForm '\'' "\\\\n\\x411\\\n\\u\x7b1F600\x7d\\'\\u00e9\\v\"".toList
      "\\nA1😀'é\x0b\"".toList :=
    .char (.backslash (Or.inr rfl)) <|
    .char (.itself (by decide) (by decide) (by decide)) <|
    .char (@CharForm.byte _ ['4', '1'] _ rfl (hex _ 0x41 (by decide))) <|
    .char (.itself (by decide) (by decide) (by decide)) <|
    .lineBreak <|
    .char (@CharForm.braced _ ['1', 'F', '6', '0', '0'] _ (by decide) (hex _ 0x1f600 (by decide))) <|
    .char (.backslash (Or.inl rfl)) <|
    .char (@CharForm.unit _ ['0', '0', 'e', '9'] _ rfl (hex _ 0xe9 (by decide))) <|
    .char (.letter (by decide)) <|
    .char (.itself (by decide) (by decide) (by decide)) .nil
  exact ⟨written, lexText_written _ _ _ (Or.inr rfl) written⟩

end Writing

section Arrival

/-- The reader of tokens gets to `rest`, with `before` behind it and `last` as the last token. -/
inductive Arrives (text : List Char) : List Char → Option Token → List Char → Prop where
  | start : Arrives text (text.take (interpreterLine text)) none (text.drop (interpreterLine text))
  | token {before gap chars rest : List Char} {c : Char} {last : Option Token} {token : Token}
      (here : Arrives text before last (gap ++ c :: (chars ++ rest)))
      (length : gapLength (origin.afterAll before) (gap ++ c :: (chars ++ rest)) = .ok gap.length)
      (read : readToken (origin.afterAll (before ++ gap)) last c (chars ++ rest) =
        .ok ⟨token, chars.length + 1⟩) :
      Arrives text (before ++ (gap ++ c :: chars)) (some token) rest

/-- What is still to be read decides how the whole text ends. -/
theorem Arrives.lexChars {text before rest : List Char} {last : Option Token}
    (h : Arrives text before last rest) : ∃ front : List Lexeme,
      lexChars text = (lexemes (origin.afterAll before) last rest).map (front ++ ·) := by
  induction h with
  | start =>
    refine ⟨[], ?_⟩
    simp only [CodeCompletion.lexChars,List.nil_append]
    cases lexemes _ none (text.drop (interpreterLine text)) <;> rfl
  | @token before gap chars rest c last token here length read ih =>
    obtain ⟨front, whole⟩ := ih
    rw [afterAll_append] at read
    rw [lexemes_token length read,← afterAll_append,← afterAll_append] at whole
    refine ⟨front ++ [⟨token, ⟨origin.afterAll (before ++ gap),
      origin.afterAll (before ++ (gap ++ c :: chars))⟩, gap.contains '\n'⟩], whole.trans ?_⟩
    cases lexemes _ (some token) rest with
    | error e => rfl
    | ok ls => simp [Except.map]

theorem Arrives.fails {text before gap rest : List Char} {c : Char} {last : Option Token}
    {e : SyntaxError} (h : Arrives text before last (gap ++ c :: rest)) (between : Gap (c :: rest) gap)
    (solid : Solid (c :: rest))
    (read : readToken (origin.afterAll (before ++ gap)) last c rest = .error e) :
    CodeCompletion.lexChars text = .error e := by
  obtain ⟨front, whole⟩ := h.lexChars
  rw [afterAll_append] at read
  rw [whole,lexemes_error (gapLength_of_gap between solid _) read]
  rfl

end Arrival

/-- The text of a string is made of characters and escapes, up to its second quote. -/
theorem Lexeme.Placed.stringText {l : Lexeme} {before chars after : List Char} {value : String}
    (placed : l.Placed before chars after) (token : l.token = .str value) :
    ∃ quote body, (quote = '"' ∨ quote = '\'') ∧ chars = quote :: (body ++ [quote]) ∧
      StringText quote (quote :: after) body value.toList := by
  obtain ⟨last, quote, more, rfl, read⟩ := placed.read
  have spelled := placed.spelling
  rw [token] at spelled read
  obtain ⟨_, _, quotes, opening, -⟩ := spelled.of_str
  obtain ⟨rfl, -⟩ := List.cons.inj opening
  rw [readToken_quote quotes] at read
  obtain ⟨b, closed, same⟩ := map_eq_ok.mp (mapError_eq_ok.mp read)
  obtain ⟨content, size⟩ := Reading.mk.inj same
  obtain ⟨body, after', whole, length, text⟩ := stringBody_sound closed
  have split : more ++ after = (body ++ [quote]) ++ after' := by simpa using whole
  obtain ⟨rfl, rfl⟩ := List.append_inj split (by simp; omega)
  refine ⟨quote, body, quotes, rfl, ?_⟩
  rwa [← Token.str.inj content,String.toList_ofList]

/-- Behind an opening quote nothing is read past a backslash that begins no escape. -/
theorem readToken_fails {body value text : List Char} (quotes : quote = '"' ∨ quote = '\'')
    (spelled : StringText quote ('\\' :: text) body value)
    (none : ∀ written rest stands, text = written ++ rest → ¬ Escape rest written stands)
    (start : Place) (last : Option Token) : ∃ reason ∈ escapeFaults,
      readToken start last quote (body ++ '\\' :: text) = .error ⟨reason, start.position⟩ := by
  obtain ⟨reason, fault, failed⟩ := escape_fails none
  have stops : stringBody quote ('\\' :: text) = .error reason := by
    simp [stringBody,backslash_ne_quote quotes,failed]
  refine ⟨reason, fault, ?_⟩
  rw [readToken_quote quotes,stringBody_append_of_text quotes spelled,stops]
  rfl

/-- Wherever a string is read, it is made of characters and escapes; and where the reader finds a
quote and then something that is no escape behind a backslash, it fails at that quote. -/
theorem lexText_escapes (source : String) :
    (∀ ls, lexText source = .ok ls → ∀ l ∈ ls, ∀ value, l.token = .str value →
      ∃ quote body after, (quote = '"' ∨ quote = '\'') ∧
        l.span.cut? source.toList = some (quote :: (body ++ [quote]), after) ∧
        StringText quote (quote :: after) body value.toList) ∧
    (∀ before last gap quote body value text, (quote = '"' ∨ quote = '\'') →
      Arrives source.toList before last (gap ++ quote :: (body ++ '\\' :: text)) →
      Gap (quote :: (body ++ '\\' :: text)) gap → StringText quote ('\\' :: text) body value →
      (∀ written rest stands, text = written ++ rest → ¬ Escape rest written stands) →
      ∃ reason ∈ escapeFaults,
        lexText source = .error ⟨reason, (origin.afterAll (before ++ gap)).position⟩) := by
  constructor
  · intro ls lexed l member value token
    obtain ⟨before, chars, after, whole, placed⟩ :=
      placed_of_lexChars lexed member (by simp [token])
    obtain ⟨quote, body, quotes, rfl, text⟩ := placed.stringText token
    refine ⟨quote, body, after, quotes, ?_, text⟩
    rw [whole,placed.span]
    exact Span.cut?_afterAll before _ after
  · intro before last gap quote body value text quotes arrives between spelled none
    obtain ⟨reason, fault, failed⟩ :=
      readToken_fails quotes spelled none (origin.afterAll (before ++ gap)) last
    exact ⟨reason, fault, arrives.fails between (solid_quote quotes _) failed⟩

/-- Digits behind digits that belong to an escape, and a letter that is no digit in the place of
the last one. -/
theorem lexText_escapes_digits :
    (∃ ls, lexText "a='\\x414\\u\x7b042\x7d'" = .ok ls ∧
      ∃ l ∈ ls, l.token = .str "A4B" ∧ ∃ quote body after, (quote = '"' ∨ quote = '\'') ∧
        l.span.cut? "a='\\x414\\u\x7b042\x7d'".toList = some (quote :: (body ++ [quote]), after) ∧
        StringText quote (quote :: after) body "A4B".toList) ∧
    (Arrives "a 'b\\x4g'".toList ['a'] (some (.word "a")) " 'b\\x4g'".toList ∧
      ∃ reason ∈ escapeFaults, lexText "a 'b\\x4g'" = .error ⟨reason, ⟨0, 2⟩⟩) := by
  have read : lexText "a='\\x414\\u\x7b042\x7d'" = .ok
      [⟨.word "a", ⟨⟨0, ⟨0, 0⟩⟩, ⟨1, ⟨0, 1⟩⟩⟩, false⟩,
        ⟨.op "=", ⟨⟨1, ⟨0, 1⟩⟩, ⟨2, ⟨0, 2⟩⟩⟩, false⟩,
        ⟨.str "A4B", ⟨⟨2, ⟨0, 2⟩⟩, ⟨16, ⟨0, 16⟩⟩⟩, false⟩,
        ⟨.endOfInput, ⟨⟨16, ⟨0, 16⟩⟩, ⟨16, ⟨0, 16⟩⟩⟩, false⟩] := by decide +kernel
  have arrives : Arrives "a 'b\\x4g'".toList ['a'] (some (.word "a")) " 'b\\x4g'".toList := by
    have solid : Solid ('a' :: ([] ++ " 'b\\x4g'".toList)) := ⟨by decide, by decide⟩
    have length := gapLength_of_gap .nil solid (origin.afterAll [])
    exact .token .start length rfl
  have failed : escape "x4g'".toList = .error .invalidHexEscape := rfl
  refine ⟨⟨_, read, _, List.mem_cons_of_mem _ (List.mem_cons_of_mem _ List.mem_cons_self), rfl,
    (lexText_escapes _).1 _ read _ (by simp) _ rfl⟩, arrives, ?_⟩
  refine (lexText_escapes "a 'b\\x4g'").2 ['a'] _ [' '] '\'' ['b'] ['b'] "x4g'".toList (Or.inr rfl)
    arrives (.blank (Or.inl (by decide)) .nil) (.plain (by decide) (by decide) (by decide) .nil) ?_
  intro written rest stands whole found
  have taken := escape_complete found
  rw [← whole,failed] at taken
  cases taken

/-- A plus sign may stand before the digits between braces. -/
theorem signed_escape_read :
    (lexText "'\\u\x7b+41\x7d'").map (·.map Lexeme.token) = .ok [.str "A", .endOfInput] ∧
      ∀ n, ¬ HexNumeral "+41".toList n := by
  refine ⟨by decide +kernel, fun n spelled => ?_⟩
  exact spelled.no_sign '+' (by decide) (by decide)

end CodeCompletion
