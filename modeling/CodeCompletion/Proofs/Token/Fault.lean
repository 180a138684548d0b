import CodeCompletion.Proofs.Token.StringLiteral

/-! Where a text cannot be read. The reader fails at the first character of the construct that it
cannot read: a comment, a literal or a single character between tokens, or a literal inside the
substitution of a template that it is reading. -/
namespace CodeCompletion

open Place

theorem map_eq_error {ε α β : Type} {x : Except ε α} {f : α → β} {e : ε} :
    x.map f = .error e ↔ x = .error e := by
  cases x <;> simp [Except.map]

theorem mapError_eq_error {ε ε' α : Type} {x : Except ε α} {f : ε → ε'} {e : ε'} :
    x.mapError f = .error e ↔ ∃ e', x = .error e' ∧ f e' = e := by
  cases x <;> simp [Except.mapError]

section Constructs

/-- Behind the backtick of a template with the text `text`, its reader gets past `body` to `rest`.
`depth` counts the braces that are open in the current substitution, 0 outside of one. -/
inductive Skims (text : List Char) : List Char → Nat → List Char → Prop where
  | start : Skims text [] 0 text
  | escape {body rest : List Char} {c : Char} (here : Skims text body 0 ('\\' :: c :: rest)) :
      Skims text (body ++ ['\\', c]) 0 rest
  | opening {body rest : List Char} (here : Skims text body 0 ('$' :: '\x7b' :: rest)) :
      Skims text (body ++ ['$', '\x7b']) 1 rest
  | plain {body rest : List Char} {c : Char} (here : Skims text body 0 (c :: rest))
      (open_ : c ≠ '\x60') (unescaped : c ≠ '\\') (outside : ¬ (c = '$' ∧ rest.head? = some '\x7b')) :
      Skims text (body ++ [c]) 0 rest
  | template {body rest : List Char} {depth : Nat} {start place : Place} {inner : Reading (List Char)}
      (here : Skims text body depth ('\x60' :: rest)) (inside : depth ≠ 0)
      (read : templateText start place 0 rest = .ok inner) :
      Skims text (body ++ '\x60' :: rest.take inner.size) depth (rest.drop inner.size)
  | string {quote : Char} {body rest : List Char} {depth : Nat} {inner : Reading (List Char)}
      (here : Skims text body depth (quote :: rest)) (inside : depth ≠ 0)
      (quotes : quote = '"' ∨ quote = '\'') (read : stringBody quote rest = .ok inner) :
      Skims text (body ++ quote :: rest.take inner.size) depth (rest.drop inner.size)
  | code {body rest : List Char} {depth : Nat} {c : Char} (here : Skims text body depth (c :: rest))
      (inside : depth ≠ 0) (open_ : c ≠ '\x60') (unquoted : ¬ (c = '"' ∨ c = '\'')) :
      Skims text (body ++ [c])
        (if c = '\x7b' then depth + 1 else if c = '\x7d' then depth - 1 else depth) rest

inductive Faulty : SyntaxError.Reason → List Char → Prop where
  | comment {rest : List Char} (unclosed : ¬ ['*', '/'] <:+: rest) :
      Faulty .unterminatedComment ('/' :: '*' :: rest)
  | string {quote : Char} {rest : List Char} {reason : SyntaxError.Reason}
      (quotes : quote = '"' ∨ quote = '\'') (failed : stringBody quote rest = .error reason) :
      Faulty reason (quote :: rest)
  /-- The reader of the template gets to the end of the text, or to a backslash there. -/
  | template {text body rest : List Char} {depth : Nat} (skims : Skims text body depth rest)
      (ended : rest = [] ∨ depth = 0 ∧ rest = ['\\']) :
      Faulty .unterminatedTemplate ('\x60' :: text)
  | number {c : Char} {rest : List Char} {reason : SyntaxError.Reason}
      (starts : c.isDigit = true ∨ c = '.' ∧ rest.head?.any Char.isDigit = true)
      (failed : numberLiteral (c :: rest) = .error reason) : Faulty reason (c :: rest)
  | regex {rest : List Char} {reason : SyntaxError.Reason}
      (failed : regexLiteral ('/' :: rest) = .error reason) : Faulty reason ('/' :: rest)
  | escapedName {rest : List Char} : Faulty .escapedName ('\\' :: rest)
  | character {c : Char} {rest : List Char} (other : isNameStart c = false)
      (none : punctuator? (c :: rest) = none) : Faulty (.unexpectedCharacter c) (c :: rest)

/-- The reader begins to read a construct at `rest`, with `before` behind it. -/
inductive Begins (source : List Char) : List Char → List Char → Prop where
  | between {before gap rest : List Char} {last : Option Token}
      (arrives : Arrives source before last (gap ++ rest)) (between : Gap rest gap)
      (solid : Solid rest ∨ ['/', '*'] <+: rest) :
      Begins source (before ++ gap) rest
  | inside {before text body rest : List Char} {depth : Nat}
      (template : Begins source before ('\x60' :: text)) (skims : Skims text body depth rest)
      (substitution : depth ≠ 0) : Begins source (before ++ '\x60' :: body) rest

/-- The error is reported at the first character of a construct that cannot be read for its reason. -/
def Located (source : List Char) (e : SyntaxError) : Prop :=
  ∃ before rest, Begins source before rest ∧ Faulty e.reason rest ∧
    e.position = (origin.afterAll before).position

theorem Skims.whole {text body rest : List Char} {depth : Nat} (h : Skims text body depth rest) :
    text = body ++ rest := by
  induction h with
  | start => rfl
  | _ => simp_all

theorem Arrives.whole {source before rest : List Char} {last : Option Token}
    (h : Arrives source before last rest) : source = before ++ rest := by
  induction h with
  | start => exact (List.take_append_drop _ _).symm
  | token _ _ _ ih => simpa using ih

theorem Begins.whole {source before rest : List Char} (h : Begins source before rest) :
    source = before ++ rest := by
  induction h with
  | between arrives => simpa using arrives.whole
  | inside _ skims _ ih => simpa [skims.whole] using ih

end Constructs

section Failures

variable {source before text body rest : List Char} {start here : Place} {depth : Nat} {c : Char}
  {last : Option Token} {e : SyntaxError}

theorem not_infix_of_commentBody (unclosed : commentBody text = none) : ¬ ['*', '/'] <:+: text := by
  fun_induction commentBody text with
  | case1 => simp
  | case2 => cases unclosed
  | case3 c rest open_ ih =>
    intro inside
    rcases List.infix_cons_iff.mp inside with first | later
    · obtain ⟨tail, split⟩ := first
      obtain ⟨rfl, rfl⟩ := List.cons.inj split
      exact open_ _ rfl rfl
    · exact ih (by simpa using unclosed) later

/-- A gap is read up to a comment that is not closed. -/
theorem gapLength_fails (failed : gapLength here text = .error e) :
    ∃ gap rest, text = gap ++ rest ∧ Gap rest gap ∧ ['/', '*'] <+: rest ∧ Faulty e.reason rest ∧
      e.position = (here.afterAll gap).position := by
  fun_induction gapLength here text with
  | case1 here rest run ih =>
    obtain ⟨gap, after, cut, between, opening, faulty, place⟩ := ih (map_eq_error.mp failed)
    obtain ⟨single, ends⟩ := lineRun rest
    have size : run - 2 = runLength (· ≠ '\n') rest := by simp [run]
    rw [size] at cut
    rw [cut] at ends
    refine ⟨_, after, ?_, .line single ends between, opening, faulty, ?_⟩
    · rw [List.cons_append,List.cons_append,List.append_assoc,← cut,List.take_append_drop]
    · rw [place,← afterAll_append]
      simp [run,Nat.add_comm 2]
  | case2 here rest unclosed =>
    cases failed
    exact ⟨[], _, rfl, .nil, ⟨rest, rfl⟩, .comment (not_infix_of_commentBody unclosed), rfl⟩
  | case3 here rest size closed run ih =>
    obtain ⟨gap, after, cut, between, opening, faulty, place⟩ := ih (map_eq_error.mp failed)
    obtain ⟨inner, more, rfl, rfl, first⟩ := commentBody_some closed
    have outside : (inner ++ '*' :: '/' :: more).drop (inner.length + 2) = more :=
      List.drop_length_add_append 2
    rw [outside] at cut
    refine ⟨_, after, by simp [cut], .block first between, opening, faulty, ?_⟩
    have inside : ('/' :: '*' :: (inner ++ '*' :: '/' :: more)).take run =
        '/' :: '*' :: (inner ++ ['*', '/']) := by
      have inside : (inner ++ '*' :: '/' :: more).take (inner.length + 2) = inner ++ ['*', '/'] :=
        List.take_length_add_append 2
      simp [run,Nat.add_comm 2,inside]
    rw [place,inside,← afterAll_append]
    simp
  | case4 here c rest noLine noBlock blank ih =>
    obtain ⟨gap, after, rfl, between, opening, faulty, place⟩ := ih (map_eq_error.mp failed)
    exact ⟨c :: gap, after, rfl, .blank (isGapChar_iff.mp blank) between, opening, faulty, place⟩
  | case5 => cases failed
  | case6 => cases failed

/-- Past more of its text, the reader of a template is so much further in the source. -/
theorem place_past (place : here = origin.afterAll (before ++ '\x60' :: body)) (more : List Char) :
    here.afterAll more = origin.afterAll (before ++ '\x60' :: (body ++ more)) := by
  rw [place,← afterAll_append]
  simp

/-- A template that cannot be read is not closed, or a literal in it cannot be read. -/
theorem templateText_fails (failed : templateText start here depth rest = .error e)
    (begins : Begins source before ('\x60' :: text)) (skims : Skims text body depth rest)
    (opened : start = origin.afterAll before)
    (place : here = origin.afterAll (before ++ '\x60' :: body)) : Located source e := by
  fun_induction templateText start here depth rest generalizing before text body with
  | case1 start here depth =>
    cases failed
    exact ⟨before, _, begins, .template skims (Or.inl rfl), by rw [opened]⟩
  | case2 => cases failed
  | case3 start here =>
    cases failed
    exact ⟨before, _, begins, .template skims (Or.inr ⟨rfl, rfl⟩), by rw [opened]⟩
  | case4 start here next rest _ ih =>
    exact ih (map_eq_error.mp failed) begins skims.escape opened (place_past place ['\\', next])
  | case5 start here c rest _ _ opens ih =>
    obtain ⟨rfl, brace⟩ := opens
    obtain ⟨rest, rfl⟩ := List.head?_eq_some_iff.mp brace
    exact ih (map_eq_error.mp failed) begins skims.opening opened (place_past place ['$', '\x7b'])
  | case6 start here c rest tick slash outside ih =>
    exact ih (map_eq_error.mp failed) begins (skims.plain tick slash outside) opened
      (place_past place [c])
  | case7 start here depth rest inside _ nested ih =>
    exact ih (by rw [nested]; exact failed) (.inside begins skims inside) .start place
      (place_past place ['\x60'] |>.trans (by simp))
  | case8 =>
    rename_i start here depth rest inside inner nested _ _ ih
    exact ih (map_eq_error.mp failed) begins (skims.template inside nested) opened
      (place_past place ('\x60' :: rest.take inner.size))
  | case9 =>
    rename_i start here depth c rest inside _ quotes reason nested
    cases failed
    exact ⟨_, _, .inside begins skims inside, .string quotes nested, by rw [place]⟩
  | case10 =>
    rename_i start here depth c rest inside _ quotes inner nested _ ih
    exact ih (map_eq_error.mp failed) begins (skims.string inside quotes nested) opened
      (place_past place (c :: rest.take inner.size))
  | case11 =>
    rename_i start here depth c rest inside tick unquoted _ ih
    exact ih (map_eq_error.mp failed) begins (skims.code inside tick unquoted) opened
      (place_past place [c])

/-- Where a token cannot be read, the text in front is faulty, or it is a template and the fault is
in it. -/
theorem located_of_readToken (failed : readToken start last c rest = .error e)
    (begins : Begins source before (c :: rest)) (place : start = origin.afterAll before) :
    Located source e := by
  have located {reason : SyntaxError.Reason} (faulty : Faulty reason (c :: rest))
      (same : ⟨reason, start.position⟩ = e) : Located source e := by
    subst same
    exact ⟨before, c :: rest, begins, faulty, by rw [place]⟩
  by_cases quotes : c = '"' ∨ c = '\''
  · rw [readToken_quote quotes] at failed
    obtain ⟨reason, failed, same⟩ := mapError_eq_error.mp failed
    exact located (.string quotes (map_eq_error.mp failed)) same
  simp only [readToken,quotes,if_false] at failed
  split at failed
  next tick =>
    subst tick
    have failed := map_eq_error.mp (map_eq_error.mp failed)
    exact templateText_fails failed begins .start place (by rw [place,afterAll_append]; rfl)
  split at failed
  next starts =>
    obtain ⟨reason, failed, same⟩ := mapError_eq_error.mp failed
    exact located (.number starts (map_eq_error.mp failed)) same
  split at failed
  · cases failed
  next other =>
  split at failed
  next slash =>
    subst slash
    exact located .escapedName (Except.error.inj failed)
  split at failed
  next slash =>
    subst slash
    obtain ⟨reason, failed, same⟩ := mapError_eq_error.mp failed
    unfold slashToken at failed
    split at failed
    · exact located (.regex (map_eq_error.mp failed)) same
    · split at failed <;> cases failed
  split at failed
  · cases failed
  next none => exact located (.character (by simpa using other) none) (Except.error.inj failed)

/-- From wherever the reader of tokens has got to, it fails at a construct that cannot be read. -/
theorem Arrives.located (arrives : Arrives source before last text)
    (place : here = origin.afterAll before) (failed : lexemes here last text = .error e) :
    Located source e := by
  fun_induction lexemes here last text generalizing before with
  | case1 here last text e' stuck =>
    cases failed
    obtain ⟨gap, rest, rfl, between, opening, faulty, position⟩ := gapLength_fails stuck
    refine ⟨_, rest, .between arrives between (Or.inr opening), faulty, ?_⟩
    rw [position,place,afterAll_append]
  | case2 => cases failed
  | case3 =>
    rename_i here last text size read _ c rest next e' token
    cases failed
    have between := gap_of_gapLength read
    have solid := solid_of_gapLength read
    rw [next] at between solid
    obtain ⟨gap, rfl, rfl⟩ := gapLength_cut read next
    rw [List.take_left] at between
    refine located_of_readToken token (.between arrives between (Or.inl solid)) ?_
    show here.afterAll _ = _
    rw [List.take_left,place,afterAll_append]
  | case4 =>
    rename_i here last text size read _ c rest next r token _ e' stuck ih
    cases failed
    have token : readToken (here.afterAll (text.take size)) last c rest = .ok r := token
    obtain ⟨chars, rest, rfl, length⟩ := readToken_cut token
    obtain ⟨value, _⟩ := r
    subst length
    obtain ⟨gap, rfl, rfl⟩ := gapLength_cut read next
    simp only [List.take_left,Nat.add_sub_cancel,List.drop_left] at token stuck ih
    subst place
    rw [← afterAll_append] at token
    refine ih (arrives.token read token) ?_ stuck
    show ((origin.afterAll before).afterAll _).afterAll _ = _
    simp only [List.take_left,List.take_succ_cons,← afterAll_append]
    simp
  | case5 => cases failed

end Failures

end CodeCompletion
