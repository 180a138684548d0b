import CodeCompletion.Proofs.Token.Settled
import CodeCompletion.Proofs.Token.Tiling

/-! The lexemes of two texts with a line feed between them. They are those of the first text
without its end of input, and then those of the second text, which only moves to another
place and gets a line break before its first lexeme. -/
namespace CodeCompletion

variable {here : Place} {text : List Char}

section Gaps

theorem gapLength_blank {c : Char} {rest : List Char} (blank : isGapChar c = true) :
    gapLength here (c :: rest) = (gapLength (here.after c) rest).map (1 + ·) := by
  have notSlash : c ≠ '/' := by
    rintro rfl
    exact absurd blank (by decide)
  rw [gapLength.eq_def]
  split
  next start => exact absurd (List.cons.inj start).1 notSlash
  next start => exact absurd (List.cons.inj start).1 notSlash
  next start =>
    obtain ⟨rfl, rfl⟩ := List.cons.inj start
    rw [if_pos blank]
  next start => cases start

theorem gapLength_line (here : Place) (rest : List Char) :
    gapLength here ('/' :: '/' :: rest) =
      (gapLength (here.afterAll (('/' :: '/' :: rest).take (2 + runLength (· ≠ '\n') rest)))
        (rest.drop (runLength (· ≠ '\n') rest))).map (2 + runLength (· ≠ '\n') rest + ·) := by
  rw [gapLength.eq_def]
  simp

theorem gapLength_block {rest : List Char} {body : Nat} (closed : commentBody rest = some body) :
    gapLength here ('/' :: '*' :: rest) =
      (gapLength (here.afterAll (('/' :: '*' :: rest).take (2 + body))) (rest.drop body)).map
        (2 + body + ·) := by
  rw [gapLength.eq_def]
  simp [closed]

/-- Neither a blank nor the start of a comment. -/
theorem gapLength_solid {c : Char} {rest : List Char} (solid : isGapChar c = false)
    (comment : c = '/' → rest.head?.any (fun d => d = '/' || d = '*') = false) :
    gapLength here (c :: rest) = .ok 0 := by
  rw [gapLength.eq_def]
  split
  next start =>
    obtain ⟨rfl, rfl⟩ := List.cons.inj start
    exact absurd (comment rfl) (by simp)
  next start =>
    obtain ⟨rfl, rfl⟩ := List.cons.inj start
    exact absurd (comment rfl) (by simp)
  next start =>
    obtain ⟨rfl, rfl⟩ := List.cons.inj start
    simp [solid]
  next start => cases start

theorem no_comment {c : Char} {rest : List Char}
    (noLine : ∀ tail, c = '/' → rest = '/' :: tail → False)
    (noBlock : ∀ tail, c = '/' → rest = '*' :: tail → False) :
    c = '/' → rest.head?.any (fun d => d = '/' || d = '*') = false := by
  intro slash
  cases rest with
  | nil => rfl
  | cons d rest =>
    have notSlash : d ≠ '/' := fun same => noLine rest slash (by rw [same])
    have notStar : d ≠ '*' := fun same => noBlock rest slash (by rw [same])
    simp [notSlash,notStar]

theorem commentBody_append {size : Nat} (h : commentBody text = some size) (more : List Char) :
    size ≤ text.length ∧ commentBody (text ++ more) = some size := by
  fun_induction commentBody text generalizing size with
  | case1 => cases h
  | case2 rest =>
    cases h
    exact ⟨by simp, rfl⟩
  | case3 c rest open_ ih =>
    obtain ⟨n, found, rfl⟩ := Option.map_eq_some_iff.mp h
    obtain ⟨size, later⟩ := ih found
    refine ⟨by simp only [List.length_cons]; omega, ?_⟩
    cases rest with
    | nil => cases found
    | cons d rest =>
      have still : ∀ tail, c = '*' → d :: (rest ++ more) = '/' :: tail → False := by
        intro tail star slash
        exact open_ rest star (by rw [(List.cons.inj slash).1])
      rw [List.cons_append,List.cons_append,commentBody.eq_3 _ _ still,← List.cons_append,later]
      rfl

theorem runLength_append (more : List Char) :
    runLength (· ≠ '\n') (text ++ '\n' :: more) = runLength (· ≠ '\n') text := by
  rw [runLength,takeWhile_append_atLineEnd (by decide) (Or.inr rfl),runLength]

theorem runLength_le (p : Char → Bool) (text : List Char) : runLength p text ≤ text.length :=
  (List.takeWhile_prefix p).length_le

/-- Gaps are the same at every place. -/
theorem gapLength_elsewhere {size : Nat} (h : gapLength here text = .ok size) (here' : Place) :
    gapLength here' text = .ok size := by
  fun_induction gapLength here text generalizing size here' with
  | case1 here rest run =>
    rename_i ih
    obtain ⟨n, found, rfl⟩ := map_eq_ok.mp h
    rw [gapLength_line]
    simp only [run,Nat.add_sub_cancel_left] at ih found
    exact map_eq_ok.mpr ⟨n, ih found _, rfl⟩
  | case2 => cases h
  | case3 here rest body closed run =>
    rename_i ih
    obtain ⟨n, found, rfl⟩ := map_eq_ok.mp h
    rw [gapLength_block closed]
    exact map_eq_ok.mpr ⟨n, ih found _, rfl⟩
  | case4 here c rest noLine noBlock blank ih =>
    obtain ⟨n, found, rfl⟩ := map_eq_ok.mp h
    rw [gapLength_blank blank]
    exact map_eq_ok.mpr ⟨n, ih found _, rfl⟩
  | case5 here c rest noLine noBlock solid =>
    cases h
    exact gapLength_solid (by simpa using solid) (no_comment noLine noBlock)
  | case6 =>
    cases h
    rw [gapLength]

/-- A gap that something stands behind is the same before a line feed; one that nothing
stands behind goes on with the line feed. -/
theorem gapLength_append {size : Nat} (h : gapLength here text = .ok size) :
    size ≤ text.length ∧
    (size < text.length → ∀ here' more, gapLength here' (text ++ '\n' :: more) = .ok size) ∧
    (size = text.length → ∀ here' here'' more n, gapLength here'' more = .ok n →
      gapLength here' (text ++ '\n' :: more) = .ok (size + 1 + n)) := by
  fun_induction gapLength here text generalizing size with
  | case1 here rest run =>
    rename_i ih
    obtain ⟨n, found, rfl⟩ := map_eq_ok.mp h
    simp only [run,Nat.add_sub_cancel_left] at ih found
    have le := runLength_le (· ≠ '\n') rest
    obtain ⟨size, inside, whole⟩ := ih found
    simp only [List.length_drop] at size inside whole
    simp only [List.length_cons,List.cons_append,gapLength_line,runLength_append,
      List.drop_append_of_le_length le]
    refine ⟨by omega, fun shorter here' more => ?_, fun same here' here'' more n later => ?_⟩
    · exact map_eq_ok.mpr ⟨_, inside (by omega) _ more, rfl⟩
    · exact map_eq_ok.mpr ⟨_, whole (by omega) _ _ more n later, by omega⟩
  | case2 => cases h
  | case3 here rest body closed run =>
    rename_i ih
    obtain ⟨n, found, rfl⟩ := map_eq_ok.mp h
    obtain ⟨size, inside, whole⟩ := ih found
    have le := (commentBody_append closed []).1
    have closed' := fun more => (commentBody_append closed more).2
    simp only [List.length_drop] at size inside whole
    simp only [List.length_cons,List.cons_append,gapLength_block (closed' _),
      List.drop_append_of_le_length le,run]
    refine ⟨by omega, fun shorter here' more => ?_, fun same here' here'' more n later => ?_⟩
    · exact map_eq_ok.mpr ⟨_, inside (by omega) _ more, rfl⟩
    · exact map_eq_ok.mpr ⟨_, whole (by omega) _ _ more n later, by omega⟩
  | case4 here c rest noLine noBlock blank ih =>
    obtain ⟨n, found, rfl⟩ := map_eq_ok.mp h
    obtain ⟨size, inside, whole⟩ := ih found
    simp only [List.length_cons,List.cons_append,gapLength_blank blank]
    refine ⟨by omega, fun shorter here' more => ?_, fun same here' here'' more n later => ?_⟩
    · exact map_eq_ok.mpr ⟨_, inside (by omega) _ more, rfl⟩
    · exact map_eq_ok.mpr ⟨_, whole (by omega) _ _ more n later, by omega⟩
  | case5 here c rest noLine noBlock solid =>
    cases h
    refine ⟨Nat.zero_le _, fun _ here' more => ?_, fun same => by simp at same⟩
    apply gapLength_solid (by simpa using solid)
    intro slash
    have same : (rest ++ '\n' :: more).head?.any (fun d => d = '/' || d = '*') =
        rest.head?.any fun d => d = '/' || d = '*' :=
      head?_append_atLineEnd (by decide) (Or.inr rfl)
    exact same.trans (no_comment noLine noBlock slash)
  | case6 =>
    cases h
    refine ⟨Nat.le_refl _, fun shorter => by simp at shorter, fun _ here' here'' more n later => ?_⟩
    rw [List.nil_append,gapLength_blank (by decide),gapLength_elsewhere later]
    exact congrArg Except.ok (by simp)

end Gaps

/-- How a text is cut into gaps and tokens, with what is read in each of them. -/
inductive Lexed : Place → Option Token → List Char → List Lexeme → Prop where
  | done {here : Place} {last : Option Token} {gap : List Char} :
      gapLength here gap = .ok gap.length →
      Lexed here last gap
        [⟨.endOfInput, ⟨here.afterAll gap, here.afterAll gap⟩, gap.contains '\n'⟩]
  | token {here : Place} {last : Option Token} {gap chars rest : List Char} {c : Char}
      {token : Token} {ls : List Lexeme} :
      gapLength here (gap ++ c :: (chars ++ rest)) = .ok gap.length →
      readToken (here.afterAll gap) last c (chars ++ rest) = .ok ⟨token, chars.length + 1⟩ →
      Lexed (here.afterAll (gap ++ c :: chars)) (some token) rest ls →
      Lexed here last (gap ++ c :: (chars ++ rest))
        (⟨token, ⟨here.afterAll gap, here.afterAll (gap ++ c :: chars)⟩, gap.contains '\n'⟩ :: ls)

/-- Behind a token the reader goes on with what is left. -/
theorem lexemes_token {last : Option Token} {gap chars rest : List Char} {c : Char} {token : Token}
    (length : gapLength here (gap ++ c :: (chars ++ rest)) = .ok gap.length)
    (read : readToken (here.afterAll gap) last c (chars ++ rest) = .ok ⟨token, chars.length + 1⟩) :
    lexemes here last (gap ++ c :: (chars ++ rest)) =
      (lexemes (here.afterAll (gap ++ c :: chars)) (some token) rest).map
        (⟨token, ⟨here.afterAll gap, here.afterAll (gap ++ c :: chars)⟩, gap.contains '\n'⟩ :: ·) := by
  have place : (here.afterAll gap).afterAll (c :: chars) = here.afterAll (gap ++ c :: chars) :=
    (Place.afterAll_append here gap (c :: chars)).symm
  rw [lexemes.eq_def]
  simp only [length]
  split
  next next => simp at next
  next next =>
    rw [List.drop_left] at next
    obtain ⟨rfl, rfl⟩ := List.cons.inj next
    simp only [List.take_left,read,List.take_succ_cons,Nat.add_sub_cancel,List.drop_left,place]
    cases lexemes (here.afterAll (gap ++ c :: chars)) (some token) rest <;> rfl

theorem lexemes_error {last : Option Token} {gap rest : List Char} {c : Char} {e : SyntaxError}
    (length : gapLength here (gap ++ c :: rest) = .ok gap.length)
    (read : readToken (here.afterAll gap) last c rest = .error e) :
    lexemes here last (gap ++ c :: rest) = .error e := by
  rw [lexemes.eq_def]
  simp only [length]
  split
  next next => simp at next
  next next =>
    rw [List.drop_left] at next
    obtain ⟨rfl, rfl⟩ := List.cons.inj next
    simp only [List.take_left,read]

theorem lexemes_of_lexed {last : Option Token} {ls : List Lexeme} (h : Lexed here last text ls) :
    lexemes here last text = .ok ls := by
  induction h with
  | done gap =>
    rw [lexemes.eq_def]
    simp only [gap]
    split
    next => simp
    next next => simp at next
  | token length read _ ih =>
    rw [lexemes_token length read,ih]
    rfl

/-- The characters of a token stand at the front of the text. -/
theorem readToken_cut {start : Place} {last : Option Token} {c : Char} {rest : List Char}
    {r : Reading Token} (token : readToken start last c rest = .ok r) :
    ∃ chars more, rest = chars ++ more ∧ r.size = chars.length + 1 := by
  obtain ⟨taken, -⟩ := readToken_ok token
  have le := (readToken_append (Or.inl rfl) default token rfl).1
  have le : r.size - 1 ≤ rest.length := by
    rw [List.length_cons] at le
    omega
  refine ⟨rest.take (r.size - 1), rest.drop (r.size - 1), (List.take_append_drop _ _).symm, ?_⟩
  rw [List.length_take_of_le le]
  omega

/-- What is left behind a gap stands behind its characters. -/
theorem gapLength_cut {size : Nat} {rest : List Char} (read : gapLength here text = .ok size)
    (left : text.drop size = rest) : ∃ gap, text = gap ++ rest ∧ size = gap.length := by
  refine ⟨text.take size, by rw [← left,List.take_append_drop], ?_⟩
  simpa using (gapLength_append read).1

theorem lexed_of_lexemes {last : Option Token} {ls : List Lexeme}
    (h : lexemes here last text = .ok ls) : Lexed here last text ls := by
  fun_induction lexemes here last text generalizing ls with
  | case1 => cases h
  | case2 =>
    rename_i here last text size read _ _ ended
    cases h
    have whole : text.take size = text := List.take_of_length_le (List.drop_eq_nil_iff.mp ended)
    have le := (gapLength_append read).1
    have same : size = text.length := Nat.le_antisymm le (List.drop_eq_nil_iff.mp ended)
    show Lexed here last text [⟨.endOfInput, ⟨here.afterAll (text.take size),
      here.afterAll (text.take size)⟩, (text.take size).contains '\n'⟩]
    rw [whole]
    exact .done (same ▸ read)
  | case3 => cases h
  | case4 => cases h
  | case5 =>
    rename_i here last text size read _ _ c rest next r token _ tail lexed ih
    cases h
    show Lexed here last text (⟨r.value, ⟨here.afterAll (text.take size),
      (here.afterAll (text.take size)).afterAll ((c :: rest).take r.size)⟩,
      (text.take size).contains '\n'⟩ :: tail)
    have token : readToken (here.afterAll (text.take size)) last c rest = .ok r := token
    have later : Lexed ((here.afterAll (text.take size)).afterAll ((c :: rest).take r.size))
      (some r.value) (rest.drop (r.size - 1)) tail := ih lexed
    obtain ⟨chars, rest, rfl, length⟩ := readToken_cut token
    obtain ⟨value, _⟩ := r
    subst length
    obtain ⟨gap, rfl, rfl⟩ := gapLength_cut read next
    simp only [List.take_left,List.take_succ_cons,Nat.add_sub_cancel,List.drop_left,
      ← Place.afterAll_append] at token later ⊢
    exact .token read token later

theorem lexed_iff {last : Option Token} {ls : List Lexeme} :
    lexemes here last text = .ok ls ↔ Lexed here last text ls :=
  ⟨lexed_of_lexemes, lexemes_of_lexed⟩

def Lexeme.Alike (a b : Lexeme) : Prop :=
  a.token = b.token ∧ a.newlineBefore = b.newlineBefore

def lastToken (last : Option Token) (ls : List Lexeme) : Option Token :=
  (ls.getLast?.map Lexeme.token).or last

@[simp] theorem lastToken_nil (last : Option Token) : lastToken last [] = last := rfl

@[simp] theorem lastToken_cons (last : Option Token) (l : Lexeme) (ls : List Lexeme) :
    lastToken last (l :: ls) = lastToken (some l.token) ls := by
  cases ls <;> simp [lastToken,List.getLast?_cons]

namespace Lexed

variable {last : Option Token} {ls : List Lexeme}

/-- A text has the same lexemes at every place, and after every token that leaves a slash what
it is. -/
theorem elsewhere (h : Lexed here last text ls) (here' : Place) (last' : Option Token)
    (same : Token.allowsRegex last' = Token.allowsRegex last) :
    ∃ ls', Lexed here' last' text ls' ∧ List.Forall₂ Lexeme.Alike ls ls' := by
  induction h generalizing here' last' with
  | done gap =>
    refine ⟨_, .done (gapLength_elsewhere gap here'), ?_⟩
    exact .cons ⟨rfl, rfl⟩ .nil
  | @token _ _ gap chars _ c _ _ length read _ ih =>
    obtain ⟨ls', lexed, alike⟩ := ih (here'.afterAll (gap ++ c :: chars)) _ rfl
    have read := (readToken_append (Or.inl rfl) (here'.afterAll gap) read same).2
    rw [List.append_nil] at read
    exact ⟨_, .token (gapLength_elsewhere length here') read lexed, .cons ⟨rfl, rfl⟩ alike⟩

/-- What stands behind a text and a line feed has its lexemes after those of the text. -/
theorem append (h : Lexed here last text ls) : ∃ tokens finish, ls = tokens ++ [finish] ∧
    finish.token = .endOfInput ∧ (∀ l ∈ tokens, l.token ≠ .endOfInput) ∧
    ∀ more l ls', Lexed (here.afterAll (text ++ ['\n'])) (lastToken last tokens) more (l :: ls') →
      Lexed here last (text ++ '\n' :: more) (tokens ++ { l with newlineBefore := true } :: ls') := by
  induction h with
  | @done here last gap length =>
    refine ⟨[], _, rfl, rfl, by simp, fun more l ls' later => ?_⟩
    have feed : ∀ rest : List Char, (gap ++ '\n' :: rest).contains '\n' = true := by simp
    have place : ∀ rest, (here.afterAll (gap ++ ['\n'])).afterAll rest =
        here.afterAll (gap ++ '\n' :: rest) := by
      intro rest
      rw [← Place.afterAll_append,List.append_assoc,List.singleton_append]
    cases later with
    | done length' =>
      have whole := (gapLength_append length).2.2 rfl here _ more _ length'
      have size : gap.length + 1 + more.length = (gap ++ '\n' :: more).length := by
        simp only [List.length_append,List.length_cons]
        omega
      rw [size] at whole
      have joined : Lexed here last _ _ := .done whole
      rw [feed] at joined
      simpa [place] using joined
    | @token _ _ gap' chars rest c token _ length' read lexed =>
      have whole := (gapLength_append length).2.2 rfl here _ _ _ length'
      have size : gap.length + 1 + gap'.length = (gap ++ '\n' :: gap').length := by
        simp only [List.length_append,List.length_cons]
        omega
      have cut : gap ++ '\n' :: (gap' ++ c :: (chars ++ rest)) =
          (gap ++ '\n' :: gap') ++ c :: (chars ++ rest) := by simp
      rw [size,cut] at whole
      rw [place] at read
      have lexed : Lexed (here.afterAll ((gap ++ '\n' :: gap') ++ c :: chars)) (some token) rest ls' := by
        rw [place] at lexed
        simpa using lexed
      have joined := Lexed.token whole read lexed
      rw [feed] at joined
      rw [cut]
      simpa [place] using joined
  | @token here last gap chars rest c token ls length read _ ih =>
    obtain ⟨tokens, finish, rfl, ended, kinds, joins⟩ := ih
    refine ⟨_ :: tokens, finish, rfl, ended, ?_, fun more l ls' later => ?_⟩
    · exact List.forall_mem_cons.mpr ⟨(readToken_ok read).2, kinds⟩
    · have ends : AtLineEnd ('\n' :: more) := Or.inr rfl
      have inside : gap.length < (gap ++ c :: (chars ++ rest)).length := by simp
      have whole := (gapLength_append length).2.1 inside here more
      have read := (readToken_append ends (here.afterAll gap) read rfl).2
      rw [lastToken_cons] at later
      have place : here.afterAll (gap ++ c :: (chars ++ rest) ++ ['\n']) =
          (here.afterAll (gap ++ c :: chars)).afterAll (rest ++ ['\n']) := by
        rw [← Place.afterAll_append]
        simp
      rw [place] at later
      have cut : gap ++ c :: (chars ++ rest) ++ '\n' :: more =
          gap ++ c :: (chars ++ (rest ++ '\n' :: more)) := by simp
      rw [cut] at whole ⊢
      rw [List.append_assoc] at read
      exact .token whole read (joins more l ls' later)

end Lexed

/-- A first line that starts with `#!` ends where its text does, or before. -/
theorem interpreterLine_append (text more : List Char) :
    interpreterLine (text ++ '\n' :: more) = interpreterLine text := by
  by_cases marked : ∃ rest, text = '#' :: '!' :: rest
  · obtain ⟨rest, rfl⟩ := marked
    exact runLength_append more
  · have plain : ∀ {chars : List Char}, (∀ rest, chars ≠ '#' :: '!' :: rest) →
        interpreterLine chars = 0 := by
      intro chars none
      unfold interpreterLine
      split
      next rest => exact absurd rfl (none rest)
      next => rfl
    rw [plain fun rest same => marked ⟨rest, same⟩]
    apply plain
    intro rest same
    rcases text with _ | ⟨a, _ | ⟨b, tail⟩⟩
    · simp at same
    · simp at same
    · simp only [List.cons_append,List.cons.injEq] at same
      exact marked ⟨tail, by rw [same.1,same.2.1]⟩

theorem interpreterLine_le (text : List Char) : interpreterLine text ≤ text.length := by
  unfold interpreterLine
  split
  next => exact runLength_le _ _
  next => exact Nat.zero_le _

/-- A text that ends where a regular expression could stand, a line feed and a second text
have the lexemes of both, with the end of input once and a line break before the second. -/
theorem lexChars_append {text more : List Char} {tokens tail : List Lexeme} {finish l : Lexeme}
    (first : lexChars text = .ok (tokens ++ [finish]))
    (open_ : Token.allowsRegex (lastToken none tokens) = true)
    (second : lexChars more = .ok (l :: tail)) (unmarked : interpreterLine more = 0) :
    ∃ l' tail', lexChars (text ++ '\n' :: more) = .ok (tokens ++ l' :: tail') ∧
      l'.token = l.token ∧ List.Forall₂ Lexeme.Alike tail tail' := by
  have le := interpreterLine_le text
  simp only [lexChars,unmarked,List.take_zero,List.drop_zero] at second
  simp only [lexChars,interpreterLine_append,List.take_append_of_le_length le,
    List.drop_append_of_le_length le]
  obtain ⟨tokens', finish', same, -, -, joins⟩ := (lexed_of_lexemes first).append
  obtain ⟨rfl, -⟩ := List.append_inj' same rfl
  obtain ⟨ls, lexed, alike⟩ := (lexed_of_lexemes second).elsewhere
    ((Place.origin.afterAll (text.take (interpreterLine text))).afterAll
      (text.drop (interpreterLine text) ++ ['\n'])) (lastToken none tokens) open_
  cases alike with
  | @cons _ l' _ tail' same alike =>
    exact ⟨{ l' with newlineBefore := true }, tail', lexemes_of_lexed (joins more l' tail' lexed),
      same.1.symm, alike⟩

end CodeCompletion
