import CodeCompletion.Proofs.Parser.Depth.Statement
import CodeCompletion.Proofs.Parser.Lockstep.Statement
import CodeCompletion.Proofs.Token.Concatenation

/-! Programs compose where a semicolon ends the first one. The statements of the first text are
read in lockstep with the first lexemes of both texts together; there the parser stands as at the
start of the second text, and goes on in lockstep with it. -/
namespace CodeCompletion

namespace Parser

variable {w : Twins} {g h : Grammar}

def Grammar.statement? (g : Grammar) : Parser (Option Stmt) := do
  if (← peek) = .endOfInput then return none
  return some (← g.statement)

def Grammar.nextStatement (g : Grammar) (found : List Stmt) :
    Parser (List Stmt ⊕ List Stmt) := do
  match ← g.statement? with
  | some a => return .inl (a :: found)
  | none => return .inr found.reverse

theorem collect_statement? (limit : Nat) :
    collect limit g.statement? = loop g.nextStatement limit [] := by
  rw [collect]
  congr 1
  funext found
  rw [Grammar.nextStatement]
  congr 1
  funext next
  cases next <;> rfl

theorem nextStatement_ended {found : List Stmt} {s : State} (ended : s.current.token = .endOfInput) :
    g.nextStatement found s = .ok (.inr found.reverse) s := by
  rw [Grammar.nextStatement,Grammar.statement?,bind_assoc,bind_run (p := peek) rfl,if_pos ended]
  rfl

theorem nextStatement_run {found : List Stmt} {s s' : State} {a : Stmt}
    (goesOn : s.current.token ≠ .endOfInput) (run : g.statement s = .ok a s') :
    g.nextStatement found s = .ok (.inl (a :: found)) s' := by
  rw [Grammar.nextStatement,Grammar.statement?,bind_assoc,bind_run (p := peek) rfl,if_neg goesOn,
    bind_assoc,bind_run run]
  rfl

theorem nextStatement_eq_ok {found : List Stmt} {s s' : State} {r : List Stmt ⊕ List Stmt}
    (goesOn : s.current.token ≠ .endOfInput) (run : g.nextStatement found s = .ok r s') :
    ∃ a, g.statement s = .ok a s' ∧ r = .inl (a :: found) := by
  rw [Grammar.nextStatement,Grammar.statement?,bind_assoc,bind_run (p := peek) rfl,if_neg goesOn,
    bind_assoc,bind_eq_ok] at run
  obtain ⟨a, t, read, rest⟩ := run
  cases rest
  exact ⟨a, read, rfl⟩

theorem program_eq_ok {s s' : State} {p : Program} : g.program s = .ok p s' ↔
    ∃ body, loop g.nextStatement g.limit [] s = .ok body s' ∧
      p = ⟨body, s.current.span.cover s'.current.span⟩ := by
  have unfolded : g.program = do
      let start ← currentSpan
      let body ← collect g.limit g.statement?
      return ⟨body, start.cover (← currentSpan)⟩ := rfl
  rw [unfolded,collect_statement?,bind_run (p := currentSpan) rfl,bind_eq_ok]
  constructor
  · rintro ⟨body, t, run, rest⟩
    cases rest
    exact ⟨body, run, rfl⟩
  · rintro ⟨body, run, rfl⟩
    exact ⟨body, s', run, rfl⟩

/-- Up to the cut, the loop finds the same statements in both streams. -/
theorem Twins.Tracks.nextStatements (tracks : w.Tracks g h)
    (only : ∀ i < w.cut, tokenAt w.short i ≠ some .endOfInput) {n m i : Nat} {s s' t : State}
    {found found' body : List Stmt} (stand : w.Stand i s t)
    (same : found.map Stmt.erase = found'.map Stmt.erase) (room : w.cut ≤ m + i)
    (run : loop g.nextStatement n found s = .ok body s') :
    ∃ m' found'' t', m + i ≤ m' + w.cut ∧ w.Stand w.cut s' t' ∧
      body.map Stmt.erase = found''.reverse.map Stmt.erase ∧
      loop h.nextStatement m found' t = loop h.nextStatement m' found'' t' := by
  induction n generalizing m i s t found found' with
  | zero => cases run
  | succ n ih =>
    by_cases ended : s.current.token = .endOfInput
    · have border : i = w.cut := by
        have := stand.le_cut
        by_contra inside
        exact only i (by omega) (ended ▸ stand.here)
      rw [loop,bind_run (nextStatement_ended ended)] at run
      cases run
      exact ⟨m, found', t, by omega, border ▸ stand, by simp [same], rfl⟩
    · have inside := stand.inside ended
      obtain ⟨m, rfl⟩ : ∃ k, m = k + 1 := ⟨m - 1, by omega⟩
      rw [loop,bind_eq_ok] at run
      obtain ⟨r, s₁, first, rest⟩ := run
      obtain ⟨a, read, rfl⟩ := nextStatement_eq_ok ended first
      have step := tracks.statement i inside s t stand
      rw [read] at step
      obtain ⟨j, b, t₁, read', stand', through, alike⟩ := step
      have ended' : t.current.token ≠ .endOfInput := by rwa [stand.token inside]
      obtain ⟨m', found'', t', le, last, whole, again⟩ := ih (m := m) stand'
        (by simp [alike,same] : (a :: found).map Stmt.erase = (b :: found').map Stmt.erase)
        (by omega) rest
      refine ⟨m', found'', t', by omega, last, whole, ?_⟩
      rw [loop,bind_run (nextStatement_run ended' read')]
      exact again

/-- From the start of the second text on, the loop finds its statements after those that have been
found before. -/
theorem Twins.Tracks.moreStatements (tracks : w.Tracks g h) (whole : w.short.length = w.cut)
    {n m : Nat} (le : n ≤ m) (same : w.strict → n = m) (earlier : List Stmt) :
    w.Lockstep 0 (loop g.nextStatement n []) (loop h.nextStatement m earlier) fun _ body body' =>
      body'.map Stmt.erase = earlier.reverse.map Stmt.erase ++ body.map Stmt.erase := by
  refine Lockstep.loop (I := fun _ found found' =>
    found'.map Stmt.erase = found.map Stmt.erase ++ earlier.map Stmt.erase) ?_ le same (by simp)
  intro k found found' found_eq s t stand
  have inside : k < w.cut := whole ▸ stand.lt_length
  revert s t
  show w.Lockstep k (g.nextStatement found) (h.nextStatement found') _
  rw [Grammar.nextStatement,Grammar.nextStatement,Grammar.statement?,Grammar.statement?,
    bind_assoc,bind_assoc]
  apply Lockstep.peek_bind inside
  intro token here
  by_cases ended : token = .endOfInput
  · rw [if_pos ended,if_pos ended]
    exact .pure (.inr (by simp [found_eq]))
  · rw [if_neg ended,if_neg ended,bind_assoc,bind_assoc]
    apply (tracks.statement k inside).bind
    rintro j a b ⟨-, alike⟩
    exact .pure (.inl (by simp [alike,found_eq]))

/-- No statement starts with `else`. -/
theorem Grammar.rejects_statementRule (g : Grammar) : Rejects (.word "else") g.statementRule := by
  have word : Rejects (.word "else") (g.wordStatement "else") := by
    apply Rejects.after (P := fun _ => True)
    · intro s _
      rw [startsLet,bind_run (p := peekNext) rfl]
      cases (s.upcoming.head?.getD s.current).token <;> exact ⟨_, rfl, trivial⟩
    · intro starts _
      rw [if_neg (by simp)]
      apply Rejects.peekNext_bind
      intro next
      rw [if_neg (by simp [show isReserved "else" = true by decide])]
      exact .bind (g.rejects_expressionRule (.inr rfl))
  apply Rejects.deeper
  apply Rejects.currentSpan_bind
  intro start
  exact .peek_bind (.bind word)

theorem limit_ofSize (size : Nat) : (Grammar.ofSize size).limit = size := by
  cases size <;> rfl

section Streams

theorem tokenAt_eq_map (ls : List Lexeme) (i : Nat) : tokenAt ls i = (ls.map Lexeme.token)[i]? := by
  rw [tokenAt,List.getElem?_map]

theorem alike_tokens {ls ls' : List Lexeme} (alike : List.Forall₂ Lexeme.Alike ls ls') :
    ls'.map Lexeme.token = ls.map Lexeme.token := by
  induction alike with
  | nil => rfl
  | cons first _ ih => rw [List.map_cons,List.map_cons,first.1,ih]

theorem alike_newlines {ls ls' : List Lexeme} (alike : List.Forall₂ Lexeme.Alike ls ls') :
    ls'.map Lexeme.newlineBefore = ls.map Lexeme.newlineBefore := by
  induction alike with
  | nil => rfl
  | cons first _ ih => rw [List.map_cons,List.map_cons,first.2,ih]

theorem tokenAt_append_left {ls : List Lexeme} {i : Nat} (inside : i < ls.length)
    (more : List Lexeme) : tokenAt (ls ++ more) i = tokenAt ls i := by
  rw [tokenAt,tokenAt,List.getElem?_append_left inside]

theorem newlineAt_append_left {ls : List Lexeme} {i : Nat} (inside : i < ls.length)
    (more : List Lexeme) : newlineAt (ls ++ more) i = newlineAt ls i := by
  rw [newlineAt,newlineAt,List.getElem?_append_left inside]

/-- Lexemes up to a semicolon, with the end of input and with others after them. -/
def Twins.upTo (tokens : List Lexeme) (finish next : Lexeme) (more : List Lexeme)
    (ended : finish.token = .endOfInput)
    (closed : ∀ i, i + 1 = tokens.length → tokenAt tokens i = some .semicolon)
    (other : next.token ≠ .word "else") : Twins where
  short := tokens ++ [finish]
  long := tokens ++ next :: more
  cut := tokens.length
  strict := False
  tokens i inside := by rw [tokenAt_append_left inside,tokenAt_append_left inside]
  newlines i _ inside := by rw [newlineAt_append_left inside,newlineAt_append_left inside]
  ended i last := by
    obtain rfl : i = tokens.length := by simpa using last
    simp [tokenAt,ended]
  ends := by simp
  before _ i last := by
    rw [tokenAt_append_left (Nat.lt_of_succ_le last.le)]
    exact closed i last
  after _ := by simpa [tokenAt] using other
  whole := False.elim

/-- Two streams with the same tokens and line breaks; the line break before the first token is of
no account. -/
def Twins.throughout (ls ls' : List Lexeme) (strict : Prop)
    (tokens : ls'.map Lexeme.token = ls.map Lexeme.token)
    (newlines : ls'.tail.map Lexeme.newlineBefore = ls.tail.map Lexeme.newlineBefore)
    (ended : ∀ i, i + 1 = ls.length → tokenAt ls i = some .endOfInput) : Twins where
  short := ls
  long := ls'
  cut := ls.length
  strict := strict
  tokens i _ := by rw [tokenAt_eq_map,tokenAt_eq_map,tokens]
  newlines i consumed _ := by
    obtain ⟨i, rfl⟩ : ∃ k, i = k + 1 := ⟨i - 1, by omega⟩
    have same := congrArg (fun flags => flags[i]?) newlines
    simpa [newlineAt,List.getElem?_tail] using same
  ended := ended
  ends := .inl ⟨rfl, by simpa using congrArg List.length tokens⟩
  before past := absurd past (Nat.succ_ne_self _).symm
  after past := absurd past (Nat.succ_ne_self _).symm
  whole _ := rfl

end Streams

/-- Where a parser starts. -/
theorem exists_initial {ls : List Lexeme} (nonempty : ls ≠ []) : ∃ s : State,
    ls = s.current :: s.upcoming ∧ s.depth = 0 ∧ s.noIn = false ∧
      ∀ p, parseLexemes ls = .ok p ↔ ∃ s', (Grammar.ofSize ls.length).program s = .ok p s' := by
  obtain ⟨first, rest, rfl⟩ := List.exists_cons_of_ne_nil nonempty
  refine ⟨⟨none, first, rest, 0, false⟩, rfl, rfl, rfl, fun p => ?_⟩
  rw [parseLexemes]
  split
  next run =>
    constructor
    · rintro ⟨⟩
      exact ⟨_, run⟩
    · rintro ⟨s', run'⟩
      cases run.symm.trans run'
      rfl
  next run =>
    constructor
    · rintro ⟨⟩
    · rintro ⟨s', run'⟩
      cases run.symm.trans run'

/-- A program whose first token is `else` is none. -/
theorem ne_else_of_program {size : Nat} {s s' : State} {p : Program} (goesOn : 0 < size)
    (run : (Grammar.ofSize size).program s = .ok p s') : s.current.token ≠ .word "else" := by
  intro here
  obtain ⟨size, rfl⟩ : ∃ k, size = k + 1 := ⟨size - 1, by omega⟩
  obtain ⟨body, run, -⟩ := program_eq_ok.mp run
  obtain ⟨e, t, fails⟩ := (Grammar.ofSize size).rejects_statementRule s here
  rw [limit_ofSize,loop,bind_eq_ok] at run
  obtain ⟨r, s₁, first, -⟩ := run
  obtain ⟨a, read, -⟩ := nextStatement_eq_ok (by simp [here]) first
  cases fails.symm.trans read

theorem parseLexemes_append {tokens tail tail' : List Lexeme} {finish l l' : Lexeme}
    {p q : Program} (first : parseLexemes (tokens ++ [finish]) = .ok p)
    (second : parseLexemes (l :: tail) = .ok q) (ended : finish.token = .endOfInput)
    (only : ∀ l ∈ tokens, l.token ≠ .endOfInput)
    (closed : ∀ i, i + 1 = tokens.length → tokenAt tokens i = some .semicolon)
    (ended' : ∀ i, i + 1 = (l :: tail).length → tokenAt (l :: tail) i = some .endOfInput)
    (same : l'.token = l.token) (alike : List.Forall₂ Lexeme.Alike tail tail') :
    ∃ r, parseLexemes (tokens ++ l' :: tail') = .ok r ∧
      r.body.map Stmt.erase = p.body.map Stmt.erase ++ q.body.map Stmt.erase := by
  obtain ⟨s, here, depth, noIn, parsed⟩ := exists_initial (by simp : tokens ++ [finish] ≠ [])
  obtain ⟨t, there, depth', noIn', parses⟩ := exists_initial (by simp : tokens ++ l' :: tail' ≠ [])
  obtain ⟨u, here', depth'', noIn'', parsed'⟩ := exists_initial (by simp : l :: tail ≠ [])
  obtain ⟨s', run⟩ := (parsed p).mp first
  obtain ⟨u', run'⟩ := (parsed' q).mp second
  obtain ⟨rfl, rfl⟩ : u.current = l ∧ u.upcoming = tail := by simpa using here'.symm
  have other : l'.token ≠ .word "else" := same ▸ ne_else_of_program (by simp) run'
  -- The first text ends in the mode that it was started in.
  obtain ⟨m, mode, rfl, -⟩ := (Grammar.bounded_ofSize _).program
    (m := ⟨0, false, Nat.zero_le _⟩) rfl s p s' ⟨depth, noIn⟩ run
  obtain ⟨body, loops, rfl⟩ := program_eq_ok.mp run
  obtain ⟨body', loops', rfl⟩ := program_eq_ok.mp run'
  rw [limit_ofSize] at loops loops'
  have lengths : tail'.length = u.upcoming.length := by
    simpa using congrArg List.length (alike_tokens alike)
  -- Up to the semicolon.
  let cut := Twins.upTo tokens finish l' tail' ended closed other
  have start : cut.Stand 0 s t := ⟨here, there, by rw [depth,depth'], by rw [noIn,noIn']⟩
  have tracks : cut.Tracks (.ofSize (tokens ++ [finish]).length)
      (.ofSize (tokens ++ l' :: tail').length) := Twins.tracks_ofSize (by simp) False.elim
  have noEnd : ∀ i < cut.cut, tokenAt cut.short i ≠ some .endOfInput := by
    intro i (inside : i < tokens.length)
    have found : (tokens ++ [finish])[i]? = some tokens[i] := by
      rw [List.getElem?_append_left inside,List.getElem?_eq_getElem inside]
    show tokenAt (tokens ++ [finish]) i ≠ _
    simpa [tokenAt,found] using only _ (List.getElem_mem inside)
  have room : tokens.length ≤ (tokens ++ l' :: tail').length + 0 := by simp
  obtain ⟨m', found, t', left, stand, firsts, goesOn⟩ :=
    tracks.nextStatements noEnd start (rfl : List.map Stmt.erase [] = List.map Stmt.erase []) room
      loops
  -- From there on.
  have ahead : l' :: tail' = t'.current :: t'.upcoming := by
    rw [← stand.right]
    show _ = (tokens ++ l' :: tail').drop tokens.length
    simp
  let more := Twins.throughout (u.current :: u.upcoming) (l' :: tail') False
    (by simp [same,alike_tokens alike]) (alike_newlines alike) ended'
  have start' : more.Stand 0 u t' :=
    ⟨rfl, ahead, by rw [stand.depth,mode.1,depth''], by rw [stand.noIn,mode.2,noIn'']⟩
  have tracks' : more.Tracks (.ofSize (u.current :: u.upcoming).length)
      (.ofSize (tokens ++ l' :: tail').length) := Twins.tracks_ofSize (by simp [lengths]) False.elim
  have enough : (u.current :: u.upcoming).length ≤ m' := by
    have left : (tokens ++ l' :: tail').length + 0 ≤ m' + tokens.length := left
    simp only [List.length_append,List.length_cons] at left ⊢
    omega
  have step := tracks'.moreStatements rfl enough False.elim found u t' start'
  rw [loops'] at step
  obtain ⟨_, body'', t'', run'', _, both⟩ := step
  refine ⟨_, (parses _).mpr ⟨t'', program_eq_ok.mpr ⟨body'', ?_, rfl⟩⟩, ?_⟩
  · rw [limit_ofSize,goesOn,run'']
  · rw [both,firsts]

end Parser

def EndsInSemicolon (source : String) : Prop :=
  ∃ tokens, (lexText source).map (List.map Lexeme.token) =
    .ok (tokens ++ [.semicolon, .endOfInput])

theorem interpreterLine_unmarked {text : List Char} (unmarked : ¬['#', '!'] <+: text) :
    interpreterLine text = 0 := by
  unfold interpreterLine
  split
  · exact absurd ⟨_, rfl⟩ unmarked
  · rfl

theorem parseText_eq_ok {source : String} {p : Program} :
    parseText source = .ok p ↔ ∃ ls, lexText source = .ok ls ∧ parseLexemes ls = .ok p := by
  rw [parseText]
  cases lexText source <;> simp

/-- A program that a semicolon ends and one on the lines after it are one program, with the
statements of both. -/
theorem parseText_append (first second : String) (p q : Program) (parsed : parseText first = .ok p)
    (parsed' : parseText second = .ok q) (closed : EndsInSemicolon first)
    (unmarked : ¬['#', '!'] <+: second.toList) :
    ∃ r, parseText (first ++ "\n" ++ second) = .ok r ∧
      r.body.map Stmt.erase = p.body.map Stmt.erase ++ q.body.map Stmt.erase := by
  obtain ⟨ls, lexed, parsed⟩ := parseText_eq_ok.mp parsed
  obtain ⟨ls', lexed', parsed'⟩ := parseText_eq_ok.mp parsed'
  obtain ⟨before, semicolon, finish, rfl, isSemicolon, ended⟩ :
      ∃ before semicolon finish, ls = before ++ [semicolon] ++ [finish] ∧
        semicolon.token = .semicolon ∧ finish.token = .endOfInput := by
    obtain ⟨tokens, closes⟩ := closed
    rw [lexed] at closes
    obtain ⟨before, last, rfl, -, two⟩ := List.map_eq_append_iff.mp (Except.ok.inj closes)
    obtain ⟨semicolon, rest, rfl, isSemicolon, one⟩ := List.map_eq_cons_iff.mp two
    obtain ⟨finish, rest, rfl, ended, none⟩ := List.map_eq_cons_iff.mp one
    obtain rfl : rest = [] := List.map_eq_nil_iff.mp none
    exact ⟨before, semicolon, finish, by simp, isSemicolon, ended⟩
  have only : ∀ l ∈ before ++ [semicolon], l.token ≠ .endOfInput := by
    obtain ⟨_, _, _, -, tiling⟩ := tiling_of_lexChars lexed
    obtain ⟨tokens, _, _, split, -, only⟩ := tiling.last
    exact (List.append_inj' split rfl).1 ▸ only
  obtain ⟨_, _, _, -, tiling⟩ := tiling_of_lexChars lexed'
  obtain ⟨tokens, stop, newline, split, -⟩ := tiling.last
  obtain ⟨l, tail, rfl⟩ : ∃ l tail, ls' = l :: tail :=
    List.exists_cons_of_ne_nil (by simp [split])
  have ended' : ∀ i, i + 1 = (l :: tail).length →
      Parser.tokenAt (l :: tail) i = some .endOfInput := by
    intro i last
    rw [split] at last ⊢
    obtain rfl : i = tokens.length := by simpa using last
    simp [Parser.tokenAt]
  obtain ⟨l', tail', lexed'', same, alike⟩ := lexChars_append lexed
    (by simp [lastToken,isSemicolon,Token.allowsRegex]) lexed' (interpreterLine_unmarked unmarked)
  have closed : ∀ i, i + 1 = (before ++ [semicolon]).length →
      Parser.tokenAt (before ++ [semicolon]) i = some .semicolon := by
    intro i last
    obtain rfl : i = before.length := by simpa using last
    simp [Parser.tokenAt,isSemicolon]
  obtain ⟨r, parsed'', bodies⟩ :=
    Parser.parseLexemes_append parsed parsed' ended only closed ended' same alike
  refine ⟨r, parseText_eq_ok.mpr ⟨_, ?_, parsed''⟩, bodies⟩
  simpa [lexText] using lexed''

/-- A condition without an alternative, and a regular expression that is no division. -/
theorem parseText_append_condition : ∃ p q r, parseText "if(a)b;" = .ok p ∧
    parseText "/c/" = .ok q ∧ parseText ("if(a)b;" ++ "\n" ++ "/c/") = .ok r ∧
      r.body.map Stmt.erase = p.body.map Stmt.erase ++ q.body.map Stmt.erase := by
  obtain ⟨p, parsed⟩ := exists_of_isOk (by decide +kernel : (parseText "if(a)b;").isOk = true)
  obtain ⟨q, parsed'⟩ := exists_of_isOk (by decide +kernel : (parseText "/c/").isOk = true)
  have closed : EndsInSemicolon "if(a)b;" :=
    ⟨[.word "if", .leftParen, .word "a", .rightParen, .word "b"], by decide +kernel⟩
  obtain ⟨r, both⟩ := parseText_append _ _ p q parsed parsed' closed (by decide)
  exact ⟨p, q, r, parsed, parsed', both⟩

end CodeCompletion
