import CodeCompletion.Proofs.Parser.Depth.Statement
import CodeCompletion.Proofs.Token.Concatenation

/-! How deep the tree of a text can be. The cap holds for every way down that does not enter
what a node is wrapped around; a way that does can be longer, and `descent_exceeds_cap` is one
that is. Still no chain has more links than the cap, and all chains on a way together have a
bound, which only classes that extend classes go beyond. -/
namespace CodeCompletion

open TreeNode

theorem fits_of_parseLexemes {ls : List Lexeme} {program : Program}
    (h : parseLexemes ls = .ok program) : FitsAt 0 (.program program) := by
  cases ls with
  | nil =>
    cases h
    exact limited_uncounted rfl (Nat.zero_le _) (by simp [children,stmts])
  | cons first rest =>
    rw [parseLexemes] at h
    split at h
    next s run =>
      cases h
      have bounded := Parser.Grammar.bounded_ofSize (rest.length + 1)
      let outermost : Parser.Mode := ⟨0, false, Nat.zero_le _⟩
      obtain ⟨m, -, -, fits⟩ := bounded.program (m := outermost) rfl _ _ s ⟨rfl, rfl⟩ run
      exact fits
    next => cases h

namespace Parser

theorem deeper_run {α : Type} {p : Parser α} {a : α} {previous previous' : Option Span}
    {current current' : Lexeme} {upcoming upcoming' : List Lexeme} {depth : Nat}
    {noIn noIn' : Bool} (room : depth < maxDepth)
    (step : p ⟨previous, current, upcoming, depth + 1, noIn⟩ =
      .ok a ⟨previous', current', upcoming', depth + 1, noIn'⟩) :
    deeper p ⟨previous, current, upcoming, depth, noIn⟩ =
      .ok a ⟨previous', current', upcoming', depth, noIn'⟩ := by
  have down : descend ⟨previous, current, upcoming, depth, noIn⟩ =
      .ok () ⟨previous, current, upcoming, depth + 1, noIn⟩ := by
    simp [descend,Nat.not_le.mpr room]
  rw [deeper,bind_run down]
  simp [restoring,step]

def negated (n : Nat) (rest : List Token) : List Token :=
  List.replicate n (.op "!") ++ .word "a" :: rest

/-- Negations are counted one inside the other. -/
theorem unaryRule_negated (n k : Nat) (previous : Option Span) (noIn : Bool) {current : Lexeme}
    {upcoming : List Lexeme} {depth : Nat} {rest : List Token}
    (ahead : (current :: upcoming).map Lexeme.token = negated n (.op "+" :: rest))
    (room : depth + n ≤ maxDepth) :
    ∃ e previous' current' upcoming', (Grammar.ofSize (n + k + 1)).unaryRule
        ⟨previous, current, upcoming, depth, noIn⟩ =
          .ok e ⟨previous', current', upcoming', depth, noIn⟩ ∧
      (current' :: upcoming').map Lexeme.token = .op "+" :: rest ∧ Descent (.expr e) n 0 0 := by
  induction n generalizing previous current upcoming depth with
  | zero =>
    obtain ⟨_, span, newline⟩ := current
    obtain ⟨rfl, after⟩ := List.cons.inj ahead
    obtain ⟨⟨_, span', newline'⟩, others, rfl, rfl, same⟩ := List.map_eq_cons_iff.mp after
    rw [Nat.zero_add]
    exact ⟨.ident (span.cover span) "a", some span, ⟨.op "+", span', newline'⟩, others, rfl,
      by simp [same], .leaf rfl⟩
  | succ n ih =>
    obtain ⟨_, span, newline⟩ := current
    obtain ⟨rfl, after⟩ := List.cons.inj ahead
    cases upcoming with
    | nil => exact absurd after (by simp)
    | cons next upcoming =>
      have step : (Grammar.ofSize (n + 1 + k + 1)).unaryRule
          ⟨previous, ⟨.op "!", span, newline⟩, next :: upcoming, depth, noIn⟩ = (do
            let operand ← deeper (Grammar.ofSize (n + 1 + k)).unaryRule
            return .unary (← finish span) "!" operand : Parser Expr)
              ⟨some span, next, upcoming, depth, noIn⟩ := rfl
      obtain ⟨e, previous', current', upcoming', run, ahead', way⟩ :=
        ih (some span) after (by omega : depth + 1 + n ≤ maxDepth)
      have size : n + 1 + k = n + k + 1 := by omega
      rw [step,size,bind_run (deeper_run (by omega) run)]
      refine ⟨_, _, _, _, rfl, ahead', ?_⟩
      have member : .expr e ∈
          TreeNode.inner (.expr (.unary (span.cover (previous'.getD current'.span)) "!" e)) := by
        simp [TreeNode.inner,children,ofExpr]
      exact Nat.add_comm 1 n ▸ Descent.inner member way

/-- A text that is one expression is one statement. -/
theorem program_of_binaryRule {k : Nat} {last : Option Span} {first finish : Lexeme}
    {upcoming : List Lexeme} {e : Expr} (starts : first.token = .op "!")
    (ends : finish.token = .endOfInput)
    (run : (Grammar.ofSize (k + 1)).binaryRule 1 ⟨none, first, upcoming, 2, false⟩ =
      .ok e ⟨last, finish, [], 2, false⟩) :
    ∃ span span' t, (Grammar.ofSize (k + 2)).program ⟨none, first, upcoming, 0, false⟩ =
      .ok ⟨[.expr span e], span'⟩ t := by
  obtain ⟨_, span, newline⟩ := first
  cases starts
  obtain ⟨_, span', newline'⟩ := finish
  cases ends
  have conditional : (Grammar.ofSize (k + 1)).conditionalRule
      ⟨none, ⟨.op "!", span, newline⟩, upcoming, 2, false⟩ =
        .ok e ⟨last, ⟨.endOfInput, span', newline'⟩, [], 2, false⟩ := by
    rw [Grammar.conditionalRule,bind_run run]
    rfl
  have assignment : (Grammar.ofSize (k + 1)).assignmentRule
      ⟨none, ⟨.op "!", span, newline⟩, upcoming, 1, false⟩ =
        .ok e ⟨last, ⟨.endOfInput, span', newline'⟩, [], 1, false⟩ := by
    apply deeper_run (by decide)
    show ((Grammar.ofSize (k + 1)).conditionalRule >>= _) _ = _
    rw [bind_run conditional]
    rfl
  have expression : (Grammar.ofSize (k + 1)).expressionRule
      ⟨none, ⟨.op "!", span, newline⟩, upcoming, 1, false⟩ =
        .ok e ⟨last, ⟨.endOfInput, span', newline'⟩, [], 1, false⟩ := by
    rw [Grammar.expressionRule,bind_run assignment]
    rfl
  have statement : (Grammar.ofSize (k + 1)).statementRule
      ⟨none, ⟨.op "!", span, newline⟩, upcoming, 0, false⟩ =
        .ok (.expr (span.cover (last.getD span')) e)
          ⟨last, ⟨.endOfInput, span', newline'⟩, [], 0, false⟩ := by
    apply deeper_run (by decide)
    show (((Grammar.ofSize (k + 1)).expressionRule >>= _) >>= _) _ = _
    rw [bind_assoc,bind_run expression]
    rfl
  refine ⟨span.cover (last.getD span'), span.cover span',
    ⟨last, ⟨.endOfInput, span', newline'⟩, [], 0, false⟩, ?_⟩
  show (((((Grammar.ofSize (k + 1)).statementRule >>= _) >>= _) >>= _) >>= _) _ = _
  rw [bind_assoc,bind_assoc,bind_assoc,bind_run statement]
  rfl

theorem descent_sum {left right : Expr} {span : Span} {counted around : Nat}
    (way : Descent (.expr left) counted around 0) :
    Descent (.expr (.binary span "+" left right)) (1 + counted) (1 + around) 0 :=
  Descent.wrapped (n := .expr (.binary span "+" left right)) (by simp [wrapped]) way

theorem descent_statement {e : Expr} {span span' : Span} {counted around : Nat}
    (way : Descent (.expr e) counted around 0) :
    Descent (.program ⟨[.expr span e], span'⟩) (1 + counted) around 0 := by
  have statement := Descent.inner (n := .stmt (.expr span e))
    (by simp [TreeNode.inner,children,ofStmt]) way
  have whole := Descent.inner (n := .program ⟨[.expr span e], span'⟩)
    (by simp [TreeNode.inner,children,stmts]) statement
  rwa [← Nat.add_assoc] at whole

/-- The negations reach the cap, are left again, and are the first operand of two sums. -/
theorem program_negated (n : Nat) {first : Lexeme} {upcoming : List Lexeme}
    (ahead : (first :: upcoming).map Lexeme.token =
      negated (n + 1) [.op "+", .word "a", .op "+", .word "a", .endOfInput])
    (room : n + 3 ≤ maxDepth) :
    ∃ program t, (Grammar.ofSize (n + 7)).program ⟨none, first, upcoming, 0, false⟩ =
      .ok program t ∧ Descent (.program program) (n + 4) 2 0 := by
  have fits : 2 + (n + 1) ≤ maxDepth := by omega
  obtain ⟨e, previous, plus, others, run, after, way⟩ :=
    unaryRule_negated (n + 1) 4 none false ahead fits
  simp only [List.map_cons,List.cons.injEq,List.map_eq_cons_iff,List.map_eq_nil_iff] at after
  obtain ⟨isPlus, second, _, rfl, isName, plus', _, rfl, isPlus', third, _, rfl, isName', finish,
    _, rfl, isEnd, rfl⟩ := after
  have size : n + 1 + 4 + 1 = n + 5 + 1 := by omega
  rw [size] at run
  obtain ⟨_, span₁, newline₁⟩ := plus
  obtain ⟨_, span₂, newline₂⟩ := second
  obtain ⟨_, span₃, newline₃⟩ := plus'
  obtain ⟨_, span₄, newline₄⟩ := third
  obtain ⟨_, span₅, newline₅⟩ := finish
  cases isPlus
  cases isName
  cases isPlus'
  cases isName'
  cases isEnd
  let name (span : Span) : Expr := .ident (span.cover span) "a"
  let sum (left right : Expr) : Expr := .binary (left.span.cover right.span) "+" left right
  let both := sum (sum e (name span₂)) (name span₄)
  have sums : (Grammar.ofSize (n + 5 + 1)).binaryRule 1 ⟨none, first, upcoming, 2, false⟩ =
      .ok both ⟨some span₄, ⟨.endOfInput, span₅, newline₅⟩, [], 2, false⟩ := by
    rw [Grammar.binaryRule,levelled,bind_run run]
    rfl
  obtain ⟨span, span', t, parsed⟩ := program_of_binaryRule (List.cons.inj ahead).1 rfl sums
  have path : Descent (.expr both) (1 + (1 + (n + 1))) (1 + (1 + 0)) 0 := descent_sum (descent_sum way)
  have total : 1 + (1 + (1 + (n + 1))) = n + 4 := by omega
  exact ⟨_, t, parsed, total ▸ descent_statement path⟩

end Parser

/-- A name that is negated `n` times, and two sums. -/
def negations (n : Nat) : List Char := List.replicate n '!' ++ ['a', '+', 'a', '+', 'a']

/-- A text that starts with a token of one character. -/
theorem lexed_character {here : Place} (last : Option Token) (c : Char) {rest : List Char}
    {token : Token} {ls : List Lexeme} (solid : isGapChar c = false) (notSlash : c ≠ '/')
    (read : readToken here last c rest = .ok ⟨token, 1⟩)
    (later : Lexed (here.after c) (some token) rest ls) :
    ∃ l, Lexed here last (c :: rest) (l :: ls) ∧ l.token = token := by
  have gap : gapLength here (c :: rest) = .ok 0 :=
    gapLength_solid solid fun slash => absurd slash notSlash
  have lexed : Lexed here last ([] ++ c :: ([] ++ rest)) _ := .token gap read later
  exact ⟨_, lexed, rfl⟩

theorem lexed_negations (n : Nat) (here : Place) (last : Option Token) :
    ∃ ls, Lexed here last (negations n) ls ∧ ls.map Lexeme.token =
      Parser.negated n [.op "+", .word "a", .op "+", .word "a", .endOfInput] := by
  induction n generalizing here last with
  | zero =>
    have empty : ∀ (here : Place) (last : Option Token),
        ∃ l, Lexed here last [] [l] ∧ l.token = .endOfInput := by
      intro here last
      exact ⟨_, .done (by rw [gapLength]; rfl), rfl⟩
    obtain ⟨l₆, lexed, kind₆⟩ := empty (here.afterAll (negations 0)) (some (.word "a"))
    obtain ⟨l₅, lexed, kind₅⟩ := lexed_character (some (.op "+")) 'a'
      (by decide) (by decide) rfl lexed
    obtain ⟨l₄, lexed, kind₄⟩ := lexed_character (some (.word "a")) '+'
      (by decide) (by decide) rfl lexed
    obtain ⟨l₃, lexed, kind₃⟩ := lexed_character (some (.op "+")) 'a'
      (by decide) (by decide) rfl lexed
    obtain ⟨l₂, lexed, kind₂⟩ := lexed_character (some (.word "a")) '+'
      (by decide) (by decide) rfl lexed
    obtain ⟨l₁, lexed, kind₁⟩ := lexed_character last 'a'
      (by decide) (by decide) rfl lexed
    refine ⟨[l₁, l₂, l₃, l₄, l₅, l₆], lexed, ?_⟩
    simp [kind₁,kind₂,kind₃,kind₄,kind₅,kind₆,Parser.negated]
  | succ n ih =>
    have next : ∃ c rest, negations n = c :: rest ∧ (c = '!' ∨ c = 'a') := by
      cases n with
      | zero => exact ⟨'a', _, rfl, .inr rfl⟩
      | succ n => exact ⟨'!', _, rfl, .inl rfl⟩
    obtain ⟨c, rest, text, next⟩ := next
    have read : readToken here last '!' (negations n) = .ok ⟨.op "!", 1⟩ := by
      rw [text]
      rcases next with rfl | rfl <;> rfl
    obtain ⟨ls, lexed, tokens⟩ := ih (here.after '!') (some (.op "!"))
    obtain ⟨l, whole, kind⟩ := lexed_character last '!' (by decide) (by decide) read lexed
    refine ⟨l :: ls, whole, ?_⟩
    simp [kind,tokens,Parser.negated,List.replicate_succ]

theorem parseText_negations (n : Nat) (room : n + 3 ≤ Parser.maxDepth) :
    ∃ program, parseText (String.ofList (negations (n + 1))) = .ok program ∧
      Descent (.program program) (n + 4) 2 0 := by
  obtain ⟨ls, lexed, tokens⟩ := lexed_negations (n + 1) Place.origin none
  have read : lexText (String.ofList (negations (n + 1))) = .ok ls := by
    rw [lexText,String.toList_ofList]
    exact lexemes_of_lexed lexed
  cases ls with
  | nil => simp [Parser.negated] at tokens
  | cons first rest =>
    have size : rest.length + 1 = n + 7 := by
      have := congrArg List.length tokens
      simpa [Parser.negated] using this
    obtain ⟨program, t, run, way⟩ := Parser.program_negated n tokens room
    refine ⟨program, ?_, way⟩
    simp only [parseText,read,parseLexemes,size,run]

/-- On no way down the tree of a text are there more counted nodes than the deepest tree may
have, apart from those that the way leaves for the node that they are wrapped around. There are
no more than three chains on each level can have, apart from two for each class whose heritage
the way enters. And one chain, of operators, of links or of the links of a `new`, has no more
links than levels are left where it starts. -/
theorem parseText_descent_bounded (source : String) (program : Program) (counted around heirs : Nat)
    (parsed : parseText source = .ok program)
    (way : Descent (.program program) counted around heirs) :
    counted ≤ Parser.maxDepth + around ∧
    counted ≤ longest Parser.maxDepth + heirs * (2 * (Parser.maxDepth + 1)) ∧
    ∀ size, let g := Parser.Grammar.ofSize size
      (∀ least, Parser.Chains g.unaryRule (g.binaryRule least)) ∧
      Parser.Chains g.operand g.chainRule ∧ Parser.Chains g.constructor g.callee := by
  rw [parseText] at parsed
  split at parsed
  next =>
    obtain ⟨capped, limited⟩ := fits_of_parseLexemes parsed counted around heirs way
    refine ⟨by omega, limited, fun size => ?_⟩
    have bounded := Parser.Grammar.bounded_ofSize size
    exact ⟨bounded.chains_binaryRule, bounded.chains_chainRule, bounded.chains_callee⟩
  next => cases parsed

/-- One more negation would be refused. -/
theorem parseText_descent_bounded_negations : ∃ program,
    parseText (String.ofList (negations 1022)) = .ok program ∧
    Descent (.program program) 1025 2 0 ∧ 1025 ≤ Parser.maxDepth + 2 ∧
    1025 ≤ longest Parser.maxDepth := by
  obtain ⟨program, parsed, way⟩ := parseText_negations 1021 (by decide)
  obtain ⟨capped, limited, -⟩ := parseText_descent_bounded _ _ _ _ _ parsed way
  exact ⟨program, parsed, way, capped, by simpa using limited⟩

/-- The cap itself is exceeded where nodes are wrapped around what has reached it. -/
theorem descent_exceeds_cap : ∃ program counted around,
    parseText (String.ofList (negations 1022)) = .ok program ∧
    Descent (.program program) counted around 0 ∧ Parser.maxDepth < counted := by
  obtain ⟨program, parsed, way⟩ := parseText_negations 1021 (by decide)
  exact ⟨program, 1025, 2, parsed, way, by decide⟩

end CodeCompletion
