import CodeCompletion.Proofs.Parser.Composition

/-! Precedence climbing. A sequence of names and binary operators is read as one expression that
keeps their order and groups them as tightly as the operators bind: operators of one level from the
left, and `**` from the right. -/
namespace CodeCompletion

/-- What an expression is written as, apart from parentheses. -/
inductive Piece where
  | operand (name : String)
  | operator (op : String)
deriving DecidableEq

namespace Expr

def pieces : Expr → List Piece
  | .ident _ name => [.operand name]
  | .binary _ op left right => left.pieces ++ .operator op :: right.pieces
  | _ => []

/-- A name, or an operator of the given level or a tighter one with its operands. -/
def Binds (level : Nat) : Expr → Prop
  | .ident _ _ => True
  | .binary _ op _ _ => ∃ own, Parser.precedence? op = some own ∧ level ≤ own
  | _ => False

/-- Names and binary operators, where what an operator has on its left binds no less tightly than
the operator, and what it has on its right binds more tightly; for `**` it is the other way
round. -/
def Grouped : Expr → Prop
  | .ident _ _ => True
  | .binary _ op left right =>
    (∃ level, Parser.precedence? op = some level ∧
      left.Binds (if op = "**" then level + 1 else level) ∧
      right.Binds (if op = "**" then level else level + 1)) ∧
    left.Grouped ∧ right.Grouped
  | _ => False

end Expr

def Token.text : Token → String
  | .word text | .op text => text
  | _ => ""

namespace Parser

def operatorOf (token : Token) : Option (String × Nat) :=
  let op :=
    match token with
    | .op text => some text
    | .word "instanceof" => some "instanceof"
    | .word "in" => some "in"
    | _ => none
  op.bind fun text => (precedence? text).map (text, ·)

def operations : List (Token × String) → List Token
  | [] => [.endOfInput]
  | (token, name) :: rest => token :: .word name :: operations rest

def operationPieces (rest : List (Token × String)) : List Piece :=
  rest.flatMap fun (token, name) => [.operator token.text, .operand name]

def Proper (rest : List (Token × String)) : Prop :=
  ∀ x ∈ rest, (operatorOf x.1).isSome = true ∧ isReserved x.2 = false

section Tokens

variable {token : Token} {op : String} {level : Nat}

theorem precedence_of_operatorOf (known : operatorOf token = some (op, level)) :
    token.text = op ∧ precedence? op = some level := by
  obtain ⟨text, spelled, found⟩ := Option.bind_eq_some_iff.mp known
  obtain ⟨own, found, same⟩ := Option.map_eq_some_iff.mp found
  cases same
  refine ⟨?_, found⟩
  split at spelled <;> cases spelled <;> rfl

/-- Only `**` is of the tightest level. -/
theorem precedence?_tightest : precedence? op = some 11 ↔ op = "**" := by
  constructor
  · intro tightest
    unfold precedence? at tightest
    split at tightest
    all_goals first | rfl | cases tightest
  · rintro rfl
    rfl

theorem precedence?_bounds (known : precedence? op = some level) : 1 ≤ level ∧ level ≤ 11 := by
  unfold precedence? at known
  split at known
  all_goals
    cases known
    all_goals decide

def EndsOperand (token : Token) : Prop := token = .endOfInput ∨ (operatorOf token).isSome = true

theorem endsOperand_cases (ends : EndsOperand token) :
    token = .endOfInput ∨ (∃ text, token = .op text ∧ (precedence? text).isSome = true) ∨
      token = .word "instanceof" ∨ token = .word "in" := by
  rcases ends with rfl | known
  · exact .inl rfl
  · unfold operatorOf at known
    split at known
    · exact .inr (.inl ⟨_, rfl, by simpa using known⟩)
    · exact .inr (.inr (.inl rfl))
    · exact .inr (.inr (.inr rfl))
    · cases known

/-- No binary operator is among others that are none. -/
theorem contains_eq_false {others : List String} (known : (precedence? op).isSome = true)
    (unknown : others.all (fun other => (precedence? other).isNone) = true) :
    others.contains op = false := by
  rw [List.contains_eq_any_beq,List.any_eq_false]
  intro other member same
  obtain rfl : op = other := by simpa using same
  have := List.all_eq_true.mp unknown op member
  rw [Option.isNone_iff_eq_none] at this
  rw [this] at known
  cases known

end Tokens

section Runs

variable {α β : Type} {s s' : State}

theorem loop_leave {step : α → Parser (α ⊕ β)} {n : Nat} {a : α} {b : β}
    (leaves : step a s = .ok (.inr b) s') : loop step (n + 1) a s = .ok b s' :=
  bind_run leaves

/-- What a loop keeps from turn to turn, and what it leaves with. -/
theorem loop_invariant {step : α → Parser (α ⊕ β)} {I : α → State → Prop}
    {Q : β → State → Prop}
    (turn : ∀ a s r s', I a s → step a s = .ok r s' → r.elim (I · s') (Q · s'))
    {n : Nat} {a : α} {b : β} (start : I a s) (run : loop step n a s = .ok b s') :
    Q b s' := by
  induction n generalizing a s with
  | zero => cases run
  | succ n ih =>
    rw [loop,bind_eq_ok] at run
    obtain ⟨r, t, first, run⟩ := run
    have kept := turn a s r t start first
    cases r with
    | inl a => exact ih kept run
    | inr b =>
      cases run
      exact kept

theorem levelled_eq_ok {p : Parser α} {a : α} (run : levelled p s = .ok a s') :
    ∃ t, p s = .ok a t ∧ s' = { t with depth := s.depth } := by
  unfold levelled at run
  split at run
  next t step =>
    cases run
    exact ⟨t, step, rfl⟩
  next => cases run

theorem descend_eq_ok (run : descend s = .ok () s') : s' = { s with depth := s.depth + 1 } := by
  unfold descend at run
  split at run <;> cases run
  rfl

theorem deeper_eq_ok {p : Parser α} {a : α} (run : deeper p s = .ok a s') :
    ∃ t, p { s with depth := s.depth + 1 } = .ok a t ∧ s' = { t with depth := t.depth - 1 } := by
  obtain ⟨⟨⟩, s₁, down, run⟩ := bind_eq_ok.mp run
  obtain rfl := descend_eq_ok down
  unfold restoring at run
  split at run
  next t step =>
    cases run
    exact ⟨t, step, rfl⟩
  next => cases run

theorem accept_other {token : Token} (other : s.current.token ≠ token) :
    accept token s = .ok false s := by
  rw [accept,bind_run (p := peek) rfl,if_neg other]
  rfl

end Runs

structure Facing (tokens : List Token) (s : State) : Prop where
  ahead : (s.current :: s.upcoming).map Lexeme.token = tokens
  operator : s.noIn = false

theorem Facing.here {token : Token} {tokens : List Token} {s : State}
    (facing : Facing (token :: tokens) s) : s.current.token = token := (List.cons.inj facing.ahead).1

theorem Facing.atDepth {tokens : List Token} {s : State} (facing : Facing tokens s) (depth : Nat) :
    Facing tokens { s with depth } := ⟨facing.ahead, facing.operator⟩

section Operand

variable {g : Grammar} {name : String} {rest : List (Token × String)} {s : State}

theorem endsOperand_of_facing (proper : Proper rest) (facing : Facing (operations rest) s) :
    EndsOperand s.current.token := by
  cases rest with
  | nil => exact .inl facing.here
  | cons x rest =>
    rw [facing.here]
    exact .inr (proper x List.mem_cons_self).1

theorem wordValue_name (unreserved : isReserved name = false) :
    g.wordValue name = do let name ← ident; return (.ident · name.name) := by
  unfold Grammar.wordValue
  split
  case h_8 => rfl
  all_goals exact absurd unreserved (by decide)

theorem link_endsOperand {base : Expr} (ends : EndsOperand s.current.token) :
    g.link base s = .ok none s := by
  rw [Grammar.link,bind_run (p := peek) rfl]
  rcases endsOperand_cases ends with same | ⟨text, same, -⟩ | same | same
  all_goals
    rw [same]
    rfl

theorem updateOperator?_endsOperand (ends : EndsOperand s.current.token) :
    updateOperator? s = .ok none s := by
  rw [updateOperator?,bind_run (p := peek) rfl]
  rcases endsOperand_cases ends with same | ⟨text, same, known⟩ | same | same
  case inr.inl =>
    rw [same]
    simp only [contains_eq_false known (by decide : ["++", "--"].all _ = true)]
    rfl
  all_goals
    rw [same]
    rfl

variable {span : Span} {newline : Bool} {previous : Option Span} {next : Lexeme}
  {upcoming : List Lexeme} {depth : Nat} {noIn : Bool}

theorem value_name (unreserved : isReserved name = false) :
    g.value ⟨previous, ⟨.word name, span, newline⟩, next :: upcoming, depth, noIn⟩ =
      .ok (.ident (span.cover span) name) ⟨some span, next, upcoming, depth, noIn⟩ := by
  have read : ident ⟨previous, ⟨.word name, span, newline⟩, next :: upcoming, depth, noIn⟩ =
      .ok ⟨name, span⟩ ⟨some span, next, upcoming, depth, noIn⟩ := by
    rw [ident,bind_run (p := peek) rfl]
    simp only [unreserved]
    rfl
  rw [Grammar.value,bind_run (p := currentSpan) rfl,bind_run (p := peek) rfl]
  simp only [wordValue_name unreserved,bind_assoc]
  rw [bind_run read]
  rfl

/-- An operand is read as a name, without anything chained to it. -/
theorem chainRule_name (unreserved : isReserved name = false) (ends : EndsOperand next.token)
    {e : Expr} {s' : State}
    (run : g.chainRule ⟨previous, ⟨.word name, span, newline⟩, next :: upcoming, depth, noIn⟩ =
      .ok e s') :
    e = .ident (span.cover span) name ∧ s' = ⟨some span, next, upcoming, depth, noIn⟩ := by
  have notNew : Token.word name ≠ .word "new" := by
    intro same
    cases same
    exact absurd unreserved (by decide)
  rw [Grammar.chainRule,bind_run (p := currentSpan) rfl,levelled,bind_run (p := peek) rfl,
    if_neg notNew,bind_run (value_name unreserved)] at run
  cases limit : g.limit with
  | zero =>
    rw [limit] at run
    cases run
  | succ n =>
    rw [limit] at run
    beta_reduce at run
    rw [loop_leave ((bind_run (link_endsOperand ends)).trans rfl)] at run
    cases run
    exact ⟨rfl, rfl⟩

theorem unaryRule_name (unreserved : isReserved name = false) (ends : EndsOperand next.token)
    {e : Expr} {s' : State}
    (run : g.unaryRule ⟨previous, ⟨.word name, span, newline⟩, next :: upcoming, depth, noIn⟩ =
      .ok e s') :
    e = .ident (span.cover span) name ∧ s' = ⟨some span, next, upcoming, depth, noIn⟩ := by
  have plain : ["typeof", "void", "delete"].contains name = false := by
    rw [List.contains_eq_any_beq,List.any_eq_false]
    intro other member same
    obtain rfl : name = other := by simpa using same
    have reserved : ["typeof", "void", "delete"].all isReserved = true := by decide
    rw [List.all_eq_true.mp reserved name member] at unreserved
    cases unreserved
  have notUnary : unaryOperator? ⟨previous, ⟨.word name, span, newline⟩, next :: upcoming, depth, noIn⟩ =
      .ok none ⟨previous, ⟨.word name, span, newline⟩, next :: upcoming, depth, noIn⟩ := by
    rw [unaryOperator?,bind_run (p := peek) rfl]
    simp only [plain]
    rfl
  have noPrefix :
      g.unaryRule ⟨previous, ⟨.word name, span, newline⟩, next :: upcoming, depth, noIn⟩ =
        g.postfixRule ⟨previous, ⟨.word name, span, newline⟩, next :: upcoming, depth, noIn⟩ := by
    rw [Grammar.unaryRule,bind_run (p := currentSpan) rfl,bind_run notUnary]
    rfl
  rw [noPrefix,Grammar.postfixRule,bind_run (p := currentSpan) rfl,bind_eq_ok] at run
  obtain ⟨operand, t, chained, run⟩ := run
  obtain ⟨rfl, rfl⟩ := chainRule_name unreserved ends chained
  rw [bind_run (updateOperator?_endsOperand ends),bind_run (p := newlineBefore) rfl] at run
  cases run
  exact ⟨rfl, rfl⟩

/-- What is left to read after an operand. -/
theorem unaryRule_operand (unreserved : isReserved name = false) (proper : Proper rest)
    (facing : Facing (.word name :: operations rest) s) {e : Expr} {s' : State}
    (run : g.unaryRule s = .ok e s') :
    (∃ span, e = .ident span name) ∧ Facing (operations rest) s' := by
  obtain ⟨previous, ⟨token, span, newline⟩, upcoming, depth, noIn⟩ := s
  obtain ⟨ahead, operator⟩ := facing
  obtain ⟨rfl, later⟩ := List.cons.inj ahead
  cases upcoming with
  | nil => cases rest <;> cases later
  | cons next upcoming =>
    have facing : Facing (operations rest) ⟨some span, next, upcoming, depth, noIn⟩ := ⟨later, operator⟩
    obtain ⟨rfl, rfl⟩ := unaryRule_name unreserved (endsOperand_of_facing proper facing) run
    exact ⟨⟨_, rfl⟩, facing⟩

end Operand

section Climbing

variable {g : Grammar} {least : Nat} {name : String} {rest left : List (Token × String)} {e : Expr}
  {s s' : State}

/-- An expression that has been read from the operand `name` on, with some of the operations behind
it left. -/
structure Reads (least : Nat) (name : String) (rest left : List (Token × String)) (e : Expr)
    (s : State) : Prop where
  facing : Facing (operations left) s
  pieces : ∃ taken, rest = taken ++ left ∧ e.pieces = .operand name :: operationPieces taken
  grouped : e.Grouped
  binds : e.Binds least

theorem Reads.atDepth (reads : Reads least name rest left e s) (depth : Nat) :
    Reads least name rest left e { s with depth } :=
  ⟨reads.facing.atDepth depth, reads.pieces, reads.grouped, reads.binds⟩

def NextOperator (left : List (Token × String)) (P : String → Nat → Prop) : Prop :=
  ∀ token name more op level, left = (token, name) :: more → operatorOf token = some (op, level) →
    P op level

/-- Whatever operator comes next takes an expression as its left operand. -/
def FitsNext (left : List (Token × String)) (e : Expr) : Prop :=
  NextOperator left fun op level => e.Binds (if op = "**" then level + 1 else level)

theorem Reads.proper (proper : Proper rest) (reads : Reads least name rest left e s) :
    Proper left := by
  obtain ⟨taken, rfl, -⟩ := reads.pieces
  exact fun x member => proper x (List.mem_append_right _ member)

theorem operationPieces_append (xs ys : List (Token × String)) :
    operationPieces (xs ++ ys) = operationPieces xs ++ operationPieces ys := List.flatMap_append

theorem binaryOperator?_run (operator : s.noIn = false) :
    binaryOperator? s = .ok (operatorOf s.current.token) s := by
  unfold binaryOperator? operatorOf
  rw [operator]
  rfl

/-- The expression so far becomes the left operand of the next operator. -/
theorem Reads.binary {token : Token} {next : String} {more left' : List (Token × String)} {op : String}
    {level : Nat} {right : Expr} {t : State} {span : Span}
    (reads : Reads least name rest ((token, next) :: more) e s)
    (known : operatorOf token = some (op, level)) (tight : least ≤ level)
    (ready : e.Binds (if op = "**" then level + 1 else level))
    (reads' : Reads (rightLevel op level) next more left' right t) :
    Reads least name rest left' (.binary span op e right) t := by
  obtain ⟨spelled, own⟩ := precedence_of_operatorOf known
  obtain ⟨taken, rfl, pieces⟩ := reads.pieces
  obtain ⟨taken', rfl, pieces'⟩ := reads'.pieces
  refine ⟨reads'.facing, ⟨taken ++ (token, next) :: taken', by simp, ?_⟩, ?_, ⟨level, own, tight⟩⟩
  · rw [Expr.pieces,pieces,pieces',operationPieces_append,← spelled]
    rfl
  · exact ⟨⟨level, own, ready, reads'.binds⟩, reads.grouped, reads'.grouped⟩

/-- An operator that comes after one that has been read with its right operand binds less tightly,
or as tightly where it groups from the left, and so takes what has been read as its left operand. -/
theorem ready_of_lt {op op' : String} {level level' : Nat} {span : Span} {right : Expr}
    (own : precedence? op = some level) (own' : precedence? op' = some level')
    (looser : level' < rightLevel op level) :
    (Expr.binary span op e right).Binds (if op' = "**" then level' + 1 else level') := by
  refine ⟨level, own, ?_⟩
  have bounds := precedence?_bounds own
  unfold rightLevel at looser
  split
  · next tightest =>
    obtain rfl : level' = 11 := by
      rw [tightest] at own'
      exact (Option.some.inj own').symm
    split at looser
    · omega
    · next other =>
      obtain rfl : level = 11 := by omega
      exact absurd (precedence?_tightest.mp own) other
  · split at looser <;> omega

/-- A parser of operators that bind at least as tightly as a level: it reads an operand, and then
operations up to the first one that binds less tightly. -/
def Climbs (p : Nat → Parser Expr) : Prop :=
  ∀ {least name rest e s s'}, isReserved name = false → Proper rest →
    Facing (.word name :: operations rest) s → p least s = .ok e s' →
    ∃ left, Reads least name rest left e s' ∧ NextOperator left fun _ level => level < least

theorem Facing.advance {token next : Token} {tokens : List Token} {span : Span}
    (facing : Facing (token :: next :: tokens) s) (run : advance s = .ok span s') :
    Facing (next :: tokens) s' := by
  obtain ⟨previous, current, upcoming, depth, noIn⟩ := s
  obtain ⟨ahead, operator⟩ := facing
  cases upcoming with
  | nil => cases ahead
  | cons next upcoming =>
    cases run
    exact ⟨(List.cons.inj ahead).2, operator⟩

/-- One operator and its right operand, after which the next operator is ready to be read. -/
theorem Reads.operation {token : Token} {next : String} {more : List (Token × String)} {op : String}
    {level : Nat} {r : Expr ⊕ Expr} (climbs : Climbs g.binary) (proper : Proper rest)
    (reads : Reads least name rest ((token, next) :: more) e s)
    (ready : FitsNext ((token, next) :: more) e) (known : operatorOf token = some (op, level))
    (tight : least ≤ level)
    (run : (do
      descend
      let _ ← advance
      let right ← g.binary (rightLevel op level)
      return .inl (.binary (e.span.cover right.span) op e right) : Parser (Expr ⊕ Expr)) s =
        .ok r s') :
    ∃ e', r = .inl e' ∧ ∃ left, Reads least name rest left e' s' ∧ FitsNext left e' := by
  obtain ⟨⟨⟩, s₁, down, run⟩ := bind_eq_ok.mp run
  obtain ⟨span, s₂, moved, run⟩ := bind_eq_ok.mp run
  obtain ⟨right, s₃, operand, run⟩ := bind_eq_ok.mp run
  cases run
  have facing₁ : Facing (operations ((token, next) :: more)) s₁ := by
    rw [descend_eq_ok down]
    exact reads.facing.atDepth _
  have proper' := reads.proper proper
  obtain ⟨left, reads', looser⟩ := climbs (proper' _ List.mem_cons_self).2
    (fun x member => proper' x (List.mem_cons_of_mem _ member)) (facing₁.advance moved) operand
  refine ⟨_, rfl, left, reads.binary known tight (ready _ _ _ _ _ rfl known) reads', ?_⟩
  intro token' name' more' op' level' same known'
  exact ready_of_lt (precedence_of_operatorOf known).2 (precedence_of_operatorOf known').2
    (looser _ _ _ _ _ same known')

theorem climbs_binaryRule (climbs : Climbs g.binary) : Climbs g.binaryRule := by
  intro least name rest e s s' unreserved proper facing run
  obtain ⟨t, climb, rfl⟩ := levelled_eq_ok run
  obtain ⟨first, t₁, single, climb⟩ := bind_eq_ok.mp climb
  obtain ⟨⟨span, rfl⟩, facing₁⟩ := unaryRule_operand unreserved proper facing single
  suffices read : ∃ left, Reads least name rest left e t ∧
      NextOperator left fun _ level => level < least by
    obtain ⟨left, reads, looser⟩ := read
    exact ⟨left, reads.atDepth _, looser⟩
  have start : Reads least name rest rest (.ident span name) t₁ ∧ FitsNext rest (.ident span name) :=
    ⟨⟨facing₁, ⟨[], rfl, rfl⟩, trivial, trivial⟩, fun _ _ _ _ _ _ _ => trivial⟩
  refine loop_invariant (I := fun e s => ∃ left, Reads least name rest left e s ∧ FitsNext left e)
    (Q := fun e s => ∃ left, Reads least name rest left e s ∧
      NextOperator left fun _ level => level < least) ?_ ⟨rest, start⟩ climb
  rintro e s r s' ⟨left, reads, ready⟩ run
  rw [bind_run (binaryOperator?_run reads.facing.operator)] at run
  cases left with
  | nil =>
    rw [reads.facing.here] at run
    cases run
    exact ⟨[], reads, fun _ _ _ _ _ empty => nomatch empty⟩
  | cons x more =>
    obtain ⟨token, next⟩ := x
    obtain ⟨⟨op, level⟩, known⟩ :=
      Option.isSome_iff_exists.mp (reads.proper proper _ List.mem_cons_self).1
    rw [reads.facing.here,known] at run
    dsimp only at run
    by_cases loose : level < least
    · rw [if_pos loose] at run
      cases run
      refine ⟨_, reads, ?_⟩
      intro token' name' more' op' level' same known'
      cases same
      rw [known] at known'
      cases known'
      exact loose
    · rw [if_neg loose] at run
      obtain ⟨e', rfl, kept⟩ := reads.operation climbs proper ready known (by omega) run
      exact kept

theorem climbs_binary (size : Nat) : Climbs (Grammar.ofSize size).binary := by
  induction size with
  | zero =>
    intro least name rest e s s' _ _ _ run
    cases run
  | succ size ih => exact climbs_binaryRule ih

end Climbing

section Surroundings

variable {size : Nat} {name : String} {rest : List (Token × String)} {e : Expr} {s s' : State}

theorem Reads.ended {least : Nat} (reads : Reads least name rest [] e s) :
    s.current.token = .endOfInput := reads.facing.here

/-- What comes after the first operand is an operator or the end of input. -/
theorem endsOperand_next (proper : Proper rest)
    (facing : Facing (.word name :: operations rest) s) :
    EndsOperand (s.upcoming.head?.getD s.current).token := by
  obtain ⟨previous, current, upcoming, depth, noIn⟩ := s
  obtain ⟨ahead, operator⟩ := facing
  obtain ⟨-, later⟩ := List.cons.inj ahead
  cases upcoming with
  | nil => cases rest <;> cases later
  | cons next upcoming =>
    exact endsOperand_of_facing (s := ⟨previous, next, upcoming, depth, noIn⟩) proper ⟨later, operator⟩

theorem declarators_reserved {g : Grammar} {word : String} (here : s.current.token = .word word)
    (reserved : isReserved word = true) (found : List Declarator) :
    g.declarators s ≠ .ok found s' := by
  intro run
  have noName : ident s = fail (.expectedIdentifier (.word word)) s := by
    rw [ident,bind_run (p := peek) rfl,here]
    simp only [reserved]
    rfl
  unfold Grammar.declarators at run
  cases limit : g.limit with
  | zero =>
    rw [limit] at run
    cases run
  | succ n =>
    have noFirst : g.declarator s = fail (.expectedIdentifier (.word word)) s := by
      rw [Grammar.declarator,bind_failure noName]
      rfl
    rw [limit,loop,bind_assoc,bind_failure noFirst] at run
    cases run

/-- The word `let` seems to start a declaration before an operator that is a word, but that word is
reserved. -/
theorem startsLet_operator (ends : EndsOperand (s.upcoming.head?.getD s.current).token) :
    ∃ starts, startsLet s = .ok starts s ∧ (starts = true →
      ∃ word, (s.upcoming.head?.getD s.current).token = .word word ∧ isReserved word = true) := by
  rw [startsLet,bind_run (p := peekNext) rfl]
  rcases endsOperand_cases ends with same | ⟨text, same, -⟩ | same | same
  · exact ⟨false, by rw [same]; rfl, by simp⟩
  · exact ⟨false, by rw [same]; rfl, by simp⟩
  · exact ⟨true, by rw [same]; rfl, fun _ => ⟨_, same, by decide⟩⟩
  · exact ⟨true, by rw [same]; rfl, fun _ => ⟨_, same, by decide⟩⟩

theorem declarationRule_reserved {g : Grammar} {kind : BindingKind} {word : String}
    {build : Span → Stmt} (facing : Facing (.word name :: operations rest) s)
    (next : (s.upcoming.head?.getD s.current).token = .word word)
    (reserved : isReserved word = true) : g.declarationRule kind s ≠ .ok build s' := by
  intro run
  obtain ⟨span, t, moved, run⟩ := bind_eq_ok.mp run
  obtain ⟨found, t', declared, -⟩ := bind_eq_ok.mp run
  obtain ⟨previous, current, upcoming, depth, noIn⟩ := s
  cases upcoming with
  | nil => cases rest <;> cases (List.cons.inj facing.ahead).2
  | cons first upcoming =>
    cases moved
    exact declarators_reserved next reserved found declared

variable (unreserved : isReserved name = false) (proper : Proper rest)
  (facing : Facing (.word name :: operations rest) s)
include unreserved proper facing

/-- Every operator is of some level, so that an expression takes them all. -/
theorem binaryRule_whole
    (run : (Grammar.ofSize size).binaryRule 1 s = .ok e s') :
    Reads 1 name rest [] e s' := by
  obtain ⟨left, reads, looser⟩ :=
    climbs_binaryRule (climbs_binary size) unreserved proper facing run
  cases left with
  | nil => exact reads
  | cons x more =>
    obtain ⟨token, next⟩ := x
    obtain ⟨⟨op, level⟩, known⟩ :=
      Option.isSome_iff_exists.mp (reads.proper proper _ List.mem_cons_self).1
    have loose := looser _ _ _ _ _ rfl known
    have tight := precedence?_bounds (precedence_of_operatorOf known).2
    omega

theorem conditionalRule_whole
    (run : (Grammar.ofSize size).conditionalRule s = .ok e s') :
    Reads 1 name rest [] e s' := by
  obtain ⟨test, t, read, run⟩ := bind_eq_ok.mp run
  have reads := binaryRule_whole unreserved proper facing read
  rw [bind_run (accept_other (by rw [reads.ended]; exact nofun))] at run
  cases run
  exact reads

theorem assignmentRule_whole
    (run : (Grammar.ofSize size).assignmentRule s = .ok e s') :
    Reads 1 name rest [] e s' := by
  obtain ⟨t, inner, rfl⟩ := deeper_eq_ok run
  have noArrow : arrowAhead { s with depth := s.depth + 1 } =
      .ok false { s with depth := s.depth + 1 } := by
    unfold arrowAhead
    simp only [facing.here]
    have ends := endsOperand_next proper facing
    rcases endsOperand_cases ends with same | ⟨text, same, -⟩ | same | same
    all_goals simp [same]
  rw [bind_run noArrow] at inner
  obtain ⟨target, t₁, read, inner⟩ := bind_eq_ok.mp inner
  have reads := conditionalRule_whole unreserved proper (facing.atDepth _) read
  have plain : assignmentOperator? t₁ = .ok none t₁ := by
    rw [assignmentOperator?,bind_run (p := peek) rfl,reads.ended]
    rfl
  rw [bind_run plain] at inner
  cases inner
  exact reads.atDepth _

theorem expressionRule_whole
    (run : (Grammar.ofSize size).expressionRule s = .ok e s') :
    Reads 1 name rest [] e s' := by
  obtain ⟨first, t, read, run⟩ := bind_eq_ok.mp run
  have reads := assignmentRule_whole unreserved proper facing read
  rw [bind_run (p := peek) rfl,reads.ended,if_neg (by exact nofun)] at run
  cases run
  exact reads

theorem expressionStatement_whole {build : Span → Stmt}
    (run : (Grammar.ofSize size).expressionStatement s = .ok build s') :
    ∃ e, build = (.expr · e) ∧ Reads 1 name rest [] e s' := by
  obtain ⟨e, t, read, run⟩ := bind_eq_ok.mp run
  have reads := expressionRule_whole unreserved proper facing read
  have closes : semicolon t = .ok () t := by
    rw [semicolon,bind_run (accept_other (by simp [reads.ended])),if_neg (by simp),
      bind_run (p := peek) rfl,bind_run (p := newlineBefore) rfl,if_pos (.inr (.inl reads.ended))]
    rfl
  rw [bind_run closes] at run
  cases run
  exact ⟨e, rfl, reads⟩

/-- A name before an operator starts no declaration and no labelled statement. -/
theorem wordStatement_whole {build : Span → Stmt}
    (run : (Grammar.ofSize size).wordStatement name s = .ok build s') :
    ∃ e, build = (.expr · e) ∧ Reads 1 name rest [] e s' := by
  have ends := endsOperand_next proper facing
  have noColon : (s.upcoming.head?.getD s.current).token ≠ .colon := by
    rcases endsOperand_cases ends with same | ⟨text, same, -⟩ | same | same
    all_goals
      rw [same]
      exact nofun
  obtain ⟨starts, look, reserved⟩ := startsLet_operator ends
  unfold Grammar.wordStatement at run
  split at run
  case h_18 =>
    rw [bind_run look] at run
    by_cases declares : (decide (name = "let") && starts) = true
    · obtain ⟨word, next, reserved⟩ := reserved (Bool.and_eq_true_iff.mp declares).2
      rw [if_pos declares] at run
      exact absurd run (declarationRule_reserved facing next reserved)
    · rw [if_neg declares,bind_run (p := peekNext) rfl,if_neg (by simp [noColon])] at run
      exact expressionStatement_whole unreserved proper facing run
  all_goals exact absurd unreserved (by decide)

theorem statementRule_whole {stmt : Stmt}
    (run : (Grammar.ofSize size).statementRule s = .ok stmt s') :
    ∃ span e, stmt = .expr span e ∧ Reads 1 name rest [] e s' := by
  obtain ⟨t, inner, rfl⟩ := deeper_eq_ok run
  rw [bind_run (p := currentSpan) rfl,bind_run (p := peek) rfl,facing.here] at inner
  obtain ⟨build, t₁, read, inner⟩ := bind_eq_ok.mp inner
  obtain ⟨e, rfl, reads⟩ := wordStatement_whole unreserved proper (facing.atDepth _) read
  cases inner
  exact ⟨_, e, rfl, reads.atDepth _⟩

theorem nextStatements_whole {body : List Stmt} {n : Nat}
    (run : loop (Grammar.ofSize size).nextStatement n [] s = .ok body s') :
    ∃ span e, body = [.expr span e] ∧ Reads 1 name rest [] e s' := by
  have goesOn : s.current.token ≠ .endOfInput := by
    rw [facing.here]
    exact nofun
  cases n with
  | zero => cases run
  | succ n =>
    rw [loop,bind_eq_ok] at run
    obtain ⟨r, t, turn, run⟩ := run
    obtain ⟨stmt, read, rfl⟩ := nextStatement_eq_ok goesOn turn
    cases size with
    | zero => cases read
    | succ size =>
      obtain ⟨span, e, rfl, reads⟩ := statementRule_whole unreserved proper facing read
      cases n with
      | zero => cases run
      | succ n =>
        dsimp only at run
        rw [loop_leave (nextStatement_ended reads.ended)] at run
        cases run
        exact ⟨span, e, rfl, reads⟩

end Surroundings

end Parser

/-- Names with binary operators between them, whatever line breaks there are, are read as one
expression that keeps their order. Every operator has on its left a name or operators that bind at
least as tightly as itself, and on its right a name or operators that bind more tightly; for `**` it
is the other way round. -/
theorem parseLexemes_operators_grouped (ls : List Lexeme) (first : String)
    (rest : List (Token × String)) (p : Program)
    (spelled : ls.map Lexeme.token = .word first :: Parser.operations rest)
    (unreserved : isReserved first = false) (proper : Parser.Proper rest)
    (parsed : parseLexemes ls = .ok p) :
    ∃ span e, p.body = [.expr span e] ∧
      e.pieces = .operand first :: Parser.operationPieces rest ∧ e.Grouped := by
  cases ls with
  | nil => cases spelled
  | cons lexeme more =>
    unfold parseLexemes at parsed
    dsimp only at parsed
    split at parsed
    next q s' run =>
      cases parsed
      obtain ⟨body, statements, rfl⟩ := Parser.program_eq_ok.mp run
      obtain ⟨span, e, rfl, reads⟩ :=
        Parser.nextStatements_whole unreserved proper ⟨spelled, rfl⟩ statements
      obtain ⟨taken, whole, pieces⟩ := reads.pieces
      rw [List.append_nil] at whole
      exact ⟨span, e, rfl, by rw [pieces,whole], reads.grouped⟩
    next => cases parsed

/-- The text `a in b ** c ** d - e * f ?? g`, with a line break before every operator. -/
theorem parseLexemes_operators_grouped_mixed : ∃ (ls : List Lexeme) (p : Program),
    parseLexemes ls = .ok p ∧ ∃ span e, p.body = [.expr span e] ∧ e.Grouped ∧
      e.pieces = [.operand "a", .operator "in", .operand "b", .operator "**", .operand "c",
        .operator "**", .operand "d", .operator "-", .operand "e", .operator "*", .operand "f",
        .operator "??", .operand "g"] := by
  let rest : List (Token × String) := [(.word "in", "b"), (.op "**", "c"), (.op "**", "d"),
    (.op "-", "e"), (.op "*", "f"), (.op "??", "g")]
  let ls : List Lexeme := (.word "a" :: Parser.operations rest).map fun token =>
    ⟨token, default, (Parser.operatorOf token).isSome⟩
  obtain ⟨p, parsed⟩ := exists_of_isOk (show (parseLexemes ls).isOk = true by decide +kernel)
  obtain ⟨span, e, body, pieces, grouped⟩ := parseLexemes_operators_grouped ls "a" rest p rfl
    (by decide) (by unfold Parser.Proper; decide) parsed
  exact ⟨ls, p, parsed, span, e, body, grouped, pieces⟩

end CodeCompletion
