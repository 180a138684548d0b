import CodeCompletion.Proofs.Parser.Depth.Mode

/-! The plan of a parser: how it is put together from other parsers. Two parsers that do the same may
have different plans, so a plan tells which rules of the grammar a run calls and in which states,
where the parser alone tells only how the run ends. No call is left out: a plan is one of the parser
with other rules as well, and only what these do in the recorded calls makes a difference. Plans also
say where a parser may raise the depth and where `in` has to be an operator; whatever follows such a
plan keeps the mode balanced. -/
namespace CodeCompletion.Parser

inductive Rule where
  | program
  | statement
  | expressionStatement
  | wordStatement (word : String)
  | declaration (kind : BindingKind)
  | returns
  | ifElse
  | loops
  | loopStart
  | forEachRest (left : LoopStart) (ofValues : Bool)
  | forRest (init : Option LoopStart)
  | whileLoop
  | doWhile
  | switch
  | switchCase
  | caseHead
  | tryCatch
  | catchClause
  | throws
  | condition
  | declarator
  | declarators
  | block
  | expression
  | assignment
  | conditional
  | binary (least : Nat)
  | unary
  | update
  | chain
  | construct
  | value
  | wordValue (word : String)
  | computed
  | arguments
  | spreadable
  | elements
  | properties
  | property
  | plainProperty (start : Span)
  | propertyValue (start : Span) (isGenerator : Bool) (first : Token)
  | propertyKey
  | function (isDeclaration : Bool)
  | params
  | param
  | functionBlock
  | method (start : Span)
  | methodValue (start : Span)
  | arrow
  | classDef (isDeclaration : Bool)
  | classBody
  | classMember

def Rule.parser (g : Grammar) : Rule → (α : Type) × Parser α
  | program => ⟨_, g.program⟩
  | statement => ⟨_, g.statementRule⟩
  | expressionStatement => ⟨_, g.expressionStatement⟩
  | wordStatement word => ⟨_, g.wordStatement word⟩
  | declaration kind => ⟨_, g.declarationRule kind⟩
  | returns => ⟨_, g.returnRule⟩
  | ifElse => ⟨_, g.ifRule⟩
  | loops => ⟨_, g.forRule⟩
  | loopStart => ⟨_, g.loopStart⟩
  | forEachRest left ofValues => ⟨_, g.forEachRest left ofValues⟩
  | forRest init => ⟨_, g.forRest init⟩
  | whileLoop => ⟨_, g.whileRule⟩
  | doWhile => ⟨_, g.doRule⟩
  | switch => ⟨_, g.switchRule⟩
  | switchCase => ⟨_, g.switchCase⟩
  | caseHead => ⟨_, g.caseHead⟩
  | tryCatch => ⟨_, g.tryRule⟩
  | catchClause => ⟨_, g.catchClause⟩
  | throws => ⟨_, g.throwRule⟩
  | condition => ⟨_, g.condition⟩
  | declarator => ⟨_, g.declarator⟩
  | declarators => ⟨_, g.declarators⟩
  | block => ⟨_, g.block⟩
  | expression => ⟨_, g.expressionRule⟩
  | assignment => ⟨_, g.assignmentRule⟩
  | conditional => ⟨_, g.conditionalRule⟩
  | binary least => ⟨_, g.binaryRule least⟩
  | unary => ⟨_, g.unaryRule⟩
  | update => ⟨_, g.postfixRule⟩
  | chain => ⟨_, g.chainRule⟩
  | construct => ⟨_, g.constructRule⟩
  | value => ⟨_, g.value⟩
  | wordValue word => ⟨_, g.wordValue word⟩
  | computed => ⟨_, g.computed⟩
  | arguments => ⟨_, g.arguments⟩
  | spreadable => ⟨_, g.spreadable⟩
  | elements => ⟨_, g.elements⟩
  | properties => ⟨_, g.properties⟩
  | property => ⟨_, g.property⟩
  | plainProperty start => ⟨_, g.plainProperty start⟩
  | propertyValue start isGenerator first => ⟨_, g.propertyValue start isGenerator first⟩
  | propertyKey => ⟨_, g.propertyKey⟩
  | function isDeclaration => ⟨_, g.function isDeclaration⟩
  | params => ⟨_, g.params⟩
  | param => ⟨_, g.param⟩
  | functionBlock => ⟨_, g.functionBlock⟩
  | method start => ⟨_, g.method start⟩
  | methodValue start => ⟨_, g.methodValue start⟩
  | arrow => ⟨_, g.arrow⟩
  | classDef isDeclaration => ⟨_, g.class isDeclaration⟩
  | classBody => ⟨_, g.classBody⟩
  | classMember => ⟨_, g.classMember⟩

/-- The rules that are called only where `in` is an operator. -/
def Rule.needsIn : Rule → Bool
  | statement | loops | loopStart => true
  | _ => false

/-- For each size of a text, rules in the place of those of the parser. -/
abbrev Replacement := Nat → Grammar

/-- In a state, a rule of the first grammar does what the rule says with the second one. Rules that the
grammar does not refer back to are never replaced. -/
def Rule.Follows (outer inner : Grammar) (s : State) : Rule → Prop
  | statement => outer.statement s = inner.statementRule s
  | assignment => outer.assignment s = inner.assignmentRule s
  | expression => outer.expression s = inner.expressionRule s
  | binary least => outer.binary least s = inner.binaryRule least s
  | unary => outer.unary s = inner.unaryRule s
  | chain => outer.chain s = inner.chainRule s
  | construct => outer.construct s = inner.constructRule s
  | _ => True

@[reducible] def Grammar.upTo (g : Grammar) (limit : Nat) : Grammar := { g with limit }

/-- The rules for what contains nothing are never replaced. -/
def Replacement.rules (r : Replacement) : Nat → Grammar
  | 0 => .empty
  | size + 1 => r (size + 1)

def Replacement.Follows (r : Replacement) (g : Grammar) (rule : Rule) (s : State) : Prop :=
  ∀ size, g = Grammar.ofSize size → rule.Follows (r (size + 1)) ((r.rules size).upTo g.limit) s

/-- How a parser is put together, and the same parser with replaced rules. With `raises` it may leave
the depth raised where it succeeds; with `operator` it is run only where `in` is an operator. -/
inductive Plan : Bool → Bool → {α : Type} → Parser α → (Replacement → Parser α) → Type 1
  | pure {raises operator : Bool} {α : Type} (a : α) :
      Plan raises operator (Pure.pure a) fun _ => Pure.pure a
  | fail {raises operator : Bool} {α : Type} (reason : SyntaxError.Reason) :
      Plan raises operator (Parser.fail reason : Parser α) fun _ => Parser.fail reason
  | look {raises operator : Bool} {α : Type} (view : State → α) :
      Plan raises operator (fun s => .ok (view s) s) fun _ s => .ok (view s) s
  | advance {raises operator : Bool} : Plan raises operator Parser.advance fun _ => Parser.advance
  | descend {operator : Bool} : Plan true operator Parser.descend fun _ => Parser.descend
  | bind {raises operator : Bool} {α β : Type} {p : Parser α} {q : Replacement → Parser α}
      {f : α → Parser β} {h : α → Replacement → Parser β}
      (first : Plan raises operator p q) (next : ∀ a, Plan raises operator (f a) (h a)) :
      Plan raises operator (p >>= f) fun r => q r >>= fun a => h a r
  | deeper {raises operator : Bool} {α : Type} {p : Parser α} {q : Replacement → Parser α}
      (inner : Plan false operator p q) :
      Plan raises operator (Parser.deeper p) fun r => Parser.deeper (q r)
  /-- Only here may a parser raise the depth and not bring it back itself. -/
  | levelled {raises operator : Bool} {α : Type} {p : Parser α} {q : Replacement → Parser α}
      (inner : Plan true operator p q) :
      Plan raises operator (Parser.levelled p) fun r => Parser.levelled (q r)
  | withIn {raises operator : Bool} {α : Type} {p : Parser α} {q : Replacement → Parser α}
      (inner : Plan false true p q) :
      Plan raises operator (Parser.withIn p) fun r => Parser.withIn (q r)
  /-- A loop head makes `in` an operator at its end, so it has to be one at its start. -/
  | withoutIn {raises : Bool} {α : Type} {p : Parser α} {q : Replacement → Parser α}
      (inner : Plan false false p q) :
      Plan raises true (Parser.withoutIn p) fun r => Parser.withoutIn (q r)
  /-- Only here may a rule be replaced. -/
  | call {raises operator : Bool} {α : Type} {p : Parser α} {q q' : Replacement → Parser α}
      (g : Grammar) (rule : Rule) (inner : Plan false operator p q)
      (alike : ∀ r s, r.Follows g rule s → q' r s = q r s) (same : rule.parser g = ⟨α, p⟩ := by rfl)
      (mode : rule.needsIn = true → operator = true := by simp [Rule.needsIn]) :
      Plan raises operator p q'

variable {α β : Type}

inductive Event : Type 1
  | call (g : Grammar) (rule : Rule) (s : State)
  /-- A parser is run one level deeper, and its last state is brought back. -/
  | nested {α : Type} (p : Parser α) (s : State)
  | stands (s : State)

def lastState : EStateM.Result SyntaxError State α → State
  | .ok _ s => s
  | .error _ s => s

def onSuccess (r : EStateM.Result SyntaxError State α) (next : α → State → List Event) : List Event :=
  match r with
  | .ok a s => next a s
  | .error _ _ => []

def Plan.trace {raises operator : Bool} {α : Type} {p : Parser α} {q : Replacement → Parser α}
    (plan : Plan raises operator p q) (s : State) : List Event :=
  match plan with
  | pure _ => [.stands s]
  | fail _ => [.stands s]
  | look _ => [.stands s]
  | advance => [.stands s, .stands (lastState (Parser.advance s))]
  | descend => [.stands s, .stands (lastState (Parser.descend s))]
  | @bind _ _ _ _ p _ _ _ first next => first.trace s ++ onSuccess (p s) fun a t => (next a).trace t
  | @deeper _ _ _ p _ inner =>
    .stands s :: (onSuccess (Parser.descend s) fun _ t => .nested p t :: inner.trace t) ++
      [.stands (lastState (Parser.deeper p s))]
  | @levelled _ _ _ p _ inner => inner.trace s ++ [.stands (lastState (Parser.levelled p s))]
  | @withIn _ _ _ p _ inner =>
    .stands s :: inner.trace { s with noIn := false } ++ [.stands (lastState (Parser.withIn p s))]
  | @withoutIn _ _ p _ inner =>
    .stands s :: inner.trace { s with noIn := true } ++ [.stands (lastState (Parser.withoutIn p s))]
  | call g rule inner _ _ _ => .call g rule s :: inner.trace s

section Balance

variable {raises operator : Bool} {p : Parser α} {q : Replacement → Parser α} {s : State}

/-- A run that succeeds gives back the mode that it was started in. One that fails gives back whether
`in` is an operator, and no lesser depth. -/
def Balanced (s : State) : EStateM.Result SyntaxError State α → Prop
  | .ok _ t => t.depth = s.depth ∧ t.noIn = s.noIn
  | .error _ t => s.depth ≤ t.depth ∧ t.noIn = s.noIn

theorem Balanced.noIn {r : EStateM.Result SyntaxError State α} (h : Balanced s r) :
    (lastState r).noIn = s.noIn := by
  cases r with
  | ok a t => exact h.2
  | error e t => exact h.2

structure Kept (raises : Bool) (s : State) (r : EStateM.Result SyntaxError State α) : Prop where
  noIn : (lastState r).noIn = s.noIn
  notAbove : s.depth ≤ (lastState r).depth
  room : (lastState r).depth ≤ maxDepth
  level : raises = false → ∀ a t, r = .ok a t → t.depth = s.depth

theorem Kept.balanced {r : EStateM.Result SyntaxError State α} (kept : Kept false s r) :
    Balanced s r := by
  cases r with
  | ok a t => exact ⟨kept.level rfl a t rfl, kept.noIn⟩
  | error e t => exact ⟨kept.notAbove, kept.noIn⟩

/-- A step that leaves the mode as it is. -/
theorem Kept.of_same {r : EStateM.Result SyntaxError State α} (room : s.depth ≤ maxDepth)
    (depth : (lastState r).depth = s.depth) (noIn : (lastState r).noIn = s.noIn) :
    Kept raises s r where
  noIn := noIn
  notAbove := Nat.le_of_eq depth.symm
  room := by rwa [depth]
  level := by
    rintro - a t rfl
    exact depth

/-- What is kept from state to state is kept from the first one on. -/
theorem Kept.trans {t : State} {r : EStateM.Result SyntaxError State α}
    (first : s.depth ≤ t.depth ∧ t.noIn = s.noIn ∧ (raises = false → t.depth = s.depth))
    (next : Kept raises t r) : Kept raises s r where
  noIn := next.noIn.trans first.2.1
  notAbove := Nat.le_trans first.1 next.notAbove
  room := next.room
  level := fun balanced a u run => (next.level balanced a u run).trans (first.2.2 balanced)

theorem descend_cases (s : State) :
    (s.depth < maxDepth ∧ descend s = .ok () { s with depth := s.depth + 1 }) ∨
      ∃ e, descend s = .error e s := by
  unfold descend
  split
  · exact Or.inr ⟨_, rfl⟩
  next room => exact Or.inl ⟨by omega, rfl⟩

theorem Plan.kept (plan : Plan raises operator p q) (s : State) (room : s.depth ≤ maxDepth)
    (mode : operator = true → s.noIn = false) : Kept raises s (p s) := by
  induction plan generalizing s with
  | pure a => exact .of_same room rfl rfl
  | fail reason => exact .of_same room rfl rfl
  | look view => exact .of_same room rfl rfl
  | advance =>
    unfold Parser.advance
    split <;> exact .of_same room rfl rfl
  | descend =>
    rcases descend_cases s with ⟨below, run⟩ | ⟨e, run⟩
    · rw [run]
      exact ⟨rfl, Nat.le_succ _, below, by simp⟩
    · rw [run]
      exact .of_same room rfl rfl
  | @bind raises _ _ _ p _ f _ first next ih ih' =>
    have kept := ih s room mode
    cases step : p s with
    | ok a t =>
      rw [step] at kept
      rw [bind_run step]
      refine .trans ⟨kept.notAbove, kept.noIn, fun same => kept.level same a t rfl⟩ ?_
      exact ih' a t kept.room fun known => kept.noIn.trans (mode known)
    | error e t =>
      rw [step] at kept
      rw [bind_failure step]
      exact ⟨kept.noIn, kept.notAbove, kept.room, by simp⟩
  | @deeper _ _ _ p _ inner ih =>
    rcases descend_cases s with ⟨below, run⟩ | ⟨e, run⟩
    · have kept := ih { s with depth := s.depth + 1 } below mode
      unfold Parser.deeper
      rw [bind_run run]
      unfold restoring
      cases step : p { s with depth := s.depth + 1 } with
      | ok a t =>
        rw [step] at kept
        have level := kept.level rfl a t rfl
        exact .of_same room (by simp [lastState,level]) kept.noIn
      | error e t =>
        rw [step] at kept
        obtain ⟨noIn, notAbove, below, -⟩ := kept
        simp only [lastState] at noIn notAbove below
        exact ⟨noIn, by simp only [lastState]; omega, by simp only [lastState]; omega, by simp⟩
    · unfold Parser.deeper
      rw [bind_failure run]
      exact .of_same room rfl rfl
  | @levelled _ _ _ p _ inner ih =>
    have kept := ih s room mode
    unfold Parser.levelled
    cases step : p s with
    | ok a t =>
      rw [step] at kept
      exact .of_same room rfl kept.noIn
    | error e t =>
      rw [step] at kept
      exact ⟨kept.noIn, kept.notAbove, kept.room, by simp⟩
  | @withIn _ _ _ p _ inner ih =>
    have kept := ih { s with noIn := false } room fun _ => rfl
    unfold Parser.withIn restoring
    cases step : p { s with noIn := false } with
    | ok a t =>
      rw [step] at kept
      exact .of_same room (kept.level rfl a t rfl) rfl
    | error e t =>
      rw [step] at kept
      exact ⟨rfl, kept.notAbove, kept.room, by simp⟩
  | @withoutIn _ _ p _ inner ih =>
    have kept := ih { s with noIn := true } room (by simp)
    unfold Parser.withoutIn restoring
    cases step : p { s with noIn := true } with
    | ok a t =>
      rw [step] at kept
      exact .of_same room (kept.level rfl a t rfl) (mode rfl).symm
    | error e t =>
      rw [step] at kept
      exact ⟨(mode rfl).symm, kept.notAbove, kept.room, by simp⟩
  | call g rule inner _ same known ih =>
    have kept := ih s room mode
    exact ⟨kept.noIn, kept.notAbove, kept.room, fun _ => kept.level rfl⟩

def Event.Sound : Event → Prop
  | call g rule s => (rule.needsIn = true → s.noIn = false) ∧ Balanced s ((rule.parser g).2 s)
  | nested p s => Balanced s (p s) ∧ 0 < (lastState (p s)).depth
  | stands s => s.depth ≤ maxDepth

theorem mem_onSuccess {r : EStateM.Result SyntaxError State α} {next : α → State → List Event}
    {event : Event} (member : event ∈ onSuccess r next) :
    ∃ a t, r = .ok a t ∧ event ∈ next a t := by
  cases r with
  | ok a t => exact ⟨a, t, rfl, member⟩
  | error e t => simp [onSuccess] at member

theorem mem_enclosed {event first last : Event} {inside : List Event}
    (member : event ∈ first :: inside ++ [last]) :
    event = first ∨ event ∈ inside ∨ event = last := by
  simpa using member

/-- Whatever happens in a run is sound. -/
theorem Plan.sound (plan : Plan raises operator p q) (s : State) (room : s.depth ≤ maxDepth)
    (mode : operator = true → s.noIn = false) : ∀ event ∈ plan.trace s, event.Sound := by
  induction plan generalizing s with
  | pure a => simpa [trace,Event.Sound] using room
  | fail reason => simpa [trace,Event.Sound] using room
  | look view => simpa [trace,Event.Sound] using room
  | @advance raises operator =>
    have kept := (@Plan.advance raises operator).kept s room mode
    simpa [trace,Event.Sound] using ⟨room, kept.room⟩
  | descend =>
    have kept := Plan.descend.kept s room mode
    simpa [trace,Event.Sound] using ⟨room, kept.room⟩
  | @bind _ _ _ _ p _ f _ first next ih ih' =>
    intro event member
    rcases List.mem_append.mp member with early | late
    · exact ih s room mode event early
    · obtain ⟨a, t, step, late⟩ := mem_onSuccess late
      have kept := first.kept s room mode
      rw [step] at kept
      exact ih' a t kept.room (fun known => kept.noIn.trans (mode known)) event late
  | @deeper raises operator _ p _ inner ih =>
    have kept := (@Plan.deeper raises _ _ _ _ inner).kept s room mode
    intro event member
    rcases mem_enclosed member with rfl | inside | rfl
    · exact room
    · obtain ⟨⟨⟩, t, step, inside⟩ := mem_onSuccess inside
      rcases descend_cases s with ⟨below, run⟩ | ⟨e, run⟩
      · cases step.symm.trans run
        have within := inner.kept { s with depth := s.depth + 1 } below mode
        rcases List.mem_cons.mp inside with rfl | inside
        · exact ⟨within.balanced, Nat.lt_of_lt_of_le (Nat.succ_pos _) within.notAbove⟩
        · exact ih { s with depth := s.depth + 1 } below mode event inside
      · cases step.symm.trans run
    · exact kept.room
  | @levelled raises _ _ p _ inner ih =>
    have kept := (@Plan.levelled raises _ _ _ _ inner).kept s room mode
    intro event member
    rcases List.mem_append.mp member with inside | last
    · exact ih s room mode event inside
    · rw [List.mem_singleton.mp last]
      exact kept.room
  | @withIn raises operator _ p _ inner ih =>
    have kept := (@Plan.withIn raises operator _ _ _ inner).kept s room mode
    intro event member
    rcases mem_enclosed member with rfl | inside | rfl
    · exact room
    · exact ih { s with noIn := false } room (fun _ => rfl) event inside
    · exact kept.room
  | @withoutIn raises _ p _ inner ih =>
    have kept := (@Plan.withoutIn raises _ _ _ inner).kept s room mode
    intro event member
    rcases mem_enclosed member with rfl | inside | rfl
    · exact room
    · exact ih { s with noIn := true } room (by simp) event inside
    · exact kept.room
  | call g rule inner _ same known ih =>
    intro event member
    rcases List.mem_cons.mp member with rfl | inside
    · refine ⟨fun needed => mode (known needed), ?_⟩
      rw [same]
      exact (inner.kept s room mode).balanced
    · exact ih s room mode event inside

end Balance

section Completeness

variable {raises operator : Bool} {p : Parser α} {q : Replacement → Parser α} {r : Replacement}

/-- The replaced rules follow the grammar in a recorded call. -/
def Event.Followed (r : Replacement) : Event → Prop
  | call g rule s => r.Follows g rule s
  | _ => True

/-- Rules may be replaced by any that do the same in all calls of the trace: no other call is made. -/
theorem Plan.run_eq_of_followed (plan : Plan raises operator p q) (s : State)
    (followed : ∀ event ∈ plan.trace s, event.Followed r) : q r s = p s := by
  induction plan generalizing s with
  | pure | fail | look | advance | descend => rfl
  | @bind _ _ _ _ p q f h first next ih ih' =>
    have same := ih s fun event early => followed event (List.mem_append_left _ early)
    show (q r >>= fun a => h a r) s = (p >>= f) s
    cases step : p s with
    | ok a t =>
      rw [bind_run step,bind_run (same.trans step)]
      refine ih' a t fun event late => followed event (List.mem_append_right _ ?_)
      rw [step]
      exact late
    | error e t => rw [bind_failure step,bind_failure (same.trans step)]
  | @deeper _ _ _ p q inner ih =>
    show Parser.deeper (q r) s = Parser.deeper p s
    unfold Parser.deeper
    cases step : Parser.descend s with
    | ok a t =>
      have same := ih t fun event inside => followed event (by simp [trace,step,onSuccess,inside])
      rw [bind_run step,bind_run step]
      unfold restoring
      rw [same]
    | error e t => rw [bind_failure step,bind_failure step]
  | @levelled _ _ _ p q inner ih =>
    have same := ih s fun event inside => followed event (by simp [trace,inside])
    show Parser.levelled (q r) s = Parser.levelled p s
    unfold Parser.levelled
    rw [same]
  | @withIn _ _ _ p q inner ih =>
    have same := ih { s with noIn := false } fun event inside => followed event (by simp [trace,inside])
    show Parser.withIn (q r) s = Parser.withIn p s
    unfold Parser.withIn restoring
    rw [same]
  | @withoutIn _ _ p q inner ih =>
    have same := ih { s with noIn := true } fun event inside => followed event (by simp [trace,inside])
    show Parser.withoutIn (q r) s = Parser.withoutIn p s
    unfold Parser.withoutIn restoring
    rw [same]
  | call g rule inner alike _ _ ih =>
    have here : r.Follows g rule s := followed (.call g rule s) List.mem_cons_self
    rw [alike r s here]
    exact ih s fun event inside => followed event (List.mem_cons_of_mem _ inside)

end Completeness

abbrev PlainPlan (raises operator : Bool) (p : Parser α) := Plan raises operator p fun _ => p

abbrev RulePlan (raises operator : Bool) (g : Grammar) (h : Replacement → Grammar)
    (p : Grammar → Parser α) :=
  Plan raises operator (p g) fun r => p ((h r).upTo g.limit)

namespace Plan

def calling {raises operator : Bool} {p : Parser α} {q : Replacement → Parser α} (g : Grammar)
    (rule : Rule) (inner : Plan false operator p q) (same : rule.parser g = ⟨α, p⟩ := by rfl)
    (mode : rule.needsIn = true → operator = true := by simp [Rule.needsIn]) :
    Plan raises operator p q :=
  .call g rule inner (fun _ _ _ => rfl) same mode

variable {raises operator : Bool} {p p' : Parser α} {q q' : Replacement → Parser α}

def map {f : α → β} (plan : Plan raises operator p q) :
    Plan raises operator (f <$> p) fun r => f <$> q r :=
  plan.bind fun a => .pure (f a)

def ite {c : Prop} [given : Decidable c] (yes : Plan raises operator p q)
    (no : Plan raises operator p' q') :
    Plan raises operator (if c then p else p') fun r => if c then q r else q' r :=
  match given with
  | .isTrue _ => yes
  | .isFalse _ => no

def iteBind {c : Prop} [Decidable c] {f : α → Parser β} {h : α → Replacement → Parser β}
    (yes : Plan raises operator p q) (no : Plan raises operator p' q')
    (next : ∀ a, Plan raises operator (f a) (h a)) :
    Plan raises operator (if c then p >>= f else p' >>= f) fun r =>
      if c then q r >>= fun a => h a r else q' r >>= fun a => h a r :=
  .ite (yes.bind next) (no.bind next)

def when {c : Prop} [Decidable c] {f : Parser β} {h : Replacement → Parser β}
    (first : Plan raises operator p q) (next : Plan raises operator f h) :
    Plan raises operator (if c then p >>= fun _ => f else f) fun r =>
      if c then q r >>= fun _ => h r else h r :=
  .ite (first.bind fun _ => next) next

def loop {step : α → Parser (α ⊕ β)} {step' : Replacement → α → Parser (α ⊕ β)}
    (turn : ∀ a, Plan raises operator (step a) (step' · a)) :
    ∀ limit a, Plan raises operator (Parser.loop step limit a) fun r => Parser.loop (step' r) limit a
  | 0, _ => .fail _
  | limit + 1, a => (turn a).bind fun
    | .inl a => loop turn limit a
    | .inr b => .pure b

def collect {p : Parser (Option α)} {q : Replacement → Parser (Option α)}
    (turn : Plan raises operator p q) (limit : Nat) :
    Plan raises operator (Parser.collect limit p) fun r => Parser.collect limit (q r) :=
  loop (fun _ => turn.bind fun
    | some _ => .pure _
    | none => .pure _) limit []

end Plan

end CodeCompletion.Parser
