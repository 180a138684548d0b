import CodeCompletion.Parser.Statement

/-! What a parser does to its mode, that is, to the depth and to whether `in` is an operator.
Every rule of the grammar gives back the mode it was started in; only the loops that wrap one
node around the other go deeper on the way, and are levelled at their end. -/
namespace CodeCompletion.Parser

variable {α β : Type}

structure Mode where
  depth : Nat
  noIn : Bool
  room : depth ≤ maxDepth

def In (m : Mode) (s : State) : Prop := s.depth = m.depth ∧ s.noIn = m.noIn

namespace Mode

def below (m : Mode) (room : m.depth < maxDepth) : Mode := ⟨m.depth + 1, m.noIn, room⟩

def withNoIn (m : Mode) (noIn : Bool) : Mode := ⟨m.depth, noIn, m.room⟩

@[simp] theorem depth_below (m : Mode) (room : m.depth < maxDepth) :
    (m.below room).depth = m.depth + 1 := rfl

@[simp] theorem depth_withNoIn (m : Mode) (noIn : Bool) : (m.withNoIn noIn).depth = m.depth := rfl

end Mode

/-- Started in a mode, the parser fails or ends in a mode and with a result that satisfy `Q`. -/
def Leads (m : Mode) (p : Parser α) (Q : Mode → α → Prop) : Prop :=
  ∀ s a s', In m s → p s = .ok a s' → ∃ m', In m' s' ∧ Q m' a

/-- The parser gives back the mode, and a result that satisfies `P`. -/
def Keeps (m : Mode) (p : Parser α) (P : α → Prop) : Prop :=
  Leads m p fun m' a => m' = m ∧ P a

def Steady (p : Parser α) : Prop := ∀ m, Keeps m p fun _ => True

theorem bind_eq_ok {p : Parser α} {f : α → Parser β} {s s' : State} {b : β} :
    (p >>= f) s = .ok b s' ↔ ∃ a t, p s = .ok a t ∧ f a t = .ok b s' := by
  cases step : p s with
  | ok a t =>
    simp only [Bind.bind,EStateM.bind,step,EStateM.Result.ok.injEq]
    constructor
    · intro run
      exact ⟨a, t, ⟨rfl, rfl⟩, run⟩
    · rintro ⟨_, _, ⟨rfl, rfl⟩, run⟩
      exact run
  | error e t => simp [Bind.bind,EStateM.bind,step]

theorem bind_run {p : Parser α} {f : α → Parser β} {s t : State} {a : α}
    (step : p s = .ok a t) : (p >>= f) s = f a t := by
  simp [Bind.bind,EStateM.bind,step]

theorem bind_failure {p : Parser α} {f : α → Parser β} {s t : State} {e : SyntaxError}
    (step : p s = .error e t) : (p >>= f) s = .error e t := by
  simp [Bind.bind,EStateM.bind,step]

theorem ite_bind {c : Prop} [Decidable c] (p q : Parser α) (f : α → Parser β) :
    (if c then p else q) >>= f = if c then p >>= f else q >>= f := by
  split <;> rfl

theorem map_eq_ok {p : Parser α} {f : α → β} {s s' : State} {b : β} :
    (f <$> p) s = .ok b s' ↔ ∃ a, p s = .ok a s' ∧ f a = b := by
  cases step : p s with
  | ok a t =>
    simp only [Functor.map,EStateM.map,step,EStateM.Result.ok.injEq]
    constructor
    · rintro ⟨rfl, rfl⟩
      exact ⟨a, ⟨rfl, rfl⟩, rfl⟩
    · rintro ⟨_, ⟨rfl, rfl⟩, rfl⟩
      exact ⟨rfl, rfl⟩
  | error e t => simp [Functor.map,EStateM.map,step]

namespace Leads

variable {m : Mode}

theorem pure {a : α} {Q : Mode → α → Prop} (h : Q m a) : Leads m (pure a) Q := by
  intro s b s' inMode run
  cases run
  exact ⟨m, inMode, h⟩

theorem bind {p : Parser α} {f : α → Parser β} {P : Mode → α → Prop} {Q : Mode → β → Prop}
    (first : Leads m p P) (next : ∀ m' a, P m' a → Leads m' (f a) Q) : Leads m (p >>= f) Q := by
  intro s b s' inMode run
  obtain ⟨a, t, step, run⟩ := bind_eq_ok.mp run
  obtain ⟨m', inMode', post⟩ := first s a t inMode step
  exact next m' a post t b s' inMode' run

theorem mono {p : Parser α} {P Q : Mode → α → Prop} (h : Leads m p P)
    (weaker : ∀ m' a, P m' a → Q m' a) : Leads m p Q := by
  intro s a s' inMode run
  obtain ⟨m', inMode', post⟩ := h s a s' inMode run
  exact ⟨m', inMode', weaker m' a post⟩

theorem fail {reason : SyntaxError.Reason} {Q : Mode → α → Prop} : Leads m (fail reason) Q := by
  intro s a s' _ run
  cases run

theorem ite {c : Prop} [Decidable c] {p q : Parser α} {Q : Mode → α → Prop}
    (yes : c → Leads m p Q) (no : ¬c → Leads m q Q) : Leads m (if c then p else q) Q := by
  split
  next h => exact yes h
  next h => exact no h

/-- Going deeper is possible only where there is room. -/
theorem descend_bind {f : Unit → Parser α} {Q : Mode → α → Prop}
    (next : ∀ room, Leads (m.below room) (f ()) Q) : Leads m (descend >>= f) Q := by
  intro s a s' inMode run
  obtain ⟨⟨⟩, t, step, run⟩ := bind_eq_ok.mp run
  unfold descend at step
  split at step
  next => cases step
  next room =>
    cases step
    have room : m.depth < maxDepth := by
      have := inMode.1
      omega
    refine next room { s with depth := s.depth + 1 } a s' ⟨?_, inMode.2⟩ run
    simp [Mode.below,inMode.1]

theorem loop {step : α → Parser (α ⊕ β)} {I : Mode → α → Prop} {Q : Mode → β → Prop}
    (next : ∀ m' a, I m' a → Leads m' (step a) fun k r => Sum.elim (I k) (Q k) r)
    (limit : Nat) (a : α) (start : I m a) : Leads m (Parser.loop step limit a) Q := by
  induction limit generalizing m a with
  | zero => exact fail
  | succ limit ih =>
    apply (next m a start).bind
    intro m' r post
    cases r with
    | inl a => exact ih a post
    | inr b => exact pure post

end Leads

namespace Keeps

variable {m : Mode}

theorem pure {a : α} {P : α → Prop} (h : P a) : Keeps m (pure a) P := Leads.pure ⟨rfl, h⟩

theorem fail {reason : SyntaxError.Reason} {P : α → Prop} : Keeps m (fail reason) P := Leads.fail

theorem bind {p : Parser α} {f : α → Parser β} {P : α → Prop} {Q : β → Prop}
    (first : Keeps m p P) (next : ∀ a, P a → Keeps m (f a) Q) : Keeps m (p >>= f) Q := by
  apply Leads.bind first
  rintro m' a ⟨rfl, post⟩
  exact next a post

theorem fail_bind {reason : SyntaxError.Reason} {f : α → Parser β} {Q : β → Prop} :
    Keeps m (Parser.fail reason >>= f) Q :=
  bind (P := fun _ => False) fail fun _ => False.elim

theorem mono {p : Parser α} {P Q : α → Prop} (h : Keeps m p P) (weaker : ∀ a, P a → Q a) :
    Keeps m p Q :=
  Leads.mono h fun _ a post => ⟨post.1, weaker a post.2⟩

theorem steps {p : Parser α} {f : α → Parser β} {Q : Mode → β → Prop} {P : α → Prop}
    (first : Keeps m p P) (next : ∀ a, P a → Leads m (f a) Q) : Leads m (p >>= f) Q := by
  apply Leads.bind first
  rintro m' a ⟨rfl, post⟩
  exact next a post

theorem map {p : Parser α} {f : α → β} {P : β → Prop} (h : Keeps m p fun a => P (f a)) :
    Keeps m (f <$> p) P := by
  intro s b s' inMode run
  obtain ⟨a, step, rfl⟩ := map_eq_ok.mp run
  exact h s a s' inMode step

theorem ite {c : Prop} [Decidable c] {p q : Parser α} {P : α → Prop} (yes : c → Keeps m p P)
    (no : ¬c → Keeps m q P) : Keeps m (if c then p else q) P := Leads.ite yes no

theorem ite_bind {c : Prop} [Decidable c] {p q : Parser α} {f : α → Parser β} {P : α → Prop}
    {Q : β → Prop} (first : Keeps m (if c then p else q) P)
    (next : ∀ a, P a → Keeps m (f a) Q) : Keeps m (if c then p >>= f else q >>= f) Q := by
  rw [← Parser.ite_bind]
  exact first.bind next

theorem loop {step : α → Parser (α ⊕ β)} {I : α → Prop} {P : β → Prop}
    (next : ∀ a, I a → Keeps m (step a) fun r => Sum.elim I P r) (limit : Nat) (a : α)
    (start : I a) : Keeps m (Parser.loop step limit a) P := by
  refine Leads.loop (I := fun k a => k = m ∧ I a) ?_ limit a ⟨rfl, start⟩
  rintro k a ⟨rfl, inv⟩
  apply Leads.mono (next a inv)
  rintro k r ⟨rfl, post⟩
  cases r with
  | inl a => exact ⟨rfl, post⟩
  | inr b => exact ⟨rfl, post⟩

theorem collect {p : Parser (Option α)} {P : α → Prop}
    (next : Keeps m p fun r => ∀ a ∈ r, P a) (limit : Nat) :
    Keeps m (Parser.collect limit p) fun found => ∀ a ∈ found, P a := by
  refine loop (I := fun found => ∀ a ∈ found, P a) ?_ limit [] (by simp)
  intro found inv
  apply next.bind
  intro r post
  cases r with
  | none => exact pure (by simpa using inv)
  | some a =>
    have first : P a := post a rfl
    exact pure (by simpa [first] using inv)

/-- A parser run one level deeper and brought back. -/
theorem deeper {p : Parser α} {P : α → Prop} (h : ∀ room, Keeps (m.below room) p P) :
    Keeps m (deeper p) P := by
  apply Leads.descend_bind
  intro room s a s' inMode run
  unfold restoring at run
  split at run
  next t step =>
    cases run
    obtain ⟨k, inMode', rfl, post⟩ := h room s _ _ inMode step
    refine ⟨m, ⟨?_, inMode'.2⟩, rfl, post⟩
    simp [inMode'.1,Mode.below]
  next => cases run

theorem levelled {p : Parser α} {P : α → Prop}
    (h : Leads m p fun k a => k.noIn = m.noIn ∧ P a) : Keeps m (levelled p) P := by
  intro s a s' inMode run
  unfold Parser.levelled at run
  split at run
  next t step =>
    cases run
    obtain ⟨k, inMode', noIn, post⟩ := h s _ _ inMode step
    exact ⟨m, ⟨inMode.1, inMode'.2.trans noIn⟩, rfl, post⟩
  next => cases run

theorem withIn {p : Parser α} {P : α → Prop} (h : Keeps (m.withNoIn false) p P) :
    Keeps m (withIn p) P := by
  intro s a s' inMode run
  unfold Parser.withIn restoring at run
  split at run
  next t step =>
    cases run
    obtain ⟨k, inMode', rfl, post⟩ := h { s with noIn := false } _ _ ⟨inMode.1, rfl⟩ step
    exact ⟨m, ⟨inMode'.1, inMode.2⟩, rfl, post⟩
  next => cases run

/-- The head of a loop stands where `in` is an operator. -/
theorem withoutIn {p : Parser α} {P : α → Prop} (operator : m.noIn = false)
    (h : Keeps (m.withNoIn true) p P) : Keeps m (withoutIn p) P := by
  intro s a s' inMode run
  unfold Parser.withoutIn restoring at run
  split at run
  next t step =>
    cases run
    obtain ⟨k, inMode', rfl, post⟩ := h { s with noIn := true } _ _ ⟨inMode.1, rfl⟩ step
    exact ⟨m, ⟨inMode'.1, operator.symm⟩, rfl, post⟩
  next => cases run

end Keeps

namespace Steady

theorem pure (a : α) : Steady (pure a : Parser α) := fun _ => Keeps.pure trivial

theorem fail {reason : SyntaxError.Reason} : Steady (fail reason : Parser α) := fun _ => Keeps.fail

theorem bind {p : Parser α} {f : α → Parser β} (first : Steady p) (next : ∀ a, Steady (f a)) :
    Steady (p >>= f) := fun m => (first m).bind fun a _ => next a m

theorem ite {c : Prop} [Decidable c] {p q : Parser α} (yes : Steady p) (no : Steady q) :
    Steady (if c then p else q) := fun m => Keeps.ite (fun _ => yes m) fun _ => no m

/-- What follows a parser whose result does not matter. -/
theorem before {m : Mode} {p : Parser α} {f : α → Parser β} {Q : β → Prop} (first : Steady p)
    (next : ∀ a, Keeps m (f a) Q) : Keeps m (p >>= f) Q :=
  (first m).bind fun a _ => next a

/-- The same where the mode is about to change. -/
theorem leads {m : Mode} {p : Parser α} {f : α → Parser β} {Q : Mode → β → Prop}
    (first : Steady p) (next : ∀ a, Leads m (f a) Q) : Leads m (p >>= f) Q :=
  (first m).steps fun a _ => next a

end Steady

/-- A parser that only looks at the state. -/
theorem steady_observer {p : Parser α} {view : State → α} (observes : ∀ s, p s = .ok (view s) s) :
    Steady p := by
  intro m s a s' inMode run
  rw [observes] at run
  cases run
  exact ⟨m, inMode, rfl, trivial⟩

theorem steady_peek : Steady peek := steady_observer fun _ => rfl
theorem steady_peekNext : Steady peekNext := steady_observer fun _ => rfl
theorem steady_newlineBefore : Steady newlineBefore := steady_observer fun _ => rfl
theorem steady_currentSpan : Steady currentSpan := steady_observer fun _ => rfl
theorem steady_previousSpan : Steady previousSpan := steady_observer fun _ => rfl
theorem steady_arrowAhead : Steady arrowAhead := steady_observer fun _ => rfl
theorem steady_binaryOperator? : Steady binaryOperator? := steady_observer fun _ => rfl

theorem steady_advance : Steady advance := by
  intro m s a s' inMode run
  unfold advance at run
  split at run
  · cases run
    exact ⟨m, inMode, rfl, trivial⟩
  · cases run
    exact ⟨m, inMode, rfl, trivial⟩

theorem steady_finish {start : Span} : Steady (finish start) :=
  steady_previousSpan.bind fun _ => .pure _

theorem steady_accept {token : Token} : Steady (accept token) := by
  apply steady_peek.bind
  intro got
  exact .ite (steady_advance.bind fun _ => .pure _) (.pure _)

theorem steady_require {token : Token} : Steady (require token) := by
  apply steady_peek.bind
  intro got
  exact .ite steady_advance .fail

theorem steady_requireWord {word : String} : Steady (requireWord word) := by
  apply steady_peek.bind
  intro got
  exact .ite steady_advance .fail

theorem steady_ident : Steady ident := by
  apply steady_peek.bind
  intro got
  split
  · exact .ite .fail (steady_advance.bind fun _ => .pure _)
  · exact .fail

theorem steady_propertyName : Steady propertyName := by
  apply steady_peek.bind
  intro got
  split
  · exact steady_advance.bind fun _ => .pure _
  · exact .fail

theorem steady_semicolon : Steady semicolon := by
  apply steady_accept.bind
  intro taken
  apply Steady.ite (.pure _)
  apply steady_peek.bind
  intro got
  apply steady_newlineBefore.bind
  intro newline
  exact .ite (.pure _) .fail

theorem steady_optionalName {isDeclaration : Bool} {missing : SyntaxError.Reason} :
    Steady (optionalName isDeclaration missing) := by
  apply steady_peek.bind
  intro got
  split
  · exact .ite (steady_ident.bind fun _ => .pure _) (.ite .fail (.pure _))
  · exact .ite .fail (.pure _)

theorem steady_modifies {word : String} : Steady (modifies word) := by
  apply steady_peek.bind
  intro got
  apply Steady.ite _ (.pure _)
  apply steady_peekNext.bind
  intro next
  split <;> exact .pure _

theorem steady_accessor : Steady accessor := by
  apply steady_modifies.bind
  intro isGetter
  apply Steady.ite (steady_advance.bind fun _ => .pure _)
  apply steady_modifies.bind
  intro isSetter
  exact .ite (steady_advance.bind fun _ => .pure _) (.pure _)

theorem steady_propertyAccessor : Steady propertyAccessor := by
  apply steady_peek.bind
  intro got
  split
  all_goals
    refine (Steady.pure _).bind fun kind => ?_
    apply steady_peekNext.bind
    intro next
    split <;> exact .pure _

theorem steady_unaryOperator? : Steady unaryOperator? := by
  apply steady_peek.bind
  intro got
  split <;> exact .pure _

theorem steady_updateOperator? : Steady updateOperator? := by
  apply steady_peek.bind
  intro got
  split <;> exact .pure _

theorem steady_assignmentOperator? : Steady assignmentOperator? := by
  apply steady_peek.bind
  intro got
  split <;> exact .pure _

theorem steady_startsLet : Steady startsLet := by
  apply steady_peekNext.bind
  intro next
  split <;> exact .pure _

theorem steady_bindingKind? : Steady bindingKind? := by
  apply steady_peek.bind
  intro got
  split
  case h_3 => exact steady_startsLet.bind fun _ => .pure _
  all_goals exact .pure _

theorem steady_jumpLabel : Steady jumpLabel := by
  have rest : ∀ label : Option String, Steady (do
      semicolon
      return label) := fun label => steady_semicolon.bind fun _ => .pure _
  apply steady_advance.bind
  intro _
  apply steady_peek.bind
  intro got
  split
  · apply steady_newlineBefore.bind
    intro newline
    exact .ite (rest none) (steady_ident.bind fun name => rest (some name.name))
  · exact rest none

end CodeCompletion.Parser
