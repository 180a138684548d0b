import CodeCompletion.Parser.Statement
import CodeCompletion.Proofs.Parser.Spans

/-! What a parser does to its place among the lexemes. `Reaches` says where a parser that
starts at one lexeme and succeeds can end, and with which results; there is one rule for
each way to combine parsers and one for each parser that looks at lexemes itself. -/
namespace CodeCompletion.Parser

variable {α β : Type} {ls : List Lexeme} {i : Nat}

structure At (ls : List Lexeme) (i : Nat) (s : State) : Prop where
  ahead : ls.drop i = s.current :: s.upcoming
  behind : ∀ k, i = k + 1 → ∃ l, ls[k]? = some l ∧ s.previous = some l.span

/-- From the lexeme with index `i` on, `p` fails or stops at a lexeme `j` no earlier, where
its result satisfies `Q j`. -/
def Reaches (ls : List Lexeme) (i : Nat) (p : Parser α) (Q : Nat → α → Prop) : Prop :=
  ∀ s a s', At ls i s → p s = .ok a s' → ∃ j, i ≤ j ∧ At ls j s' ∧ Q j a

theorem At.here {s : State} (at_ : At ls i s) : ls[i]? = some s.current := by
  have head := congrArg List.head? at_.ahead
  rwa [List.head?_drop] at head

theorem At.move {s s' : State} (at_ : At ls i s) (current : s'.current = s.current)
    (upcoming : s'.upcoming = s.upcoming) (previous : s'.previous = s.previous) : At ls i s' where
  ahead := by rw [current,upcoming]; exact at_.ahead
  behind := by rw [previous]; exact at_.behind

/-- The lexeme after the one a state stands on. -/
theorem At.next {s : State} {l : Lexeme} (at_ : At ls i s) (found : ls[i + 1]? = some l) :
    ∃ rest, s.upcoming = l :: rest := by
  have tail := congrArg List.head? (congrArg List.tail at_.ahead)
  rw [List.tail_drop,List.head?_drop,List.tail_cons,found] at tail
  cases upcoming : s.upcoming with
  | nil =>
    rw [upcoming] at tail
    cases tail
  | cons next rest =>
    rw [upcoming] at tail
    cases tail
    exact ⟨rest, rfl⟩

theorem At.succ {s : State} {next : Lexeme} {rest : List Lexeme} (at_ : At ls i s)
    (upcoming : s.upcoming = next :: rest) : At ls (i + 1)
      { s with previous := some s.current.span, current := next, upcoming := rest } where
  ahead := by rw [← List.tail_drop,at_.ahead,List.tail_cons,upcoming]
  behind := by
    rintro k equal
    obtain rfl := Nat.succ.inj equal
    exact ⟨s.current, at_.here, rfl⟩

namespace Reaches

theorem pure {a : α} {Q : Nat → α → Prop} (h : Q i a) : Reaches ls i (pure a) Q := by
  intro s b s' at_ run
  cases run
  exact ⟨i, Nat.le_refl i, at_, h⟩

theorem bind {p : Parser α} {f : α → Parser β} {P : Nat → α → Prop} {Q : Nat → β → Prop}
    (first : Reaches ls i p P) (next : ∀ j a, i ≤ j → P j a → Reaches ls j (f a) Q) :
    Reaches ls i (p >>= f) Q := by
  intro s b s' at_ run
  cases step : p s with
  | error e t => simp [Bind.bind,EStateM.bind,step] at run
  | ok a t =>
    obtain ⟨j, le, atj, post⟩ := first s a t at_ step
    have run : f a t = .ok b s' := by simpa [Bind.bind,EStateM.bind,step] using run
    obtain ⟨k, le', atk, post⟩ := next j a le post t b s' atj run
    exact ⟨k, Nat.le_trans le le', atk, post⟩

theorem mono {p : Parser α} {P Q : Nat → α → Prop} (h : Reaches ls i p P)
    (weaker : ∀ j a, i ≤ j → P j a → Q j a) : Reaches ls i p Q := by
  intro s a s' at_ run
  obtain ⟨j, le, atj, post⟩ := h s a s' at_ run
  exact ⟨j, le, atj, weaker j a le post⟩

theorem map {p : Parser α} {f : α → β} {Q : Nat → β → Prop}
    (h : Reaches ls i p fun j a => Q j (f a)) : Reaches ls i (f <$> p) Q := by
  intro s b s' at_ run
  cases step : p s with
  | error e t => simp [Functor.map,EStateM.map,step] at run
  | ok a t =>
    obtain ⟨rfl, rfl⟩ : f a = b ∧ t = s' := by simpa [Functor.map,EStateM.map,step] using run
    exact h s a t at_ step

theorem fail {reason : SyntaxError.Reason} {Q : Nat → α → Prop} :
    Reaches ls i (fail reason) Q := by
  intro s a s' at_ run
  cases run

theorem fail_bind {reason : SyntaxError.Reason} {f : α → Parser β} {Q : Nat → β → Prop} :
    Reaches ls i (Parser.fail reason >>= f) Q :=
  .bind (P := fun _ _ => False) .fail fun _ _ _ => False.elim

/-- A parser that stays where it is, and what follows it. -/
theorem look {p : Parser α} {f : α → Parser β} {P : α → Prop} {Q : Nat → β → Prop}
    (first : Reaches ls i p fun j a => j = i ∧ P a)
    (next : ∀ a, P a → Reaches ls i (f a) Q) : Reaches ls i (p >>= f) Q :=
  first.bind fun _ a _ ⟨here, post⟩ => here ▸ next a post

/-- A parser that consumes one lexeme, and what follows it. -/
theorem take {p : Parser α} {f : α → Parser β} {P : α → Prop} {Q : Nat → β → Prop}
    (first : Reaches ls i p fun j a => j = i + 1 ∧ P a)
    (next : ∀ a, P a → Reaches ls (i + 1) (f a) Q) : Reaches ls i (p >>= f) Q :=
  first.bind fun _ a _ ⟨here, post⟩ => here ▸ next a post

theorem ite {c : Prop} [Decidable c] {p q : Parser α} {Q : Nat → α → Prop}
    (yes : c → Reaches ls i p Q) (no : ¬c → Reaches ls i q Q) :
    Reaches ls i (if c then p else q) Q := by
  split
  · exact yes ‹_›
  · exact no ‹_›

/-- What follows a choice may be read as following each of its branches. -/
theorem ite_bind {c : Prop} [Decidable c] {p q : Parser α} {f : α → Parser β}
    {P : Nat → α → Prop} {Q : Nat → β → Prop} (first : Reaches ls i (if c then p else q) P)
    (next : ∀ j a, i ≤ j → P j a → Reaches ls j (f a) Q) :
    Reaches ls i (if c then p >>= f else q >>= f) Q := by
  rw [show (if c then p >>= f else q >>= f) = (if c then p else q) >>= f by split <;> rfl]
  exact first.bind next

/-- What follows a step that may be left out. -/
theorem when {c : Prop} [Decidable c] {p : Parser α} {q : Parser β} {P : Nat → α → Prop}
    {Q : Nat → β → Prop} (first : c → Reaches ls i p P)
    (next : ∀ j, i ≤ j → Reaches ls j q Q) :
    Reaches ls i (if c then p >>= fun _ => q else q) Q :=
  .ite (fun h => (first h).bind fun j _ le _ => next j le) fun _ => next i (Nat.le_refl i)

theorem loop {step : α → Parser (α ⊕ β)} {I : Nat → α → Prop} {Q : Nat → β → Prop}
    (next : ∀ k a, i ≤ k → I k a → Reaches ls k (step a) fun j r => Sum.elim (I j) (Q j) r)
    (limit : Nat) (a : α) (start : I i a) : Reaches ls i (Parser.loop step limit a) Q := by
  induction limit generalizing i a with
  | zero => exact .fail
  | succ limit ih =>
    refine (next i a (Nat.le_refl i) start).bind fun j r le post => ?_
    cases r with
    | inl a => exact ih (fun k a le' => next k a (Nat.le_trans le le')) a post
    | inr b => exact .pure post

theorem collect {p : Parser (Option α)} {I Q : Nat → List α → Prop}
    (next : ∀ k found, i ≤ k → I k found → Reaches ls k p fun j r =>
      r.elim (Q j found) fun a => I j (found ++ [a]))
    (limit : Nat) (start : I i []) : Reaches ls i (Parser.collect limit p) Q := by
  refine .loop (fun k found le inv => ?_) limit [] (I := fun j found => I j found.reverse)
    start
  refine (next k found.reverse le inv).bind fun j r _ post => ?_
  cases r with
  | none => exact .pure post
  | some a => exact .pure (by simpa using post)

theorem restoring {p : Parser α} {r : State → State} {Q : Nat → α → Prop}
    (kept : ∀ j s, At ls j s → At ls j (r s)) (h : Reaches ls i p Q) :
    Reaches ls i (restoring r p) Q := by
  intro s a s' at_ run
  cases step : p s with
  | error e t => simp [Parser.restoring,step] at run
  | ok b t =>
    obtain ⟨rfl, rfl⟩ : b = a ∧ r t = s' := by simpa [Parser.restoring,step] using run
    obtain ⟨j, le, atj, post⟩ := h s b t at_ step
    exact ⟨j, le, kept j t atj, post⟩

theorem descend_bind {f : Unit → Parser α} {Q : Nat → α → Prop} (next : Reaches ls i (f ()) Q) :
    Reaches ls i (descend >>= f) Q := by
  refine .look (P := fun _ => True) (fun s a s' at_ run => ?_) fun _ _ => next
  unfold Parser.descend at run
  split at run
  · cases run
  · cases run
    exact ⟨i, Nat.le_refl i, at_.move rfl rfl rfl, rfl, trivial⟩

theorem deeper {p : Parser α} {Q : Nat → α → Prop} (h : Reaches ls i p Q) :
    Reaches ls i (deeper p) Q :=
  .descend_bind (.restoring (fun _ _ at_ => at_.move rfl rfl rfl) h)

theorem levelled {p : Parser α} {Q : Nat → α → Prop} (h : Reaches ls i p Q) :
    Reaches ls i (levelled p) Q := by
  intro s a s' at_ run
  cases step : p s with
  | error e t => simp [Parser.levelled,step] at run
  | ok b t =>
    obtain ⟨rfl, rfl⟩ : b = a ∧ { t with depth := s.depth } = s' := by
      simpa [Parser.levelled,step] using run
    obtain ⟨j, le, atj, post⟩ := h s b t at_ step
    exact ⟨j, le, atj.move rfl rfl rfl, post⟩

theorem withIn {p : Parser α} {Q : Nat → α → Prop} (h : Reaches ls i p Q) :
    Reaches ls i (withIn p) Q := by
  intro s a s' at_
  exact restoring (r := fun t => { t with noIn := s.noIn })
    (fun _ _ at_ => at_.move rfl rfl rfl) h _ a s' (at_.move rfl rfl rfl)

theorem withoutIn {p : Parser α} {Q : Nat → α → Prop} (h : Reaches ls i p Q) :
    Reaches ls i (withoutIn p) Q := by
  intro s a s' at_
  exact restoring (r := fun t => { t with noIn := false })
    (fun _ _ at_ => at_.move rfl rfl rfl) h _ a s' (at_.move rfl rfl rfl)

end Reaches

def tokenAt (ls : List Lexeme) (i : Nat) : Option Token := ls[i]?.map Lexeme.token

theorem At.token {s : State} (at_ : At ls i s) : tokenAt ls i = some s.current.token := by
  rw [tokenAt,at_.here,Option.map_some]

theorem tokenAt_last {token : Token} (last : ls.getLast?.map Lexeme.token = some token) (i : Nat)
    (border : i + 1 = ls.length) : tokenAt ls i = some token := by
  rw [List.getLast?_eq_getElem?,show ls.length - 1 = i by omega] at last
  exact last

def Occurs (ls : List Lexeme) (token : Token) : Prop := ∃ l ∈ ls, l.token = token

theorem occurs_of_tokenAt {token : Token} (here : tokenAt ls i = some token) :
    Occurs ls token := by
  obtain ⟨l, found, same⟩ := Option.map_eq_some_iff.mp here
  exact ⟨l, List.mem_of_getElem? found, same⟩

/-- What has been made of the current token can be consumed, if it is anything. -/
def Sees (ls : List Lexeme) (i : Nat) (seen : Option α) : Prop :=
  seen ≠ none → ∃ token, tokenAt ls i = some token ∧ token ≠ .endOfInput

theorem sees_none : Sees ls i (none : Option α) := fun given => absurd rfl given

section Primitives

variable {token : Token}

/-- A parser that only looks at the state. -/
theorem reaches_observer {p : Parser α} {P : α → Prop} {view : State → α}
    (observes : ∀ s, p s = .ok (view s) s) (h : ∀ s, At ls i s → P (view s)) :
    Reaches ls i p fun j a => j = i ∧ P a := by
  intro s a s' at_ run
  rw [observes] at run
  cases run
  exact ⟨i, Nat.le_refl i, at_, rfl, h s at_⟩

theorem reaches_peek : Reaches ls i peek fun j t => j = i ∧ tokenAt ls i = some t :=
  reaches_observer (fun _ => rfl) fun _ at_ => at_.token

theorem reaches_newlineBefore : Reaches ls i newlineBefore fun j _ => j = i ∧ True :=
  reaches_observer (fun _ => rfl) fun _ _ => trivial

theorem reaches_currentSpan :
    Reaches ls i currentSpan fun j span => j = i ∧ Spans ls i (i + 1) span :=
  reaches_observer (fun _ => rfl) fun _ at_ => spans_lexeme at_.here

theorem reaches_previousSpan (consumed : 0 < i) :
    Reaches ls i previousSpan fun j span => j = i ∧ Spans ls (i - 1) i span := by
  refine reaches_observer (fun _ => rfl) fun s at_ => ?_
  obtain ⟨l, found, previous⟩ := at_.behind (i - 1) (by omega)
  rw [previous,Option.getD_some]
  have := spans_lexeme found
  rwa [Nat.sub_add_cancel consumed] at this

variable (stream : Stream ls)
include stream

theorem At.upcoming {s : State} (at_ : At ls i s) (here : s.current.token ≠ .endOfInput) :
    ∃ next rest, s.upcoming = next :: rest := by
  obtain ⟨next, found⟩ := stream.ended i _ at_.here here
  obtain ⟨rest, upcoming⟩ := at_.next found
  exact ⟨next, rest, upcoming⟩

/-- The token after the current one is the next lexeme's, except at the end of input. -/
theorem reaches_peekNext : Reaches ls i peekNext fun j t => j = i ∧
    ∀ here, tokenAt ls i = some here → here ≠ .endOfInput → tokenAt ls (i + 1) = some t := by
  refine reaches_observer (fun _ => rfl) fun s at_ token here notEnd => ?_
  obtain rfl : s.current.token = token := Option.some.inj (at_.token.symm.trans here)
  obtain ⟨next, rest, upcoming⟩ := at_.upcoming stream notEnd
  have tail := congrArg List.head? (congrArg List.tail at_.ahead)
  rw [List.tail_drop,List.head?_drop,upcoming] at tail
  rw [tokenAt,tail,upcoming]
  rfl

theorem reaches_advance (here : tokenAt ls i = some token) (notEnd : token ≠ .endOfInput) :
    Reaches ls i advance fun j span => j = i + 1 ∧ Spans ls i (i + 1) span := by
  intro s a s' at_ run
  obtain rfl : s.current.token = token := Option.some.inj (at_.token.symm.trans here)
  obtain ⟨next, rest, upcoming⟩ := at_.upcoming stream notEnd
  simp only [advance,upcoming] at run
  cases run
  exact ⟨i + 1, Nat.le_succ i, at_.succ upcoming, rfl, spans_lexeme at_.here⟩

theorem reaches_finish {span : Span} {a b : Nat} (start : Spans ls a b span) (le : b ≤ i) :
    Reaches ls i (finish span) fun j whole => j = i ∧ Spans ls a i whole := by
  have := start.nonempty
  refine .look (reaches_previousSpan (by omega)) fun previous last => .pure ⟨rfl, ?_⟩
  exact stream.cover start last (by omega) (by omega)

theorem reaches_accept (notEnd : token ≠ .endOfInput) :
    Reaches ls i (accept token) fun j taken => j = if taken then i + 1 else i := by
  refine .look reaches_peek fun t here => .ite (fun same => ?_) fun _ => .pure rfl
  subst same
  exact .take (reaches_advance stream here notEnd) fun _ _ => .pure rfl

theorem reaches_require (notEnd : token ≠ .endOfInput) :
    Reaches ls i (require token) fun j span => j = i + 1 ∧ Spans ls i (i + 1) span := by
  refine .look reaches_peek fun t here => .ite (fun same => ?_) fun _ => .fail
  subst same
  exact reaches_advance stream here notEnd

theorem reaches_requireWord {word : String} :
    Reaches ls i (requireWord word) fun j span => j = i + 1 ∧ Spans ls i (i + 1) span := by
  refine .look reaches_peek fun t here => .ite (fun same => ?_) fun _ => .fail
  exact reaches_advance stream here (by simp [same])

theorem reaches_propertyName : Reaches ls i propertyName fun j name =>
    j = i + 1 ∧ Spans ls i (i + 1) name.span ∧ Occurs ls (.word name.name) := by
  refine .look reaches_peek fun t here => ?_
  split
  · exact .take (reaches_advance stream here (by simp)) fun span spans =>
      .pure ⟨rfl, spans, occurs_of_tokenAt here⟩
  · exact .fail

theorem reaches_ident : Reaches ls i ident fun j name =>
    j = i + 1 ∧ Spans ls i (i + 1) name.span ∧ Occurs ls (.word name.name) := by
  refine .look reaches_peek fun t here => ?_
  split
  · refine .ite (fun _ => .fail) fun _ => ?_
    exact .take (reaches_advance stream here (by simp)) fun span spans =>
      .pure ⟨rfl, spans, occurs_of_tokenAt here⟩
  · exact .fail

theorem reaches_semicolon : Reaches ls i semicolon fun _ _ => True := by
  refine (reaches_accept stream (by simp)).bind fun j taken _ _ => .ite (fun _ => .pure trivial)
    fun _ => ?_
  refine .look reaches_peek fun got _ => .look reaches_newlineBefore fun newline _ => ?_
  exact .ite (fun _ => .pure trivial) fun _ => .fail

end Primitives

end CodeCompletion.Parser
