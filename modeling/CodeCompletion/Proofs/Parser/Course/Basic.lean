import CodeCompletion.Proofs.Parser.Depth.Mode
import CodeCompletion.Proofs.Parser.Reach

/-! The course of a parser through the lexemes. `Course` has one rule for each way to combine
parsers and for each of the parsers they are made of, so that a derivation follows a run step by
step. Its rules ask for what keeps a run inside the lexemes and lets it end: no end of input is
consumed, and every turn after which a loop goes on consumes a lexeme. -/
namespace CodeCompletion.Parser

def SamePlace (s t : State) : Prop :=
  t.previous = s.previous ∧ t.current = s.current ∧ t.upcoming = s.upcoming

/-- Whatever `p` does from the lexeme with index `i` on, it takes this course, and where it succeeds
`Q` holds of the index it stops at and of its result. -/
inductive Course (ls : List Lexeme) : {α : Type} → Nat → Parser α → (Nat → α → Prop) → Prop
  | pure {α : Type} {i : Nat} {a : α} {Q : Nat → α → Prop} (result : Q i a) : Course ls i (pure a) Q
  | fail {α : Type} {i : Nat} {reason : SyntaxError.Reason} {Q : Nat → α → Prop}
      (known : reason ≠ .missingEndOfInput) : Course ls i (fail reason) Q
  | observe {α : Type} {i : Nat} {view : State → α} {Q : Nat → α → Prop}
      (seen : ∀ s, At ls i s → Q i (view s)) : Course ls i (fun s => .ok (view s) s) Q
  /-- No end of input is consumed. -/
  | advance {i : Nat} {token : Token} (here : tokenAt ls i = some token)
      (notEnd : token ≠ .endOfInput) : Course ls i advance fun j _ => j = i + 1
  | descend {i : Nat} : Course ls i descend fun j _ => j = i
  | bind {α β : Type} {i : Nat} {p : Parser α} {f : α → Parser β} {P : Nat → α → Prop}
      {Q : Nat → β → Prop} (first : Course ls i p P)
      (next : ∀ j a, i ≤ j → P j a → Course ls j (f a) Q) : Course ls i (p >>= f) Q
  | mono {α : Type} {i : Nat} {p : Parser α} {P Q : Nat → α → Prop} (course : Course ls i p P)
      (weaker : ∀ j a, i ≤ j → P j a → Q j a) : Course ls i p Q
  /-- The mode may be changed and set back, but not the place. -/
  | around {α : Type} {i : Nat} {p : Parser α} {enter : State → State}
      {leave giveUp : State → State → State} {Q : Nat → α → Prop}
      (entered : ∀ s, SamePlace s (enter s)) (left : ∀ s t, SamePlace t (leave s t))
      (gaveUp : ∀ s t, SamePlace t (giveUp s t)) (inner : Course ls i p Q) :
      Course ls i (fun s =>
        match p (enter s) with
        | .ok a t => .ok a (leave s t)
        | .error e t => .error e (giveUp s t)) Q
  /-- A turn after which the loop goes on consumes a lexeme, and there are as many turns as lexemes. -/
  | loop {α β : Type} {i limit : Nat} {step : α → Parser (α ⊕ β)} {a : α} {I : Nat → α → Prop}
      {Q : Nat → β → Prop} (room : ls.length ≤ limit + i) (start : I i a)
      (turn : ∀ k a, i ≤ k → I k a → Course ls k (step a) fun j r =>
        r.elim (fun a => k < j ∧ I j a) (Q j)) :
      Course ls i (loop step limit a) Q
  /-- No run comes to where there is no lexeme. -/
  | beyond {α : Type} {i : Nat} {p : Parser α} {Q : Nat → α → Prop} (outside : ls.length ≤ i) :
      Course ls i p Q

/-- What a run from the lexeme with index `i` on comes to. It stops at a lexeme no earlier, whether it
succeeds or fails, and it does not fail for want of an end. -/
def Ends {α : Type} (ls : List Lexeme) (i : Nat) (Q : Nat → α → Prop) :
    EStateM.Result SyntaxError State α → Prop
  | .ok a s => ∃ j, i ≤ j ∧ j < ls.length ∧ At ls j s ∧ Q j a
  | .error e s => (∃ j, i ≤ j ∧ j < ls.length ∧ At ls j s) ∧ e.reason ≠ .missingEndOfInput

variable {α β : Type} {ls : List Lexeme} {i j : Nat}

theorem At.samePlace {s t : State} (at_ : At ls i s) (same : SamePlace s t) : At ls i t :=
  at_.move same.2.1 same.2.2 same.1

theorem At.lt_length {s : State} (at_ : At ls i s) : i < ls.length := by
  by_contra outside
  have ahead := at_.ahead
  rw [List.drop_eq_nil_of_le (by omega)] at ahead
  cases ahead

theorem At.ends {Q : Nat → α → Prop} {a : α} {s : State} (at_ : At ls j s) (le : i ≤ j)
    (result : Q j a) : Ends ls i Q (.ok a s) := ⟨j, le, at_.lt_length, at_, result⟩

theorem At.ends_error {Q : Nat → α → Prop} {e : SyntaxError} {s : State} (at_ : At ls j s)
    (le : i ≤ j) (known : e.reason ≠ .missingEndOfInput) : Ends ls i Q (.error e s) :=
  ⟨⟨j, le, at_.lt_length, at_⟩, known⟩

theorem Ends.mono {P Q : Nat → α → Prop} {r : EStateM.Result SyntaxError State α} (le : j ≤ i)
    (ends : Ends ls i P r) (weaker : ∀ k a, i ≤ k → P k a → Q k a) : Ends ls j Q r := by
  cases r with
  | ok a s =>
    obtain ⟨k, further, -, at_, post⟩ := ends
    exact at_.ends (by omega) (weaker k a further post)
  | error e s =>
    obtain ⟨⟨k, further, -, at_⟩, known⟩ := ends
    exact at_.ends_error (by omega) known

theorem Ends.bind {p : Parser α} {f : α → Parser β} {P : Nat → α → Prop} {Q : Nat → β → Prop}
    {s : State} (first : Ends ls i P (p s))
    (next : ∀ j a t, i ≤ j → P j a → At ls j t → Ends ls j Q (f a t)) :
    Ends ls i Q ((p >>= f) s) := by
  cases step : p s with
  | ok a t =>
    rw [step] at first
    obtain ⟨j, le, -, at_, post⟩ := first
    rw [bind_run step]
    exact (next j a t le post at_).mono le fun _ _ _ post => post
  | error e t =>
    rw [step] at first
    rw [bind_failure step]
    exact first

/-- A loop ends before its limit, since every turn after which it goes on consumes a lexeme. -/
theorem Ends.loop {step : α → Parser (α ⊕ β)} {I : Nat → α → Prop} {Q : Nat → β → Prop}
    {limit : Nat} (room : ls.length ≤ limit + i)
    (turn : ∀ k a, i ≤ k → I k a → ∀ s, At ls k s → Ends ls k
      (fun j r => r.elim (fun a => k < j ∧ I j a) (Q j)) (step a s))
    {a : α} {s : State} (start : I i a) (at_ : At ls i s) :
    Ends ls i Q (Parser.loop step limit a s) := by
  induction limit generalizing i a s with
  | zero =>
    have := at_.lt_length
    omega
  | succ limit ih =>
    refine (turn i a (Nat.le_refl i) start s at_).bind fun j r t le post at_ => ?_
    cases r with
    | inl a =>
      exact ih (by have := post.1; omega) (fun k a further => turn k a (by omega)) post.2 at_
    | inr b => exact at_.ends (Nat.le_refl j) post

/-- A run that takes a course through lexemes with an end stays among them and comes to an end. -/
theorem Course.ends (ended : ∀ k, k + 1 = ls.length → tokenAt ls k = some .endOfInput)
    {p : Parser α} {Q : Nat → α → Prop} (course : Course ls i p Q) :
    ∀ s, At ls i s → Ends ls i Q (p s) := by
  induction course with
  | pure result => exact fun s at_ => at_.ends (Nat.le_refl _) result
  | fail known => exact fun s at_ => at_.ends_error (Nat.le_refl _) known
  | observe seen => exact fun s at_ => at_.ends (Nat.le_refl _) (seen s at_)
  | @advance i token here notEnd =>
    intro s at_
    have inside : i + 1 < ls.length := by
      have := at_.lt_length
      by_contra last
      rw [ended i (by omega)] at here
      exact notEnd (Option.some.inj here).symm
    obtain ⟨rest, upcoming⟩ := at_.next (List.getElem?_eq_getElem inside)
    simp only [Parser.advance,upcoming]
    exact (at_.succ upcoming).ends (Nat.le_succ i) rfl
  | descend =>
    intro s at_
    unfold Parser.descend
    split
    · exact at_.ends_error (Nat.le_refl _) (by simp)
    · have stays := at_.samePlace (t := { s with depth := s.depth + 1 }) ⟨rfl, rfl, rfl⟩
      exact stays.ends (Nat.le_refl _) rfl
  | bind first next ih ih' =>
    exact fun s at_ => (ih s at_).bind fun j a t le post at_ => ih' j a le post t at_
  | mono course weaker ih => exact fun s at_ => (ih s at_).mono (Nat.le_refl _) weaker
  | @around α i p enter leave giveUp Q entered left gaveUp inner ih =>
    intro s at_
    have ends := ih (enter s) (at_.samePlace (entered s))
    cases run : p (enter s) with
    | ok a t =>
      rw [run] at ends
      obtain ⟨j, le, -, at_, post⟩ := ends
      simp only [run]
      exact (at_.samePlace (left s t)).ends le post
    | error e t =>
      rw [run] at ends
      obtain ⟨⟨j, le, -, at_⟩, known⟩ := ends
      simp only [run]
      exact (at_.samePlace (gaveUp s t)).ends_error le known
  | loop room start turn ih => exact fun s at_ => .loop room ih start at_
  | beyond outside => exact fun s at_ => absurd at_.lt_length (Nat.not_lt.mpr outside)

/-- The parser succeeds, if at all, after it has consumed a lexeme. -/
def Advances (ls : List Lexeme) (i : Nat) (p : Parser α) : Prop := Course ls i p fun j _ => i < j

def Proceeds (ls : List Lexeme) (i : Nat) (p : Parser α) : Prop := Course ls i p fun _ _ => True

section Sequences

variable {p : Parser α} {f : α → Parser β} {P : Nat → α → Prop} {Q : Nat → β → Prop}

theorem Proceeds.past (h : Proceeds ls j p) (lt : i < j) : Course ls j p fun k _ => i < k :=
  h.mono fun _ _ le _ => by omega

/-- What comes after a lexeme has been consumed need not consume another one. -/
theorem Advances.before (first : Advances ls i p) (next : ∀ j a, i < j → Proceeds ls j (f a)) :
    Advances ls i (p >>= f) :=
  first.bind fun j a _ lt => (next j a lt).past lt

namespace Course

theorem proceeds (h : Course ls i p P) : Proceeds ls i p := h.mono fun _ _ _ _ => trivial

theorem onward (first : Course ls i p P) (next : ∀ j a, i ≤ j → P j a → Proceeds ls j (f a)) :
    Proceeds ls i (p >>= f) := first.bind next

/-- A parser that stays where it is, and what follows it. -/
theorem look {R : α → Prop} (first : Course ls i p fun j a => j = i ∧ R a)
    (next : ∀ a, R a → Course ls i (f a) Q) : Course ls i (p >>= f) Q :=
  first.bind fun _ a _ ⟨here, post⟩ => here ▸ next a post

theorem stay (first : Course ls i p fun j _ => j = i) (next : ∀ a, Course ls i (f a) Q) :
    Course ls i (p >>= f) Q :=
  first.bind fun _ a _ here => here ▸ next a

/-- A parser that consumes one lexeme, and what follows it. -/
theorem take (first : Course ls i p fun j _ => j = i + 1)
    (next : ∀ a, Proceeds ls (i + 1) (f a)) : Advances ls i (p >>= f) :=
  first.bind fun _ a _ here => here ▸ (next a).past (Nat.lt_succ_self i)

theorem fail_bind {reason : SyntaxError.Reason} (known : reason ≠ .missingEndOfInput) :
    Course ls i (Parser.fail reason >>= f) Q :=
  .bind (P := fun _ _ => False) (.fail known) fun _ _ _ => False.elim

theorem map {h : α → β} (course : Course ls i p fun j a => Q j (h a)) :
    Course ls i (h <$> p) Q := by
  rw [map_eq_pure_bind]
  exact course.bind fun _ _ _ post => .pure post

theorem ite {c : Prop} [Decidable c] {q : Parser α} (yes : c → Course ls i p P)
    (no : ¬c → Course ls i q P) : Course ls i (if c then p else q) P := by
  by_cases h : c
  · rw [if_pos h]
    exact yes h
  · rw [if_neg h]
    exact no h

/-- What follows a choice may be read as following each of its branches. -/
theorem ite_bind {c : Prop} [Decidable c] {q : Parser α} (first : Course ls i (if c then p else q) P)
    (next : ∀ j a, i ≤ j → P j a → Course ls j (f a) Q) :
    Course ls i (if c then p >>= f else q >>= f) Q := by
  by_cases h : c
  · rw [if_pos h] at first ⊢
    exact first.bind next
  · rw [if_neg h] at first ⊢
    exact first.bind next

/-- A step that may be left out. -/
theorem optional {c : Prop} [Decidable c] (h : Proceeds ls i p) :
    Proceeds ls i (if c then some <$> p else Pure.pure none) :=
  .ite (fun _ => .map h) fun _ => .pure trivial

theorem leftOut {c : Prop} [Decidable c] (h : Proceeds ls i p) :
    Proceeds ls i (if c then Pure.pure none else some <$> p) :=
  .ite (fun _ => .pure trivial) fun _ => .map h

/-- What follows a step that may be left out. -/
theorem when {c : Prop} [Decidable c] {q : Parser β} (first : c → Course ls i p P)
    (next : ∀ j, i ≤ j → Course ls j q Q) :
    Course ls i (if c then p >>= fun _ => q else q) Q :=
  .ite (fun h => (first h).bind fun j _ le _ => next j le) fun _ => next i (Nat.le_refl i)

/-- A list goes on with items that consume a lexeme, and ends where `E` holds. -/
theorem collect {r : Parser (Option α)} {limit : Nat} {E : Nat → Prop}
    (room : ls.length ≤ limit + i)
    (turn : ∀ k, i ≤ k → Course ls k r fun j found => found.elim (E j) fun _ => k < j) :
    Course ls i (Parser.collect limit r) fun j _ => E j := by
  refine .loop (I := fun _ _ => True) room trivial fun k found le _ => ?_
  refine (turn k le).bind fun j next _ post => ?_
  cases next with
  | none => exact .pure post
  | some a => exact .pure ⟨post, trivial⟩

theorem descend_bind {f : Unit → Parser β} (next : Course ls i (f ()) Q) :
    Course ls i (Parser.descend >>= f) Q :=
  .stay .descend fun _ => next

theorem restoring {r : State → State} (kept : ∀ s, SamePlace s (r s)) (h : Course ls i p P) :
    Course ls i (Parser.restoring r p) P :=
  .around (fun _ => ⟨rfl, rfl, rfl⟩) (fun _ => kept) (fun _ => kept) h

theorem deeper (h : Course ls i p P) : Course ls i (Parser.deeper p) P :=
  .descend_bind (.restoring (fun _ => ⟨rfl, rfl, rfl⟩) h)

theorem levelled (h : Course ls i p P) : Course ls i (Parser.levelled p) P :=
  .around (fun _ => ⟨rfl, rfl, rfl⟩) (fun _ _ => ⟨rfl, rfl, rfl⟩) (fun _ _ => ⟨rfl, rfl, rfl⟩) h

theorem withIn (h : Course ls i p P) : Course ls i (Parser.withIn p) P :=
  .around (fun _ => ⟨rfl, rfl, rfl⟩) (fun _ _ => ⟨rfl, rfl, rfl⟩) (fun _ _ => ⟨rfl, rfl, rfl⟩) h

theorem withoutIn (h : Course ls i p P) : Course ls i (Parser.withoutIn p) P :=
  .around (fun _ => ⟨rfl, rfl, rfl⟩) (fun _ _ => ⟨rfl, rfl, rfl⟩) (fun _ _ => ⟨rfl, rfl, rfl⟩) h

end Course

end Sequences

section Primitives

variable {token : Token}

theorem course_peek : Course ls i peek fun j t => j = i ∧ tokenAt ls i = some t :=
  .observe fun _ at_ => ⟨rfl, at_.token⟩

/-- The token after the current one is the next lexeme's, unless there is none. -/
theorem course_peekNext : Course ls i peekNext fun j t => j = i ∧
    (tokenAt ls i ≠ some t → tokenAt ls (i + 1) = some t) := by
  refine .observe fun s at_ => ⟨rfl, fun other => ?_⟩
  cases upcoming : s.upcoming with
  | nil =>
    rw [upcoming] at other
    exact absurd at_.token other
  | cons next rest => exact (at_.succ upcoming).token

theorem course_newlineBefore : Course ls i newlineBefore fun j _ => j = i := .observe fun _ _ => rfl

theorem course_currentSpan : Course ls i currentSpan fun j _ => j = i := .observe fun _ _ => rfl

theorem course_previousSpan : Course ls i previousSpan fun j _ => j = i := .observe fun _ _ => rfl

theorem course_arrowAhead : Course ls i arrowAhead fun j _ => j = i := .observe fun _ _ => rfl

theorem course_finish {start : Span} : Course ls i (finish start) fun j _ => j = i :=
  .stay course_previousSpan fun _ => .pure rfl

theorem course_accept (notEnd : token ≠ .endOfInput) :
    Course ls i (accept token) fun j taken => j = if taken then i + 1 else i := by
  refine .look course_peek fun got here => .ite (fun same => ?_) fun _ => .pure rfl
  subst same
  exact (Course.advance here notEnd).bind fun j _ _ next => .pure next

/-- A token that decides how to go on. -/
theorem course_accept_ite {p q : Parser α} {Q : Nat → α → Prop} (notEnd : token ≠ .endOfInput)
    (yes : Course ls (i + 1) p Q) (no : Course ls i q Q) :
    Course ls i (accept token >>= fun taken => if taken = true then p else q) Q := by
  refine (course_accept notEnd).bind fun j taken _ next => ?_
  cases taken with
  | true =>
    obtain rfl : j = i + 1 := next
    exact yes
  | false =>
    obtain rfl : j = i := next
    exact no

theorem course_require (notEnd : token ≠ .endOfInput) :
    Course ls i (require token) fun j _ => j = i + 1 := by
  refine .look course_peek fun got here => .ite (fun same => ?_) fun _ => .fail nofun
  subst same
  exact .advance here notEnd

theorem course_requireWord {word : String} :
    Course ls i (requireWord word) fun j _ => j = i + 1 := by
  refine .look course_peek fun got here => .ite (fun same => ?_) fun _ => .fail nofun
  subst same
  exact .advance here nofun

theorem course_ident : Course ls i ident fun j _ => j = i + 1 := by
  refine .look course_peek fun got here => ?_
  split
  · refine .ite (fun _ => .fail nofun) fun _ => ?_
    exact (Course.advance here nofun).bind fun _ _ _ next => .pure next
  · exact .fail nofun

theorem course_propertyName : Course ls i propertyName fun j _ => j = i + 1 := by
  refine .look course_peek fun got here => ?_
  split
  · exact (Course.advance here nofun).bind fun _ _ _ next => .pure next
  · exact .fail nofun

theorem proceeds_semicolon : Proceeds ls i semicolon := by
  refine course_accept_ite nofun (.pure trivial) ?_
  refine .look course_peek fun got _ => .stay course_newlineBefore fun newline => ?_
  exact .ite (fun _ => .pure trivial) fun _ => .fail nofun

end Primitives

end CodeCompletion.Parser
