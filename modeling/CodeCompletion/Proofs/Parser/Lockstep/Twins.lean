import CodeCompletion.Proofs.Parser.Reach
import CodeCompletion.Proofs.Parser.Depth.Mode

/-! Two runs side by side. One is on a stream of lexemes, the other on a stream with the same
tokens and line breaks up to a cut; a parser that succeeds in the first does in the second, as
long as it does not look past the cut. -/
namespace CodeCompletion

/-- Brackets that a token opens, less those that it closes. -/
def Token.turn : Token → Int
  | .leftParen | .leftBracket | .leftBrace => 1
  | .rightParen | .rightBracket | .rightBrace => -1
  | _ => 0

namespace Parser

variable {α β : Type}

def level : List Lexeme → Nat → Int
  | l :: ls, i + 1 => l.token.turn + level ls i
  | _, _ => 0

theorem level_zero (ls : List Lexeme) : level ls 0 = 0 := by
  cases ls <;> rfl

theorem level_cons (l : Lexeme) (ls : List Lexeme) (i : Nat) :
    level (l :: ls) (i + 1) = l.token.turn + level ls i := rfl

theorem level_drop (ls : List Lexeme) (i k : Nat) :
    level (ls.drop i) k = level ls (i + k) - level ls i := by
  induction ls generalizing i with
  | nil => simp [level]
  | cons l ls ih =>
    cases i with
    | zero => simp [level_zero]
    | succ i =>
      rw [List.drop_succ_cons,ih,Nat.succ_add,level_cons,level_cons]
      omega

theorem level_succ {ls : List Lexeme} {i : Nat} {token : Token} (here : tokenAt ls i = some token) :
    level ls (i + 1) = level ls i + token.turn := by
  obtain ⟨l, found, rfl⟩ := Option.map_eq_some_iff.mp here
  obtain ⟨inside, rfl⟩ := List.getElem?_eq_some_iff.mp found
  have dropped := level_drop ls i 1
  rw [List.drop_eq_getElem_cons inside,level_cons,level_zero] at dropped
  omega

def newlineAt (ls : List Lexeme) (i : Nat) : Option Bool := ls[i]?.map Lexeme.newlineBefore

def Rejects (token : Token) (p : Parser α) : Prop :=
  ∀ s, s.current.token = token → ∃ e s', p s = .error e s'

namespace Rejects

variable {token : Token}

theorem fail {reason : SyntaxError.Reason} : Rejects token (fail reason : Parser α) :=
  fun s _ => ⟨_, s, rfl⟩

theorem bind {p : Parser α} {f : α → Parser β} (h : Rejects token p) : Rejects token (p >>= f) := by
  intro s next
  obtain ⟨e, s', run⟩ := h s next
  exact ⟨e, s', bind_failure run⟩

theorem map {p : Parser α} {f : α → β} (h : Rejects token p) : Rejects token (f <$> p) := by
  rw [← bind_pure_comp]
  exact h.bind

theorem loop {step : α → Parser (α ⊕ β)} (h : ∀ a, Rejects token (step a)) (n : Nat) (a : α) :
    Rejects token (loop step n a) := by
  cases n with
  | zero => exact fail
  | succ n => exact (h a).bind

/-- After a parser that does not move. -/
theorem after {p : Parser α} {f : α → Parser β} {P : α → Prop}
    (looks : ∀ s, s.current.token = token → ∃ a, p s = .ok a s ∧ P a)
    (next : ∀ a, P a → Rejects token (f a)) : Rejects token (p >>= f) := by
  intro s here
  obtain ⟨a, run, post⟩ := looks s here
  rw [bind_run run]
  exact next a post s here

theorem peek_bind {f : Token → Parser α} (next : Rejects token (f token)) :
    Rejects token (peek >>= f) :=
  after (P := (· = token)) (fun _ here => ⟨_, rfl, here⟩) (by rintro _ rfl; exact next)

theorem peekNext_bind {f : Token → Parser α} (next : ∀ token', Rejects token (f token')) :
    Rejects token (peekNext >>= f) :=
  after (P := fun _ => True) (fun _ _ => ⟨_, rfl, trivial⟩) fun token' _ => next token'

theorem currentSpan_bind {f : Span → Parser α} (next : ∀ span, Rejects token (f span)) :
    Rejects token (currentSpan >>= f) :=
  after (P := fun _ => True) (fun _ _ => ⟨_, rfl, trivial⟩) fun span _ => next span

theorem finish_bind {start : Span} {f : Span → Parser α} (next : ∀ span, Rejects token (f span)) :
    Rejects token (finish start >>= f) :=
  after (P := fun _ => True) (fun _ _ => ⟨_, rfl, trivial⟩) fun span _ => next span

theorem accept_bind {other : Token} {f : Bool → Parser α} (differs : token ≠ other)
    (next : Rejects token (f false)) : Rejects token (accept other >>= f) := by
  rw [accept,bind_assoc]
  apply peek_bind
  rw [if_neg differs]
  exact next

theorem levelled {p : Parser α} (h : Rejects token p) : Rejects token (levelled p) := by
  intro s here
  obtain ⟨e, s', run⟩ := h s here
  exact ⟨e, s', by simp only [Parser.levelled,run]⟩

theorem deeper {p : Parser α} (h : Rejects token p) : Rejects token (deeper p) := by
  intro s here
  by_cases full : maxDepth ≤ s.depth
  · exact ⟨_, s, bind_failure (if_pos full)⟩
  · obtain ⟨e, s', run⟩ := h { s with depth := s.depth + 1 } here
    exact ⟨e, _, (bind_run (if_neg full)).trans (by simp only [restoring,run]; rfl)⟩

end Rejects

/-- Two streams that agree up to a cut. The short one ends there, or right after it; in that case
what is before the cut is a semicolon, and what comes after it in the long one is no `else`. The
line break before the first lexeme is of no account. -/
structure Twins where
  short : List Lexeme
  long : List Lexeme
  cut : Nat
  /-- Whether failures agree, too. -/
  strict : Prop
  tokens : ∀ i < cut, tokenAt long i = tokenAt short i
  newlines : ∀ i, 0 < i → i < cut → newlineAt long i = newlineAt short i
  ended : ∀ i, i + 1 = short.length → tokenAt short i = some .endOfInput
  ends : short.length = cut ∧ long.length = cut ∨ short.length = cut + 1 ∧ cut < long.length
  before : short.length = cut + 1 → ∀ i, i + 1 = cut → tokenAt short i = some .semicolon
  after : short.length = cut + 1 → tokenAt long cut ≠ some (.word "else")
  whole : strict → short.length = cut

namespace Twins

variable (w : Twins)

structure Stand (i : Nat) (s t : State) : Prop where
  left : w.short.drop i = s.current :: s.upcoming
  right : w.long.drop i = t.current :: t.upcoming
  depth : t.depth = s.depth
  noIn : t.noIn = s.noIn

def Agrees (Q : Nat → α → α → Prop) :
    EStateM.Result SyntaxError State α → EStateM.Result SyntaxError State α → Prop
  | .ok a s, r => ∃ j b t, r = .ok b t ∧ w.Stand j s t ∧ Q j a b
  | .error e _, r => w.strict → ∃ e' t, r = .error e' t ∧ e'.reason = e.reason

/-- From the lexeme with index `i` on, `q` does on the long stream what `p` does on the short
one. -/
def Lockstep (i : Nat) (p q : Parser α) (Q : Nat → α → α → Prop) : Prop :=
  ∀ s t, w.Stand i s t → w.Agrees Q (p s) (q t)

variable {w} {i : Nat} {s t : State}

namespace Stand

theorem here (stand : w.Stand i s t) : tokenAt w.short i = some s.current.token := by
  have head := congrArg List.head? stand.left
  rw [List.head?_drop] at head
  rw [tokenAt,head]
  rfl

theorem there (stand : w.Stand i s t) : tokenAt w.long i = some t.current.token := by
  have head := congrArg List.head? stand.right
  rw [List.head?_drop] at head
  rw [tokenAt,head]
  rfl

theorem lt_length (stand : w.Stand i s t) : i < w.short.length := by
  by_contra past
  have left := stand.left
  rw [List.drop_of_length_le (by omega)] at left
  cases left

theorem le_cut (stand : w.Stand i s t) : i ≤ w.cut := by
  have := stand.lt_length
  have := w.ends
  omega

theorem token (stand : w.Stand i s t) (inside : i < w.cut) :
    t.current.token = s.current.token := by
  have same := w.tokens i inside
  rw [stand.here,stand.there] at same
  exact Option.some.inj same

theorem newline (stand : w.Stand i s t) (consumed : 0 < i) (inside : i < w.cut) :
    t.current.newlineBefore = s.current.newlineBefore := by
  have same := w.newlines i consumed inside
  have left := congrArg List.head? stand.left
  have right := congrArg List.head? stand.right
  rw [List.head?_drop] at left right
  simpa [newlineAt,left,right] using same

/-- The short stream stands at its end where it has reached the cut. -/
theorem endOfInput (stand : w.Stand i s t) (border : i = w.cut) :
    s.current.token = .endOfInput := by
  have := stand.lt_length
  have last := w.ended i (by have := w.ends; omega)
  rw [stand.here] at last
  exact Option.some.inj last

theorem inside (stand : w.Stand i s t) (goesOn : s.current.token ≠ .endOfInput) : i < w.cut := by
  have := stand.le_cut
  by_contra past
  exact goesOn (stand.endOfInput (by omega))

theorem whole (stand : w.Stand i s t) (strict : w.strict) : i < w.cut := by
  have := stand.lt_length
  have := w.whole strict
  omega

theorem move {s' t' : State} (stand : w.Stand i s t) (left : s'.current = s.current)
    (left' : s'.upcoming = s.upcoming) (right : t'.current = t.current)
    (right' : t'.upcoming = t.upcoming) (depth : t'.depth = s'.depth)
    (noIn : t'.noIn = s'.noIn) : w.Stand i s' t' where
  left := by rw [left,left']; exact stand.left
  right := by rw [right,right']; exact stand.right
  depth := depth
  noIn := noIn

/-- What is not the end of input has a lexeme after it, in both streams. -/
theorem upcoming (stand : w.Stand i s t) (goesOn : s.current.token ≠ .endOfInput) :
    ∃ next rest next' rest', s.upcoming = next :: rest ∧ t.upcoming = next' :: rest' := by
  have notLast : i + 1 ≠ w.short.length := by
    intro last
    have := w.ended i last
    rw [stand.here] at this
    exact goesOn (Option.some.inj this)
  have := stand.lt_length
  have left := congrArg List.length stand.left
  have right := congrArg List.length stand.right
  have := w.ends
  simp only [List.length_drop,List.length_cons] at left right
  have some : 0 < s.upcoming.length ∧ 0 < t.upcoming.length := by omega
  obtain ⟨next, rest, eq⟩ := List.exists_cons_of_length_pos some.1
  obtain ⟨next', rest', eq'⟩ := List.exists_cons_of_length_pos some.2
  exact ⟨next, rest, next', rest', eq, eq'⟩

end Stand

namespace Lockstep

theorem pure {a b : α} {Q : Nat → α → α → Prop} (h : Q i a b) :
    w.Lockstep i (pure a) (pure b) Q := fun _ t stand => ⟨i, b, t, rfl, stand, h⟩

theorem fail {reason : SyntaxError.Reason} {Q : Nat → α → α → Prop} :
    w.Lockstep i (fail reason) (fail reason) Q := fun _ _ _ _ => ⟨_, _, rfl, rfl⟩

theorem bind {p q : Parser α} {f f' : α → Parser β} {P : Nat → α → α → Prop}
    {Q : Nat → β → β → Prop} (first : w.Lockstep i p q P)
    (next : ∀ j a b, P j a b → w.Lockstep j (f a) (f' b) Q) :
    w.Lockstep i (p >>= f) (q >>= f') Q := by
  intro s t stand
  have step := first s t stand
  cases run : p s with
  | ok a s' =>
    rw [run] at step
    obtain ⟨j, b, t', run', stand', post⟩ := step
    rw [bind_run run,bind_run run']
    exact next j a b post s' t' stand'
  | error e s' =>
    rw [run] at step
    rw [bind_failure run]
    intro strict
    obtain ⟨e', t', run', same⟩ := step strict
    exact ⟨e', t', bind_failure run', same⟩

theorem fail_bind {reason : SyntaxError.Reason} {f f' : α → Parser β} {Q : Nat → β → β → Prop} :
    w.Lockstep i (Parser.fail reason >>= f) (Parser.fail reason >>= f') Q :=
  bind (P := fun _ _ _ => False) fail fun _ _ _ => False.elim

theorem mono {p q : Parser α} {P Q : Nat → α → α → Prop} (h : w.Lockstep i p q P)
    (weaker : ∀ j a b, P j a b → Q j a b) : w.Lockstep i p q Q := by
  intro s t stand
  have step := h s t stand
  cases run : p s with
  | ok a s' =>
    rw [run] at step
    obtain ⟨j, b, t', run', stand', post⟩ := step
    exact ⟨j, b, t', run', stand', weaker j a b post⟩
  | error e s' =>
    rw [run] at step
    exact step

theorem map {p q : Parser α} {f f' : α → β} {Q : Nat → β → β → Prop}
    (h : w.Lockstep i p q fun j a b => Q j (f a) (f' b)) : w.Lockstep i (f <$> p) (f' <$> q) Q := by
  rw [← bind_pure_comp,← bind_pure_comp]
  exact h.bind fun _ _ _ post => pure post

theorem ite {c c' : Prop} [Decidable c] [Decidable c'] {p p' q q' : Parser α}
    {Q : Nat → α → α → Prop} (same : c ↔ c') (yes : c → w.Lockstep i p p' Q)
    (no : ¬c → w.Lockstep i q q' Q) :
    w.Lockstep i (if c then p else q) (if c' then p' else q') Q := by
  by_cases h : c
  · rw [if_pos h,if_pos (same.mp h)]
    exact yes h
  · rw [if_neg h,if_neg (mt same.mpr h)]
    exact no h

theorem ite_bind {c c' : Prop} [Decidable c] [Decidable c'] {p p' q q' : Parser α}
    {f f' : α → Parser β} {P : Nat → α → α → Prop} {Q : Nat → β → β → Prop}
    (first : w.Lockstep i (if c then p else q) (if c' then p' else q') P)
    (next : ∀ j a b, P j a b → w.Lockstep j (f a) (f' b) Q) :
    w.Lockstep i (if c then p >>= f else q >>= f) (if c' then p' >>= f' else q' >>= f') Q := by
  have left : (if c then p >>= f else q >>= f) = (if c then p else q) >>= f := by split <;> rfl
  have right : (if c' then p' >>= f' else q' >>= f') = (if c' then p' else q') >>= f' := by
    split <;> rfl
  rw [left,right]
  exact first.bind next

theorem loop {step step' : α → Parser (α ⊕ β)} {I : Nat → α → α → Prop}
    {Q : Nat → β → β → Prop}
    (next : ∀ k a b, I k a b → w.Lockstep k (step a) (step' b) fun j => Sum.LiftRel (I j) (Q j))
    {n m : Nat} (le : n ≤ m) (same : w.strict → n = m) {a b : α} (start : I i a b) :
    w.Lockstep i (Parser.loop step n a) (Parser.loop step' m b) Q := by
  induction n generalizing m i a b with
  | zero =>
    intro s t stand strict
    obtain rfl := same strict
    exact ⟨_, _, rfl, rfl⟩
  | succ n ih =>
    obtain ⟨m, rfl⟩ := Nat.exists_eq_add_of_le' (Nat.le_trans (Nat.succ_le_succ n.zero_le) le)
    apply (next i a b start).bind
    intro j r r' post
    cases post with
    | inl inv => exact ih (by omega) (fun strict => by have := same strict; omega) inv
    | inr done => exact pure done

/-- A loop with what comes after it, so that a step may leave it at the end of the short stream as
long as what comes after fails there. -/
theorem loop_bind {γ : Type} {step step' : α → Parser (α ⊕ β)} {f f' : β → Parser γ}
    {I : Nat → α → α → Prop} {Q : Nat → γ → γ → Prop}
    (next : ∀ k a b n m, I k a b →
      (∀ j a b, I j a b → w.Lockstep j (Parser.loop step n a >>= f) (Parser.loop step' m b >>= f') Q) →
      w.Lockstep k (step a >>= Sum.elim (fun a => Parser.loop step n a >>= f) f)
        (step' b >>= Sum.elim (fun b => Parser.loop step' m b >>= f') f') Q)
    {n m : Nat} (le : n ≤ m) (same : w.strict → n = m) {a b : α} (start : I i a b) :
    w.Lockstep i (Parser.loop step n a >>= f) (Parser.loop step' m b >>= f') Q := by
  have unrolled {step : α → Parser (α ⊕ β)} {f : β → Parser γ} {n : Nat} {a : α} :
      Parser.loop step (n + 1) a >>= f =
        step a >>= Sum.elim (fun a => Parser.loop step n a >>= f) f := by
    rw [Parser.loop,bind_assoc]
    congr 1
    funext r
    cases r <;> simp
  induction n generalizing m i a b with
  | zero =>
    intro s t stand strict
    obtain rfl := same strict
    exact ⟨_, _, rfl, rfl⟩
  | succ n ih =>
    obtain ⟨m, rfl⟩ := Nat.exists_eq_add_of_le' (Nat.le_trans (Nat.succ_le_succ n.zero_le) le)
    rw [unrolled,unrolled]
    apply next i a b n m start
    intro j a b inv
    exact ih (by omega) (fun strict => by have := same strict; omega) inv

/-- Results that are looked at through a view. -/
theorem collect {p p' : Parser (Option α)} (view : α → β) {I E : Nat → Prop}
    (next : ∀ k, I k → w.Lockstep k p p' fun j r r' =>
      r.map view = r'.map view ∧ r.elim (E j) fun _ => I j)
    {n m : Nat} (le : n ≤ m) (same : w.strict → n = m) (start : I i) :
    w.Lockstep i (Parser.collect n p) (Parser.collect m p') fun j found found' =>
      E j ∧ found.map view = found'.map view := by
  refine loop (I := fun k found found' => I k ∧ found.map view = found'.map view) ?_ le same
    ⟨start, rfl⟩
  rintro k found found' ⟨inv, alike⟩
  apply (next k inv).bind
  rintro j r r' ⟨one, post⟩
  cases r with
  | none =>
    obtain rfl : r' = none := by simpa using one.symm
    exact pure (.inr ⟨post, by simp [alike]⟩)
  | some a =>
    obtain ⟨b, rfl, first⟩ := Option.map_eq_some_iff.mp one.symm
    exact pure (.inl ⟨post, by simp [alike,first]⟩)

theorem descend_bind {f f' : Unit → Parser α} {Q : Nat → α → α → Prop}
    (next : w.Lockstep i (f ()) (f' ()) Q) :
    w.Lockstep i (descend >>= f) (descend >>= f') Q := by
  refine bind (P := fun j _ _ => j = i) ?_ (by rintro j _ _ rfl; exact next)
  intro s t stand
  by_cases full : maxDepth ≤ s.depth
  · have left : descend s = .error ⟨.nestingTooDeep, s.current.span.start.position⟩ s := if_pos full
    have right : descend t = .error ⟨.nestingTooDeep, t.current.span.start.position⟩ t :=
      if_pos (stand.depth ▸ full)
    rw [left,right]
    exact fun _ => ⟨_, _, rfl, rfl⟩
  · have left : descend s = .ok () { s with depth := s.depth + 1 } := if_neg full
    have right : descend t = .ok () { t with depth := t.depth + 1 } :=
      if_neg (stand.depth ▸ full)
    rw [left,right]
    exact ⟨i, (), _, rfl, stand.move rfl rfl rfl rfl (by simp [stand.depth]) stand.noIn, rfl⟩

theorem restoring {p q : Parser α} {r u : State → State} {Q : Nat → α → α → Prop}
    (kept : ∀ j s t, w.Stand j s t → w.Stand j (r s) (u t)) (h : w.Lockstep i p q Q) :
    w.Lockstep i (restoring r p) (restoring u q) Q := by
  intro s t stand
  have step := h s t stand
  cases run : p s with
  | ok a s' =>
    rw [run] at step
    obtain ⟨j, b, t', run', stand', post⟩ := step
    simp only [Parser.restoring,run,run']
    exact ⟨j, b, _, rfl, kept j s' t' stand', post⟩
  | error e s' =>
    rw [run] at step
    simp only [Parser.restoring,run]
    intro strict
    obtain ⟨e', t', run', same⟩ := step strict
    exact ⟨e', _, by rw [run'], same⟩

theorem deeper {p q : Parser α} {Q : Nat → α → α → Prop} (h : w.Lockstep i p q Q) :
    w.Lockstep i (deeper p) (deeper q) Q := by
  apply descend_bind
  refine restoring (fun j s t stand => ?_) h
  exact stand.move rfl rfl rfl rfl (by simp [stand.depth]) stand.noIn

theorem levelled {p q : Parser α} {Q : Nat → α → α → Prop} (h : w.Lockstep i p q Q) :
    w.Lockstep i (levelled p) (levelled q) Q := by
  intro s t stand
  have step := h s t stand
  cases run : p s with
  | ok a s' =>
    rw [run] at step
    obtain ⟨j, b, t', run', stand', post⟩ := step
    simp only [Parser.levelled,run,run']
    exact ⟨j, b, _, rfl, stand'.move rfl rfl rfl rfl stand.depth stand'.noIn, post⟩
  | error e s' =>
    rw [run] at step
    simp only [Parser.levelled,run]
    intro strict
    obtain ⟨e', t', run', same⟩ := step strict
    exact ⟨e', t', by rw [run'], same⟩

theorem withIn {p q : Parser α} {Q : Nat → α → α → Prop} (h : w.Lockstep i p q Q) :
    w.Lockstep i (withIn p) (withIn q) Q := by
  intro s t stand
  refine restoring (r := fun s' => { s' with noIn := s.noIn })
    (u := fun t' => { t' with noIn := t.noIn }) (fun j s' t' stand' => ?_) h
    { s with noIn := false } { t with noIn := false } ?_
  · exact stand'.move rfl rfl rfl rfl stand'.depth stand.noIn
  · exact stand.move rfl rfl rfl rfl stand.depth rfl

theorem withoutIn {p q : Parser α} {Q : Nat → α → α → Prop} (h : w.Lockstep i p q Q) :
    w.Lockstep i (withoutIn p) (withoutIn q) Q := by
  intro s t stand
  refine restoring (r := fun s' => { s' with noIn := false })
    (u := fun t' => { t' with noIn := false }) (fun j s' t' stand' => ?_) h
    { s with noIn := true } { t with noIn := true } ?_
  · exact stand'.move rfl rfl rfl rfl stand'.depth rfl
  · exact stand.move rfl rfl rfl rfl stand.depth rfl

/-- A parser that only looks at the state. -/
theorem observer_bind {p : Parser β} {f f' : β → Parser α} {Q : Nat → α → α → Prop}
    {view : State → β} (observes : ∀ s, p s = .ok (view s) s)
    (next : ∀ s t, w.Stand i s t → w.Lockstep i (f (view s)) (f' (view t)) Q) :
    w.Lockstep i (p >>= f) (p >>= f') Q := by
  intro s t stand
  rw [bind_run (observes s),bind_run (observes t)]
  exact next s t stand s t stand

/-- A parser that needs a token fails where the short stream has ended, so that nothing is asked
of it there. -/
theorem needsToken {p q : Parser α} {Q : Nat → α → α → Prop}
    (fails : Rejects .endOfInput p) (inside : i < w.cut → w.Lockstep i p q Q) : w.Lockstep i p q Q := by
  intro s t stand
  by_cases before : i < w.cut
  · exact inside before s t stand
  · have := stand.le_cut
    obtain ⟨e, s', run⟩ := fails s (stand.endOfInput (by omega))
    rw [run]
    intro strict
    exact absurd (stand.whole strict) before

end Lockstep

end Twins

end Parser

end CodeCompletion
