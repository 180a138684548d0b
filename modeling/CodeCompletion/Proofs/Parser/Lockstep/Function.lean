import CodeCompletion.Proofs.Parser.Lockstep.Primitives

/-! Functions and classes in lockstep. Each begins and ends before the cut, with as many brackets
open at its end as at its start. -/
namespace CodeCompletion.Parser

variable {α β γ : Type} {w : Twins} {i : Nat}

namespace Twins

/-- Further on before the cut, with no more brackets open. -/
@[reducible] def Past (w : Twins) (i j : Nat) : Prop :=
  i < j ∧ j < w.cut ∧ level w.short j = level w.short i

/-- As `Past`, but for what a semicolon may end. -/
@[reducible] def Through (w : Twins) (i j : Nat) : Prop :=
  i < j ∧ j ≤ w.cut ∧ level w.short j = level w.short i

/-- Wherever the short stream goes on, two parsers read what looks the same. -/
def Reads (w : Twins) (view : α → β) (p q : Parser α) : Prop :=
  ∀ i < w.cut, w.Lockstep i p q fun j a b => w.Past i j ∧ view a = view b

end Twins

structure Twins.Tracks (w : Twins) (g h : Grammar) : Prop where
  limit : g.limit ≤ h.limit
  same : w.strict → g.limit = h.limit
  statement : ∀ i < w.cut, w.Lockstep i g.statement h.statement fun j a b =>
    w.Through i j ∧ a.erase = b.erase
  assignment : w.Reads Expr.erase g.assignment h.assignment
  expression : w.Reads Expr.erase g.expression h.expression
  needsToken : Rejects .endOfInput g.expression
  binary : ∀ level, w.Reads Expr.erase (g.binary level) (h.binary level)
  unary : w.Reads Expr.erase g.unary h.unary
  chain : w.Reads Expr.erase g.chain h.chain
  construct : w.Reads Expr.erase g.construct h.construct

namespace Twins.Lockstep

variable {view : α → β}

theorem optional {p p' : Parser α} {c : Prop} [Decidable c] (inside : i < w.cut)
    (given : c → w.Lockstep i p p' fun j a b => w.Past i j ∧ view a = view b) :
    w.Lockstep i (if c then some <$> p else Pure.pure none) (if c then some <$> p' else Pure.pure none)
      fun j found found' => (i ≤ j ∧ j < w.cut ∧ level w.short j = level w.short i) ∧
        found.map view = found'.map view := by
  apply Lockstep.ite Iff.rfl
  · intro holds
    apply Lockstep.map
    apply (given holds).mono
    rintro j a b ⟨past, alike⟩
    exact ⟨by omega, by simp [alike]⟩
  · intro _
    exact pure ⟨by omega, rfl⟩

/-- What comes after a token, if the token does. -/
theorem accept_optional {token : Token} {p p' : Parser α} {f f' : Option α → Parser γ}
    {Q : Nat → γ → γ → Prop} (inside : i < w.cut) (turn : token.turn = 0)
    (inner : token ≠ .endOfInput ∧ token ≠ .semicolon) (given : w.Reads view p p')
    (next : ∀ j found found', i ≤ j ∧ j < w.cut ∧ level w.short j = level w.short i →
      found.map view = found'.map view → w.Lockstep j (f found) (f' found') Q) :
    w.Lockstep i
      (accept token >>= fun taken =>
        if taken = true then (some <$> p) >>= f else Pure.pure none >>= f)
      (accept token >>= fun taken =>
        if taken = true then (some <$> p') >>= f' else Pure.pure none >>= f') Q := by
  apply accept_ite (d := 0) inside turn inner
  · intro inside' turned
    apply Lockstep.bind (P := fun j found found' => w.Past i j ∧ found.map view = found'.map view)
    · apply Lockstep.map
      apply (given (i + 1) inside').mono
      rintro j a b ⟨past, alike⟩
      exact ⟨by omega, by simp [alike]⟩
    · rintro j found found' ⟨past, alike⟩
      exact next j found found' (by omega) alike
  · intro _
    rw [pure_bind,pure_bind]
    exact next i none none (by omega) rfl

variable {g h : Grammar}

theorem commaList {close : Token} {item item' : Parser (α × Bool)} (le : g.limit ≤ h.limit)
    (same : w.strict → g.limit = h.limit) (turn : close.turn = -1)
    (inner : close ≠ .endOfInput ∧ close ≠ .semicolon) (inside : i < w.cut)
    (items : ∀ k < w.cut, w.Lockstep k item item' fun j r r' =>
      w.Past k j ∧ view r.1 = view r'.1 ∧ r.2 = r'.2) :
    w.Lockstep i (g.commaList close item) (h.commaList close item') fun j found found' =>
      (i < j ∧ j < w.cut ∧ level w.short j = level w.short i - 1) ∧
        found.map view = found'.map view := by
  refine loop (I := fun k found found' =>
    (i ≤ k ∧ k < w.cut ∧ level w.short k = level w.short i) ∧ found.map view = found'.map view)
    ?_ le same ⟨by omega, rfl⟩
  rintro k found found' ⟨place, alike⟩
  apply accept_ite (d := -1) (by omega) turn inner
  · intro _ _
    exact pure (.inr ⟨by omega, by simp [alike]⟩)
  intro _
  apply (items k (by omega)).bind
  rintro j ⟨a, isLast⟩ ⟨b, _⟩ ⟨past, first, rfl⟩
  refine ite_bind (P := fun m on on' =>
    (j ≤ m ∧ m < w.cut ∧ level w.short m = level w.short j) ∧ on' = on) ?_ ?_
  · apply Lockstep.ite Iff.rfl
    · intro _
      exact pure ⟨by omega, rfl⟩
    · intro _
      exact accept_plain (by omega) rfl (by simp)
  rintro m goesOn _ ⟨place', rfl⟩
  apply Lockstep.ite Iff.rfl
  · intro _
    exact pure (.inl ⟨by omega, by simp_all⟩)
  intro _
  apply require_bind turn inner
  intro _ _ _ _
  exact pure (.inr ⟨by omega, by simp_all⟩)

theorem anywhere {p p' : Parser α} (reads : w.Reads view p p') (k : Nat) (inside : k < w.cut) :
    w.Lockstep k (anywhere p) (anywhere p') fun j r r' =>
      w.Past k j ∧ view r.1 = view r'.1 ∧ r.2 = r'.2 := by
  apply (reads k inside).bind
  rintro j a b ⟨past, alike⟩
  exact pure ⟨past, alike, rfl⟩

theorem optionalName {isDeclaration : Bool} {missing : SyntaxError.Reason} (inside : i < w.cut) :
    w.Lockstep i (optionalName isDeclaration missing) (optionalName isDeclaration missing)
      fun j a b => (i ≤ j ∧ j < w.cut ∧ level w.short j = level w.short i) ∧
        a.map Ident.erase = b.map Ident.erase := by
  apply peek_bind inside
  intro token here
  have nameless : w.Lockstep i (if isDeclaration = true then Parser.fail missing else Pure.pure none)
      (if isDeclaration = true then Parser.fail missing else Pure.pure none)
      fun j (a b : Option Ident) => (i ≤ j ∧ j < w.cut ∧ level w.short j = level w.short i) ∧
        a.map Ident.erase = b.map Ident.erase := by
    apply Lockstep.ite Iff.rfl (fun _ => fail)
    intro _
    exact pure ⟨by omega, rfl⟩
  split
  · apply Lockstep.ite Iff.rfl
    · intro _
      apply (ident inside).bind
      rintro j a b ⟨rfl, inside', turned, alike⟩
      exact pure ⟨by omega, by simp [alike]⟩
    · intro _
      exact nameless
  · exact nameless

theorem modifies {word : String} {f f' : Bool → Parser α} {Q : Nat → α → α → Prop}
    (inside : i < w.cut)
    (next : ∀ found, (found = true → tokenAt w.short i = some (.word word)) →
      w.Lockstep i (f found) (f' found) Q) :
    w.Lockstep i (modifies word >>= f) (modifies word >>= f') Q := by
  refine Lockstep.bind (P := fun j found found' => j = i ∧ found' = found ∧
    (found = true → tokenAt w.short i = some (.word word))) ?_ ?_
  · apply peek_bind inside
    intro token here
    apply Lockstep.ite Iff.rfl
    · rintro rfl
      apply peekNext_bind here (by simp)
      intro token _
      split <;> exact pure ⟨rfl, rfl, fun _ => here⟩
    · intro _
      exact pure ⟨rfl, rfl, nofun⟩
  · rintro _ _ found ⟨rfl, rfl, here⟩
    exact next found here

theorem accessor (inside : i < w.cut) : w.Lockstep i accessor accessor fun j which which' =>
    (i ≤ j ∧ j < w.cut ∧ level w.short j = level w.short i) ∧ which' = which := by
  apply modifies inside
  intro found here
  apply Lockstep.ite Iff.rfl
  · intro isGetter
    apply advance_bind (d := 0) (here isGetter) rfl (by simp)
    intro _ _ _ _
    exact pure ⟨by omega, rfl⟩
  intro _
  apply modifies inside
  intro found here
  apply Lockstep.ite Iff.rfl
  · intro isSetter
    apply advance_bind (d := 0) (here isSetter) rfl (by simp)
    intro _ _ _ _
    exact pure ⟨by omega, rfl⟩
  · intro _
    exact pure ⟨by omega, rfl⟩

end Twins.Lockstep

theorem memberKind_erase (key : PropertyKey) (isStatic : Bool) (which : Option Accessor)
    (f : Function) :
    (memberKind key isStatic which f).erase = memberKind key.erase isStatic which f.erase := by
  unfold memberKind
  split
  · rfl
  · rfl
  · cases key with
    | ident name =>
      simp only [PropertyKey.erase]
      split
      · split <;> rfl
      · split <;> rfl
      · rfl
    | str value =>
      simp only [PropertyKey.erase]
      split
      · split <;> rfl
      · split <;> rfl
      · rfl
    | num value => rfl
    | computed value => rfl

open Twins

namespace Twins.Tracks

variable {g h : Grammar} (tracks : w.Tracks g h)
include tracks

theorem computed : w.Lockstep i g.computed h.computed fun j a b =>
    w.Past i j ∧ a.erase = b.erase := by
  apply Lockstep.require_bind (d := 1) rfl (by simp)
  intro _ _ inside turned
  apply Lockstep.bind (.withIn (tracks.expression _ inside))
  rintro j a b ⟨past, alike⟩
  apply Lockstep.require_bind (d := -1) rfl (by simp)
  intro _ _ _ _
  exact .pure ⟨by omega, alike⟩

theorem block : w.Lockstep i g.block h.block fun j a b => w.Past i j ∧ a.erase = b.erase := by
  apply Lockstep.require_bind (d := 1) rfl (by simp)
  intro start start' inside turned
  apply Lockstep.bind (Lockstep.collect Stmt.erase
    (I := fun k => i < k ∧ k ≤ w.cut ∧ level w.short k = level w.short i + 1)
    (E := fun k => i < k ∧ level w.short k = level w.short i + 1 ∧
      tokenAt w.short k = some .rightBrace) ?_ tracks.limit tracks.same (by omega))
  · rintro j body body' ⟨⟨_, _, here⟩, alike⟩
    apply Lockstep.advance_bind (d := -1) here rfl (by simp)
    intro _ _ _ _
    apply Lockstep.finish_bind
    intro _ _
    exact .pure ⟨by omega, by simp [alike]⟩
  · intro k place
    apply Lockstep.needsToken
    · exact Rejects.peek_bind .fail
    · intro inside'
      apply Lockstep.peek_bind inside'
      intro token here
      split
      · exact .pure ⟨rfl, by simp only [Option.elim]; exact ⟨by omega, by omega, here⟩⟩
      · exact .fail
      · apply (tracks.statement k inside').bind
        rintro j a b ⟨through, alike⟩
        exact .pure ⟨by simp [alike], by simp only [Option.elim]; omega⟩

theorem param (inside : i < w.cut) : w.Lockstep i g.param h.param fun j r r' =>
    w.Past i j ∧ r.1.erase = r'.1.erase ∧ r.2 = r'.2 := by
  apply (Lockstep.accept_plain inside rfl (by simp)).bind
  rintro j isRest _ ⟨place, rfl⟩
  apply (Lockstep.ident (by omega)).bind
  rintro _ name name' ⟨rfl, inside', turned, named⟩
  refine Lockstep.ite_bind (P := fun m on on' =>
    (j + 1 ≤ m ∧ m < w.cut ∧ level w.short m = level w.short (j + 1)) ∧ on' = on) ?_ ?_
  · apply Lockstep.ite Iff.rfl
    · intro _
      exact .pure ⟨by omega, rfl⟩
    · intro _
      exact Lockstep.accept_plain (by omega) rfl (by simp)
  rintro m hasDefault _ ⟨place', rfl⟩
  apply Lockstep.ite_bind (Lockstep.optional (by omega) fun _ => tracks.assignment m (by omega))
  rintro l fallback fallback' ⟨place'', alike⟩
  exact .pure ⟨by omega, by simp [named,alike], rfl⟩

theorem params : w.Lockstep i g.params h.params fun j a b =>
    w.Past i j ∧ a.map Param.erase = b.map Param.erase := by
  apply Lockstep.require_bind (d := 1) rfl (by simp)
  intro _ _ inside turned
  apply Lockstep.withIn
  apply (Lockstep.commaList tracks.limit tracks.same rfl (by simp) inside
    fun k inside' => tracks.param inside').mono
  rintro j a b ⟨place, alike⟩
  exact ⟨by omega, alike⟩

theorem functionBlock : w.Lockstep i g.functionBlock h.functionBlock fun j a b =>
    w.Past i j ∧ a.erase = b.erase := .withIn tracks.block

theorem method {start start' : Span} : w.Lockstep i (g.method start) (h.method start')
    fun j a b => w.Past i j ∧ a.erase = b.erase := by
  apply tracks.params.bind
  rintro j params params' ⟨past, same⟩
  apply tracks.functionBlock.bind
  rintro k body body' ⟨past', same'⟩
  apply Lockstep.finish_bind
  intro _ _
  exact .pure ⟨by omega, by simp [same,same']⟩

theorem function {isDeclaration : Bool} :
    w.Lockstep i (g.function isDeclaration) (h.function isDeclaration)
      fun j a b => w.Past i j ∧ a.erase = b.erase := by
  apply Lockstep.requireWord_bind
  intro start start' inside turned
  apply (Lockstep.accept_plain inside rfl (by simp)).bind
  rintro j _ _ ⟨place, rfl⟩
  apply (Lockstep.optionalName (by omega)).bind
  rintro k name name' ⟨place', named⟩
  apply tracks.params.bind
  rintro l params params' ⟨past, same⟩
  apply tracks.functionBlock.bind
  rintro m body body' ⟨past', same'⟩
  apply Lockstep.finish_bind
  intro _ _
  exact .pure ⟨by omega, by simp [named,same,same']⟩

theorem arrow (inside : i < w.cut) : w.Lockstep i g.arrow h.arrow fun j a b =>
    w.Past i j ∧ a.erase = b.erase := by
  apply Lockstep.currentSpan_bind
  intro start start'
  apply Lockstep.peek_bind inside
  intro got here
  extract_lets rest rest'
  -- Both forms of parameters go on in the same way.
  have goesOn : ∀ j ps ps', w.Past i j ∧ ps.map Param.erase = ps'.map Param.erase →
      w.Lockstep j (rest ps) (rest' ps') fun j a b => w.Past i j ∧ a.erase = b.erase := by
    rintro j ps ps' ⟨past, same⟩
    apply Lockstep.newlineBefore_bind (by omega) (by omega)
    intro newline
    apply Lockstep.ite Iff.rfl (fun _ => .fail_bind)
    intro _
    apply Lockstep.require_bind (d := 0) rfl (by simp)
    intro _ _ inside' turned
    apply Lockstep.peek_bind inside'
    intro got here
    apply Lockstep.ite_bind (P := fun k a b => w.Past (j + 1) k ∧ a.erase = b.erase)
    · apply Lockstep.ite Iff.rfl
      · intro _
        apply Lockstep.map
        exact tracks.functionBlock.mono fun k a b ⟨past, same⟩ => ⟨past, by simp only [FunctionBody.erase,same]⟩
      · intro _
        apply Lockstep.map
        exact (tracks.assignment _ inside').mono fun k a b ⟨past, same⟩ => ⟨past, by simp only [FunctionBody.erase,same]⟩
    · rintro k body body' ⟨past', same'⟩
      apply Lockstep.finish_bind
      intro _ _
      exact .pure ⟨by omega, by simp [same,same']⟩
  apply Lockstep.ite Iff.rfl
  · intro _
    exact tracks.params.bind goesOn
  · intro _
    apply (Lockstep.ident inside).bind
    rintro _ name name' ⟨rfl, inside', turned, named⟩
    exact goesOn _ _ _ ⟨by omega, by simp [named]⟩

theorem propertyKey (inside : i < w.cut) : w.Lockstep i g.propertyKey h.propertyKey fun j a b =>
    w.Past i j ∧ a.erase = b.erase := by
  apply Lockstep.peek_bind inside
  intro token here
  split
  case h_4 =>
    apply Lockstep.map
    exact tracks.computed.mono fun k a b ⟨past, same⟩ => ⟨past, by simp only [PropertyKey.erase,same]⟩
  case h_5 => exact .fail
  all_goals
    apply Lockstep.advance_bind (d := 0) here rfl (by simp)
    intro _ _ _ _
    exact .pure ⟨by omega, rfl⟩

theorem classMember (inside : i < w.cut) : w.Lockstep i g.classMember h.classMember fun j a b =>
    w.Through i j ∧ a.erase = b.erase := by
  apply Lockstep.currentSpan_bind
  intro start start'
  apply Lockstep.modifies inside
  intro isStatic modified
  extract_lets rest rest'
  have goesOn : ∀ j, i ≤ j ∧ j < w.cut ∧ level w.short j = level w.short i →
      w.Lockstep j (rest ()) (rest' ()) fun j a b => w.Through i j ∧ a.erase = b.erase := by
    intro j start
    apply (Lockstep.accessor (by omega)).bind
    rintro k _ which ⟨after, rfl⟩
    apply (Lockstep.accept_plain (by omega) rfl (by simp)).bind
    rintro l _ isGenerator ⟨starred, rfl⟩
    apply (tracks.propertyKey (by omega)).bind
    rintro m key key' ⟨past, same⟩
    apply Lockstep.peek_bind (by omega)
    intro got here
    extract_lets close _ _ close' _ _
    have closes : ∀ n kind kind', w.Through i n ∧ kind.erase = kind'.erase →
        w.Lockstep n (close kind) (close' kind') fun j a b => w.Through i j ∧ a.erase = b.erase := by
      rintro n kind kind' ⟨through, same'⟩
      apply Lockstep.finish_bind
      intro _ _
      exact .pure ⟨through, by simp only [ClassMember.erase,same,same']⟩
    apply Lockstep.ite Iff.rfl
    · intro _
      refine Lockstep.bind (P := fun n kind kind' => w.Through i n ∧ kind.erase = kind'.erase)
        ?_ closes
      apply Lockstep.map
      apply Lockstep.withIn
      apply tracks.method.mono
      rintro n f f' ⟨past', same'⟩
      exact ⟨by omega, by simp only [memberKind_erase,same,same']⟩
    · intro _
      apply Lockstep.ite Iff.rfl
      · intro _
        apply Lockstep.peek_bind (by omega)
        intro _ _
        exact .fail_bind
      · intro _
        have init : w.Reads Expr.erase (withIn g.assignment) (withIn h.assignment) :=
          fun k inside' => .withIn (tracks.assignment k inside')
        apply Lockstep.accept_optional (by omega) rfl (by simp) init
        · intro n init init' given same'
          apply (Lockstep.semicolon (by omega) (by omega)).bind
          intro k _ _ ended
          exact closes k _ _ ⟨by omega, by simp [same']⟩
  apply Lockstep.ite Iff.rfl
  · intro isModified
    apply Lockstep.advance_bind (d := 0) (modified isModified) rfl (by simp)
    intro _ _ _ _
    exact goesOn (i + 1) (by omega)
  · intro _
    exact goesOn i (by omega)

theorem classBody (inside : i < w.cut) : w.Lockstep i g.classBody h.classBody fun j a b =>
    (i < j ∧ j < w.cut ∧ level w.short j = level w.short i - 1) ∧
      a.map ClassMember.erase = b.map ClassMember.erase := by
  refine Lockstep.loop (I := fun k found found' =>
    (i ≤ k ∧ k ≤ w.cut ∧ level w.short k = level w.short i) ∧
      found.map ClassMember.erase = found'.map ClassMember.erase) ?_ tracks.limit tracks.same
    ⟨by omega, rfl⟩
  rintro k found found' ⟨place, same⟩
  apply Lockstep.needsToken
  · apply Rejects.accept_bind (by simp)
    apply Rejects.accept_bind (by simp)
    exact Rejects.peek_bind (.bind .fail)
  intro inside'
  apply Lockstep.accept_ite (d := -1) inside' rfl (by simp)
  · intro _ _
    exact .pure (.inr ⟨by omega, by simp [same]⟩)
  intro _
  apply Lockstep.acceptSemicolon_bind inside'
  · intro _ _
    exact .pure (.inl ⟨by omega, same⟩)
  intro _
  apply Lockstep.peek_bind inside'
  intro got here
  apply Lockstep.ite Iff.rfl (fun _ => .fail_bind)
  intro _
  apply (tracks.classMember inside').bind
  rintro j a b ⟨through, first⟩
  exact .pure (.inl ⟨by omega, by simp only [List.map_cons,first,same]⟩)

theorem classDef {isDeclaration : Bool} :
    w.Lockstep i (g.class isDeclaration) (h.class isDeclaration)
      fun j a b => w.Past i j ∧ a.erase = b.erase := by
  apply Lockstep.requireWord_bind
  intro start start' inside turned
  apply (Lockstep.optionalName inside).bind
  rintro j name name' ⟨place, named⟩
  apply Lockstep.accept_optional (by omega) rfl (by simp) tracks.chain
  intro k parent parent' place' same
  apply Lockstep.require_bind (d := 1) rfl (by simp)
  intro bodyStart bodyStart' inside' turned'
  apply (tracks.classBody inside').bind
  rintro l members members' ⟨closed, same'⟩
  apply Lockstep.finish_bind
  intro _ _
  apply Lockstep.finish_bind
  intro _ _
  exact .pure ⟨by omega, by simp [named,same,same']⟩

end Twins.Tracks

end CodeCompletion.Parser
