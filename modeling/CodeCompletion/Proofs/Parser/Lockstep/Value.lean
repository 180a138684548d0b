import CodeCompletion.Proofs.Parser.Lockstep.Function

/-! Values, chains and operators in lockstep. -/
namespace CodeCompletion.Parser

variable {α : Type} {w : Twins} {i : Nat}

open Twins

@[reducible] def Twins.Linked (w : Twins) (i k : Nat) (a b : Expr) : Prop :=
  w.Past i k ∧ a.erase = b.erase

namespace Twins.Lockstep

theorem propertyAccessor (inside : i < w.cut) :
    w.Lockstep i propertyAccessor propertyAccessor fun j kind kind' => j = i ∧ kind' = kind ∧
      (kind.isSome = true → ∃ word, tokenAt w.short i = some (.word word)) := by
  apply peek_bind inside
  intro token here
  simp only [pure_bind]
  split
  · apply peekNext_bind here (by simp)
    intro token _
    split <;> exact pure ⟨rfl, rfl, fun _ => ⟨_, here⟩⟩
  · apply peekNext_bind here (by simp)
    intro token _
    split <;> exact pure ⟨rfl, rfl, fun _ => ⟨_, here⟩⟩
  · -- The next token may lie past the cut, but it is of no account.
    apply observer_bind (fun _ => rfl)
    intro s t _
    split <;> split <;> exact pure ⟨rfl, rfl, nofun⟩

end Twins.Lockstep

namespace Twins.Tracks

variable {g h : Grammar} (tracks : w.Tracks g h)
include tracks

theorem spreadable : w.Reads Expr.erase g.spreadable h.spreadable := by
  intro i inside
  apply Lockstep.peek_bind inside
  intro token here
  apply Lockstep.ite Iff.rfl
  · rintro rfl
    apply Lockstep.advance_bind (d := 0) here rfl (by simp)
    intro start start' inside' turned
    apply (tracks.assignment _ inside').bind
    rintro j a b ⟨past, same⟩
    apply Lockstep.finish_bind
    intro _ _
    exact .pure ⟨by omega, by simp [same]⟩
  · intro _
    exact tracks.assignment i inside

theorem arguments : w.Lockstep i g.arguments h.arguments fun j a b =>
    w.Past i j ∧ a.map Expr.erase = b.map Expr.erase := by
  apply Lockstep.require_bind (d := 1) rfl (by simp)
  intro _ _ inside turned
  apply Lockstep.withIn
  apply (Lockstep.commaList tracks.limit tracks.same rfl (by simp) inside
    (Lockstep.anywhere tracks.spreadable)).mono
  rintro j a b ⟨place, same⟩
  exact ⟨by omega, same⟩

theorem elements (inside : i < w.cut) : w.Lockstep i g.elements h.elements fun j a b =>
    (i < j ∧ j < w.cut ∧ level w.short j = level w.short i - 1) ∧
      a.map (Option.map Expr.erase) = b.map (Option.map Expr.erase) := by
  refine Lockstep.loop (I := fun k found found' =>
    (i ≤ k ∧ k < w.cut ∧ level w.short k = level w.short i) ∧
      found.map (Option.map Expr.erase) = found'.map (Option.map Expr.erase)) ?_ tracks.limit
    tracks.same ⟨by omega, rfl⟩
  rintro k found found' ⟨place, same⟩
  apply Lockstep.accept_ite (d := -1) (by omega) rfl (by simp)
  · intro _ _
    exact .pure (.inr ⟨by omega, by simp [same]⟩)
  intro _
  apply Lockstep.accept_ite (d := 0) (by omega) rfl (by simp)
  · intro _ _
    exact .pure (.inl ⟨by omega, by simp [same]⟩)
  intro _
  apply (tracks.spreadable k (by omega)).bind
  rintro j a b ⟨past, first⟩
  apply Lockstep.accept_ite (d := 0) (by omega) rfl (by simp)
  · intro _ _
    exact .pure (.inl ⟨by omega, by simp [first,same]⟩)
  intro _
  apply Lockstep.require_bind (d := -1) rfl (by simp)
  intro _ _ _ _
  exact .pure (.inr ⟨by omega, by simp [first,same]⟩)

theorem methodValue {start start' : Span} :
    w.Lockstep i (g.methodValue start) (h.methodValue start') fun j a b =>
      w.Past i j ∧ a.erase = b.erase := by
  apply tracks.method.bind
  rintro j f f' ⟨past, same⟩
  exact .pure ⟨past, by simp only [Expr.erase,same]⟩

theorem propertyValue {start start' : Span} {isGenerator : Bool} {first : Token}
    (inside : i < w.cut) :
    w.Lockstep i (g.propertyValue start isGenerator first) (h.propertyValue start' isGenerator first)
      fun j a b => (i ≤ j ∧ j < w.cut ∧ level w.short j = level w.short i) ∧ a.erase = b.erase := by
  apply Lockstep.peek_bind inside
  intro token here
  apply Lockstep.ite Iff.rfl
  · intro _
    exact tracks.methodValue.mono fun j a b ⟨past, same⟩ => ⟨by omega, same⟩
  intro _
  apply Lockstep.ite Iff.rfl (fun _ => .fail)
  intro _
  apply Lockstep.accept_ite (d := 0) inside rfl (by simp)
  · intro inside' turned
    exact (tracks.assignment _ inside').mono fun j a b ⟨past, same⟩ => ⟨by omega, same⟩
  intro _
  apply Lockstep.peek_bind inside
  intro token here
  split
  case h_3 => exact .fail
  all_goals
    apply Lockstep.ite Iff.rfl
    · intro _
      apply Lockstep.peek_bind inside
      intro _ _
      exact .fail
    · intro _
      apply Lockstep.previousSpan_bind
      intro _ _
      exact .pure ⟨by omega, rfl⟩

theorem plainProperty {start start' : Span} (inside : i < w.cut) :
    w.Lockstep i (g.plainProperty start) (h.plainProperty start') fun j a b =>
      w.Past i j ∧ a.erase = b.erase := by
  apply (Lockstep.accept_plain inside rfl (by simp)).bind
  rintro j _ isGenerator ⟨place, rfl⟩
  apply Lockstep.peek_bind (by omega)
  intro first here
  apply (tracks.propertyKey (by omega)).bind
  rintro k key key' ⟨past, same⟩
  apply (tracks.propertyValue (by omega)).bind
  rintro l value value' ⟨place', same'⟩
  apply Lockstep.finish_bind
  intro _ _
  exact .pure ⟨by omega, by simp only [Property.erase,same,same']⟩

theorem property : w.Reads Property.erase g.property h.property := by
  intro i inside
  apply Lockstep.currentSpan_bind
  intro start start'
  apply (Lockstep.propertyAccessor inside).bind
  rintro _ _ kind ⟨rfl, rfl, named⟩
  cases kind with
  | none => exact tracks.plainProperty inside
  | some kind =>
    obtain ⟨word, here⟩ := named rfl
    apply Lockstep.advance_bind (d := 0) here rfl (by simp)
    intro _ _ inside' turned
    apply (tracks.propertyKey inside').bind
    rintro j key key' ⟨past, same⟩
    apply tracks.methodValue.bind
    rintro k value value' ⟨past', same'⟩
    apply Lockstep.finish_bind
    intro _ _
    exact .pure ⟨by omega, by simp only [Property.erase,same,same']⟩

theorem properties (inside : i < w.cut) : w.Lockstep i g.properties h.properties fun j a b =>
    (i < j ∧ j < w.cut ∧ level w.short j = level w.short i - 1) ∧
      a.map Property.erase = b.map Property.erase := by
  apply Lockstep.bind (P := fun j a b =>
    (i < j ∧ j < w.cut ∧ level w.short j = level w.short i - 1) ∧
      a.map (Option.map Property.erase) = b.map (Option.map Property.erase))
  rotate_left
  · rintro j a b ⟨place, same⟩
    refine .pure ⟨place, ?_⟩
    rw [List.map_filterMap,List.map_filterMap]
    have := congrArg (List.filterMap id) same
    simpa [List.filterMap_map] using this
  · apply Lockstep.commaList tracks.limit tracks.same rfl (by simp) inside
    apply Lockstep.anywhere
    intro k inside'
    apply Lockstep.accept_ite (d := 0) inside' rfl (by simp)
    · intro inside'' turned
      apply (tracks.assignment _ inside'').bind
      rintro j _ _ ⟨past, _⟩
      exact .pure ⟨by omega, rfl⟩
    · intro _
      apply Lockstep.map
      apply (tracks.property k inside').mono
      rintro j a b ⟨past, same⟩
      exact ⟨past, by simp [same]⟩

theorem wordValue {word : String} (here : tokenAt w.short i = some (.word word)) :
    w.Lockstep i (g.wordValue word) (h.wordValue word) fun j build build' =>
      w.Past i j ∧ ∀ span span', (build span).erase = (build' span').erase := by
  have inside : i < w.cut := by have := succ_lt_cut here (by simp); omega
  unfold Grammar.wordValue
  split
  case h_6 =>
    apply tracks.function.bind
    rintro j f f' ⟨past, same⟩
    exact .pure ⟨past, fun _ _ => by simp only [Expr.erase,same]⟩
  case h_7 =>
    apply tracks.classDef.bind
    rintro j c c' ⟨past, same⟩
    exact .pure ⟨past, fun _ _ => by simp only [Expr.erase,same]⟩
  case h_8 =>
    apply (Lockstep.ident inside).bind
    rintro _ name name' ⟨rfl, inside', turned, named⟩
    refine .pure ⟨by omega, fun _ _ => ?_⟩
    simp only [Expr.erase,(Ident.mk.inj named).1]
  all_goals
    apply Lockstep.advance_bind (d := 0) here rfl (by simp)
    intro _ _ _ _
    exact .pure ⟨by omega, fun _ _ => rfl⟩

theorem value : w.Reads Expr.erase g.value h.value := by
  intro i inside
  apply Lockstep.currentSpan_bind
  intro start start'
  extract_lets literal literal'
  have literals {token : Token} (here : tokenAt w.short i = some token) (turn : token.turn = 0)
      (inner : token ≠ .endOfInput ∧ token ≠ .semicolon) (value : Literal) :
      w.Lockstep i (literal value) (literal' value) fun j a b =>
        w.Past i j ∧ a.erase = b.erase := by
    apply Lockstep.advance_bind here turn inner
    intro _ _ _ _
    apply Lockstep.finish_bind
    intro _ _
    exact .pure ⟨by omega, rfl⟩
  apply Lockstep.peek_bind inside
  intro token here
  split
  · apply (tracks.wordValue here).bind
    rintro j build build' ⟨past, same⟩
    apply Lockstep.finish_bind
    intro _ _
    exact .pure ⟨past, same _ _⟩
  · exact literals here rfl (by simp) _
  · exact literals here rfl (by simp) _
  · exact literals here rfl (by simp) _
  · exact literals here rfl (by simp) _
  · apply Lockstep.advance_bind (d := 1) here rfl (by simp)
    intro _ _ inside' turned
    apply Lockstep.bind (.withIn (tracks.expression _ inside'))
    rintro j a b ⟨past, same⟩
    apply Lockstep.require_bind (d := -1) rfl (by simp)
    intro _ _ _ _
    exact .pure ⟨by omega, same⟩
  · apply Lockstep.advance_bind (d := 1) here rfl (by simp)
    intro _ _ inside' turned
    apply Lockstep.bind (.withIn (tracks.elements inside'))
    rintro j a b ⟨place, same⟩
    apply Lockstep.finish_bind
    intro _ _
    exact .pure ⟨by omega, by simp [same]⟩
  · apply Lockstep.advance_bind (d := 1) here rfl (by simp)
    intro _ _ inside' turned
    apply Lockstep.bind (.withIn (tracks.properties inside'))
    rintro j a b ⟨place, same⟩
    apply Lockstep.finish_bind
    intro _ _
    exact .pure ⟨by omega, by simp [same]⟩
  · exact .fail

theorem constructorLink {k : Nat} {callee callee' : Expr} (linked : w.Linked i k callee callee') :
    w.Lockstep k (g.constructorLink callee) (h.constructorLink callee') fun j =>
      Sum.LiftRel (w.Linked i j) (w.Linked i j) := by
  obtain ⟨past, same⟩ := linked
  unfold Grammar.constructorLink
  extract_lets link link'
  have links (j : Nat) (property property' : MemberName) (past' : w.Past k j)
      (named : property.erase = property'.erase) :
      w.Lockstep j (link property) (link' property') fun j =>
        Sum.LiftRel (w.Linked i j) (w.Linked i j) := by
    apply Lockstep.previousSpan_bind
    intro _ _
    exact .pure (.inl ⟨by omega, by simp only [Expr.erase,same,named]⟩)
  apply Lockstep.peek_bind (by omega)
  intro token here
  split
  · apply Lockstep.descend_bind
    apply Lockstep.advance_bind (d := 0) here rfl (by simp)
    intro _ _ inside' turned
    apply (Lockstep.propertyName inside').bind
    rintro _ name name' ⟨rfl, inside'', turned', named⟩
    exact links _ _ _ (by omega) (by simp only [MemberName.erase,named])
  · apply Lockstep.descend_bind
    apply tracks.computed.bind
    rintro j a b ⟨past', same'⟩
    exact links j _ _ past' (by simp only [MemberName.erase,same'])
  · exact .pure (.inr ⟨past, same⟩)

theorem constructRule : w.Reads Expr.erase g.constructRule h.constructRule := by
  intro i inside
  apply Lockstep.requireWord_bind
  intro start start' inside' turned
  apply Lockstep.bind (P := fun k a b => w.Linked i k a b)
  · apply Lockstep.levelled
    apply Lockstep.peek_bind inside'
    intro token here
    apply Lockstep.ite_bind (P := fun k a b => w.Linked i k a b)
    · apply Lockstep.ite Iff.rfl
      · intro _
        apply (tracks.construct _ inside').deeper.mono
        rintro j a b ⟨past, same⟩
        exact ⟨by omega, same⟩
      · intro _
        apply (tracks.value _ inside').mono
        rintro j a b ⟨past, same⟩
        exact ⟨by omega, same⟩
    · intro k base base' linked
      exact Lockstep.loop (fun _ _ _ => tracks.constructorLink) tracks.limit tracks.same linked
  · rintro k callee callee' ⟨past, same⟩
    apply Lockstep.peek_bind (by omega)
    intro token here
    apply Lockstep.ite_bind (P := fun j a b =>
      (k ≤ j ∧ j < w.cut ∧ level w.short j = level w.short k) ∧ a.map Expr.erase = b.map Expr.erase)
    · apply Lockstep.ite Iff.rfl
      · intro _
        apply tracks.arguments.mono
        rintro j a b ⟨past', same'⟩
        exact ⟨by omega, same'⟩
      · intro _
        exact .pure ⟨by omega, rfl⟩
    · rintro j arguments arguments' ⟨place, same'⟩
      apply Lockstep.finish_bind
      intro _ _
      exact .pure ⟨by omega, by simp [same,same']⟩

theorem link {base base' : Expr} (inside : i < w.cut) (same : base.erase = base'.erase) :
    w.Lockstep i (g.link base) (h.link base') fun j found found' =>
      (i ≤ j ∧ j < w.cut ∧ level w.short j = level w.short i) ∧
        Option.Rel (fun build build' => ∀ span span', (build span).erase = (build' span').erase)
          found found' := by
  apply Lockstep.peek_bind inside
  intro token here
  split
  · apply Lockstep.descend_bind
    apply Lockstep.advance_bind (d := 0) here rfl (by simp)
    intro _ _ inside' turned
    apply (Lockstep.propertyName inside').bind
    rintro _ name name' ⟨rfl, inside'', turned', named⟩
    exact .pure ⟨by omega, .some fun _ _ => by simp [same,named]⟩
  · apply Lockstep.descend_bind
    apply Lockstep.advance_bind (d := 0) here rfl (by simp)
    intro _ _ inside' turned
    apply Lockstep.peek_bind inside'
    intro token here
    split
    · apply tracks.arguments.bind
      rintro j a b ⟨past, same'⟩
      exact .pure ⟨by omega, .some fun _ _ => by simp [same,same']⟩
    · apply tracks.computed.bind
      rintro j a b ⟨past, same'⟩
      exact .pure ⟨by omega, .some fun _ _ => by simp [same,same']⟩
    · apply (Lockstep.propertyName inside').bind
      rintro _ name name' ⟨rfl, inside'', turned', named⟩
      exact .pure ⟨by omega, .some fun _ _ => by simp [same,named]⟩
  · apply Lockstep.descend_bind
    apply tracks.computed.bind
    rintro j a b ⟨past, same'⟩
    exact .pure ⟨by omega, .some fun _ _ => by simp [same,same']⟩
  · apply Lockstep.descend_bind
    apply tracks.arguments.bind
    rintro j a b ⟨past, same'⟩
    exact .pure ⟨by omega, .some fun _ _ => by simp [same,same']⟩
  · apply Lockstep.descend_bind
    apply Lockstep.advance_bind (d := 0) here rfl (by simp)
    intro _ _ inside' turned
    exact .pure ⟨by omega, .some fun _ _ => by simp [same]⟩
  · exact .pure ⟨by omega, .none⟩

theorem chainRule : w.Reads Expr.erase g.chainRule h.chainRule := by
  intro i inside
  apply Lockstep.currentSpan_bind
  intro start start'
  apply Lockstep.levelled
  apply Lockstep.peek_bind inside
  intro token here
  apply Lockstep.ite_bind (P := fun k a b => w.Linked i k a b)
  · apply Lockstep.ite Iff.rfl
    · intro _
      exact tracks.constructRule i inside
    · intro _
      exact tracks.value i inside
  · intro k base base' linked
    refine Lockstep.loop (fun l base base' linked => ?_) tracks.limit tracks.same linked
    obtain ⟨past, same⟩ := linked
    apply (tracks.link (by omega) same).bind
    rintro j found found' ⟨place, rel⟩
    cases rel with
    | none => exact .pure (.inr ⟨by omega, same⟩)
    | some alike =>
      apply Lockstep.finish_bind
      intro _ _
      exact .pure (.inl ⟨by omega, alike _ _⟩)

end Twins.Tracks

end CodeCompletion.Parser
