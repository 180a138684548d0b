import CodeCompletion.Proofs.Parser.Lockstep.Twins
import CodeCompletion.Proofs.Program.Erasure

/-! The parsers that look at lexemes themselves, in lockstep. A token that is consumed leads to a
place before the cut unless it is the semicolon in front of it. -/
namespace CodeCompletion.Parser.Twins

variable {α : Type} {w : Twins} {i : Nat} {token : Token}

theorem succ_le_cut (here : tokenAt w.short i = some token) (goesOn : token ≠ .endOfInput) :
    i + 1 ≤ w.cut := by
  have notLast : i + 1 ≠ w.short.length := by
    intro last
    rw [w.ended i last] at here
    exact goesOn (Option.some.inj here).symm
  have : i < w.short.length := by
    obtain ⟨_, found, _⟩ := Option.map_eq_some_iff.mp here
    exact (List.getElem?_eq_some_iff.mp found).1
  have := w.ends
  omega

/-- What stands before the cut. -/
theorem last_token (last : i + 1 = w.cut) :
    w.short.length = w.cut ∧ tokenAt w.short i = some .endOfInput ∨
      w.short.length = w.cut + 1 ∧ tokenAt w.short i = some .semicolon := by
  obtain ⟨whole, _⟩ | ⟨cut, _⟩ := w.ends
  · exact .inl ⟨whole, w.ended i (by omega)⟩
  · exact .inr ⟨cut, w.before cut i last⟩

theorem succ_lt_cut (here : tokenAt w.short i = some token)
    (inner : token ≠ .endOfInput ∧ token ≠ .semicolon) : i + 1 < w.cut := by
  have le := succ_le_cut here inner.1
  by_contra past
  obtain ⟨_, last⟩ | ⟨_, last⟩ := last_token (w := w) (i := i) (by omega)
  · exact inner.1 (Option.some.inj (here.symm.trans last))
  · exact inner.2 (Option.some.inj (here.symm.trans last))

namespace Stand

variable {s t : State}

theorem next (stand : w.Stand i s t) (goesOn : s.current.token ≠ .endOfInput) :
    ∃ l rest l' rest', s.upcoming = l :: rest ∧ t.upcoming = l' :: rest' ∧
      ∀ {s' t' : State}, s'.current = l → s'.upcoming = rest → t'.current = l' →
        t'.upcoming = rest' → t'.depth = s'.depth → t'.noIn = s'.noIn → w.Stand (i + 1) s' t' := by
  obtain ⟨l, rest, l', rest', left, right⟩ := stand.upcoming goesOn
  refine ⟨l, rest, l', rest', left, right, fun current upcoming current' upcoming' depth noIn =>
    ⟨?_, ?_, depth, noIn⟩⟩
  · rw [current,upcoming,← List.tail_drop,stand.left,left,List.tail_cons]
  · rw [current',upcoming',← List.tail_drop,stand.right,right,List.tail_cons]

theorem nextToken (stand : w.Stand i s t)
    (inner : s.current.token ≠ .endOfInput ∧ s.current.token ≠ .semicolon) :
    (t.upcoming.head?.getD t.current).token = (s.upcoming.head?.getD s.current).token ∧
      tokenAt w.short (i + 1) = some (s.upcoming.head?.getD s.current).token := by
  obtain ⟨l, rest, l', rest', left, right, moved⟩ := stand.next inner.1
  have stand' : w.Stand (i + 1) { s with current := l, upcoming := rest }
      { t with current := l', upcoming := rest' } :=
    moved rfl rfl rfl rfl stand.depth stand.noIn
  simp only [left,right,List.head?_cons,Option.getD_some]
  exact ⟨stand'.token (succ_lt_cut stand.here inner), stand'.here⟩

end Stand

namespace Lockstep

variable {Q : Nat → α → α → Prop} {d : Int}

theorem advance (here : tokenAt w.short i = some token) (goesOn : token ≠ .endOfInput) :
    w.Lockstep i advance advance fun j _ _ => j = i + 1 := by
  intro s t stand
  obtain rfl : s.current.token = token := Option.some.inj (stand.here.symm.trans here)
  obtain ⟨l, rest, l', rest', left, right, moved⟩ := stand.next goesOn
  simp only [Parser.advance,left,right]
  exact ⟨i + 1, _, _, rfl, moved rfl rfl rfl rfl stand.depth stand.noIn, rfl⟩

theorem advance_bind {f f' : Span → Parser α} (here : tokenAt w.short i = some token)
    (turn : token.turn = d) (inner : token ≠ .endOfInput ∧ token ≠ .semicolon)
    (next : ∀ a b, i + 1 < w.cut → level w.short (i + 1) = level w.short i + d →
      w.Lockstep (i + 1) (f a) (f' b) Q) :
    w.Lockstep i (Parser.advance >>= f) (Parser.advance >>= f') Q := by
  apply (advance here inner.1).bind
  rintro _ a b rfl
  exact next a b (succ_lt_cut here inner) (turn ▸ level_succ here)

theorem peek_bind {f f' : Token → Parser α} (inside : i < w.cut)
    (next : ∀ token, tokenAt w.short i = some token → w.Lockstep i (f token) (f' token) Q) :
    w.Lockstep i (peek >>= f) (peek >>= f') Q := by
  apply observer_bind (fun _ => rfl)
  intro s t stand
  rw [stand.token inside]
  exact next _ stand.here

theorem peekNext_bind {f f' : Token → Parser α} (here : tokenAt w.short i = some token)
    (inner : token ≠ .endOfInput ∧ token ≠ .semicolon)
    (next : ∀ token, tokenAt w.short (i + 1) = some token →
      w.Lockstep i (f token) (f' token) Q) :
    w.Lockstep i (peekNext >>= f) (peekNext >>= f') Q := by
  apply observer_bind (fun _ => rfl)
  intro s t stand
  obtain rfl : s.current.token = token := Option.some.inj (stand.here.symm.trans here)
  obtain ⟨same, there⟩ := stand.nextToken inner
  rw [same]
  exact next _ there

theorem newlineBefore_bind {f f' : Bool → Parser α} (consumed : 0 < i) (inside : i < w.cut)
    (next : ∀ newline, w.Lockstep i (f newline) (f' newline) Q) :
    w.Lockstep i (newlineBefore >>= f) (newlineBefore >>= f') Q := by
  apply observer_bind (fun _ => rfl)
  intro s t stand
  rw [stand.newline consumed inside]
  exact next _

theorem currentSpan_bind {f f' : Span → Parser α}
    (next : ∀ a b, w.Lockstep i (f a) (f' b) Q) :
    w.Lockstep i (currentSpan >>= f) (currentSpan >>= f') Q :=
  observer_bind (fun _ => rfl) fun _ _ _ => next _ _

theorem previousSpan_bind {f f' : Span → Parser α}
    (next : ∀ a b, w.Lockstep i (f a) (f' b) Q) :
    w.Lockstep i (previousSpan >>= f) (previousSpan >>= f') Q :=
  observer_bind (fun _ => rfl) fun _ _ _ => next _ _

theorem finish_bind {start start' : Span} {f f' : Span → Parser α}
    (next : ∀ a b, w.Lockstep i (f a) (f' b) Q) :
    w.Lockstep i (finish start >>= f) (finish start' >>= f') Q := by
  rw [finish,finish,bind_assoc,bind_assoc]
  exact previousSpan_bind fun _ _ => next _ _

theorem accept_bind {f f' : Bool → Parser α} (inside : i < w.cut) (turn : token.turn = d)
    (inner : token ≠ .endOfInput ∧ token ≠ .semicolon)
    (yes : tokenAt w.short i = some token → i + 1 < w.cut →
      level w.short (i + 1) = level w.short i + d → w.Lockstep (i + 1) (f true) (f' true) Q)
    (no : tokenAt w.short i ≠ some token → w.Lockstep i (f false) (f' false) Q) :
    w.Lockstep i (accept token >>= f) (accept token >>= f') Q := by
  rw [accept,bind_assoc,bind_assoc]
  apply peek_bind inside
  intro got here
  by_cases same : got = token
  · subst same
    simp only [if_true,bind_assoc,pure_bind]
    exact advance_bind here turn inner fun _ _ inside' turned => yes here inside' turned
  · simp only [same,if_false,pure_bind]
    exact no fun there => same (Option.some.inj (here.symm.trans there))

theorem accept_ite {p p' q q' : Parser α} (inside : i < w.cut) (turn : token.turn = d)
    (inner : token ≠ .endOfInput ∧ token ≠ .semicolon)
    (yes : i + 1 < w.cut → level w.short (i + 1) = level w.short i + d →
      w.Lockstep (i + 1) p p' Q)
    (no : tokenAt w.short i ≠ some token → w.Lockstep i q q' Q) :
    w.Lockstep i (accept token >>= fun taken => if taken = true then p else q)
      (accept token >>= fun taken => if taken = true then p' else q') Q :=
  accept_bind inside turn inner (fun _ => yes) no

/-- A token that is no bracket. -/
theorem accept_plain (inside : i < w.cut) (turn : token.turn = 0)
    (inner : token ≠ .endOfInput ∧ token ≠ .semicolon) :
    w.Lockstep i (accept token) (accept token) fun j taken taken' =>
      (i ≤ j ∧ j < w.cut ∧ level w.short j = level w.short i) ∧ taken' = taken := by
  rw [← bind_pure (accept token)]
  apply accept_bind (d := 0) inside turn inner
  · intro _ inside' turned
    exact pure ⟨by omega, rfl⟩
  · intro _
    exact pure ⟨by omega, rfl⟩

/-- A token that has to be next. -/
theorem demand {reason : Token → SyntaxError.Reason} (goesOn : token ≠ .endOfInput) :
    w.Lockstep i (peek >>= fun got => if got = token then Parser.advance else Parser.fail (reason got))
      (peek >>= fun got => if got = token then Parser.advance else Parser.fail (reason got))
      fun j _ _ => j = i + 1 ∧ tokenAt w.short i = some token := by
  apply needsToken
  · apply Rejects.peek_bind
    rw [if_neg goesOn.symm]
    exact .fail
  · intro inside
    apply peek_bind inside
    intro got here
    apply Lockstep.ite Iff.rfl
    · rintro rfl
      exact (advance here goesOn).mono fun j _ _ next => ⟨next, here⟩
    · intro _
      exact fail

section Inner

variable (turn : token.turn = d) (inner : token ≠ .endOfInput ∧ token ≠ .semicolon)
include turn inner

theorem require_bind {f f' : Span → Parser α}
    (next : ∀ a b, i + 1 < w.cut → level w.short (i + 1) = level w.short i + d →
      w.Lockstep (i + 1) (f a) (f' b) Q) :
    w.Lockstep i (require token >>= f) (require token >>= f') Q := by
  apply (demand inner.1).bind
  rintro _ a b ⟨rfl, here⟩
  exact next a b (succ_lt_cut here inner) (turn ▸ level_succ here)

end Inner

theorem requireWord_bind {word : String} {f f' : Span → Parser α}
    (next : ∀ a b, i + 1 < w.cut → level w.short (i + 1) = level w.short i →
      w.Lockstep (i + 1) (f a) (f' b) Q) :
    w.Lockstep i (requireWord word >>= f) (requireWord word >>= f') Q := by
  apply (demand (by simp : Token.word word ≠ .endOfInput)).bind
  rintro _ a b ⟨rfl, here⟩
  exact next a b (succ_lt_cut here (by simp)) (by simpa [Token.turn] using level_succ here)

/-- A semicolon that has to be there may be the one before the cut. -/
theorem requireSemicolon_bind {f f' : Span → Parser α}
    (next : ∀ a b, i + 1 ≤ w.cut → level w.short (i + 1) = level w.short i →
      w.Lockstep (i + 1) (f a) (f' b) Q) :
    w.Lockstep i (require .semicolon >>= f) (require .semicolon >>= f') Q := by
  apply (demand (by simp : Token.semicolon ≠ .endOfInput)).bind
  rintro _ a b ⟨rfl, here⟩
  exact next a b (succ_le_cut here (by simp)) (by simpa [Token.turn] using level_succ here)

theorem acceptSemicolon_bind {f f' : Bool → Parser α} (inside : i < w.cut)
    (yes : i + 1 ≤ w.cut → level w.short (i + 1) = level w.short i →
      w.Lockstep (i + 1) (f true) (f' true) Q)
    (no : tokenAt w.short i ≠ some .semicolon → w.Lockstep i (f false) (f' false) Q) :
    w.Lockstep i (accept .semicolon >>= f) (accept .semicolon >>= f') Q := by
  rw [accept,bind_assoc,bind_assoc]
  apply peek_bind inside
  intro got here
  by_cases same : got = .semicolon
  · subst same
    simp only [if_true,bind_assoc,pure_bind]
    apply (advance here (by simp)).bind
    rintro _ _ _ rfl
    exact yes (succ_le_cut here (by simp)) (by simpa [Token.turn] using level_succ here)
  · simp only [same,if_false,pure_bind]
    exact no fun there => same (Option.some.inj (here.symm.trans there))

theorem accept_other {s : State} (other : s.current.token ≠ token) :
    accept token s = .ok false s :=
  (bind_run (p := peek) rfl).trans (by rw [if_neg other]; rfl)

/-- No `else` comes after the cut, and none where the short stream ends. -/
theorem acceptElse_ite {p p' q q' : Parser α}
    (yes : i + 1 < w.cut → level w.short (i + 1) = level w.short i → w.Lockstep (i + 1) p p' Q)
    (no : w.Lockstep i q q' Q) :
    w.Lockstep i (accept (.word "else") >>= fun taken => if taken = true then p else q)
      (accept (.word "else") >>= fun taken => if taken = true then p' else q') Q := by
  by_cases inside : i < w.cut
  · apply accept_ite (d := 0) inside rfl (by simp)
    · intro inside' turned
      exact yes inside' (by omega)
    · intro _
      exact no
  · intro s t stand
    have border : i = w.cut := by have := stand.le_cut; omega
    have cut : w.short.length = w.cut + 1 := by
      have := stand.lt_length
      have := w.ends
      omega
    have left : s.current.token ≠ .word "else" := by simp [stand.endOfInput border]
    have right : t.current.token ≠ .word "else" := by
      intro other
      exact w.after cut (border ▸ other ▸ stand.there)
    rw [bind_run (accept_other left),bind_run (accept_other right)]
    exact no s t stand

theorem ident (inside : i < w.cut) : w.Lockstep i ident ident fun j a b =>
    j = i + 1 ∧ i + 1 < w.cut ∧ level w.short (i + 1) = level w.short i ∧ a.erase = b.erase := by
  apply peek_bind inside
  intro token here
  split
  · apply Lockstep.ite Iff.rfl
    · intro _
      exact fail
    · intro _
      apply advance_bind (d := 0) here rfl (by simp)
      intro _ _ inside' turned
      exact pure ⟨rfl, inside', by omega, rfl⟩
  · exact fail

theorem propertyName (inside : i < w.cut) : w.Lockstep i propertyName propertyName fun j a b =>
    j = i + 1 ∧ i + 1 < w.cut ∧ level w.short (i + 1) = level w.short i ∧ a.erase = b.erase := by
  apply peek_bind inside
  intro token here
  split
  · apply advance_bind (d := 0) here rfl (by simp)
    intro _ _ inside' turned
    exact pure ⟨rfl, inside', by omega, rfl⟩
  · exact fail

/-- The end of a statement that is not empty. -/
theorem semicolon (consumed : 0 < i) (inside : i < w.cut) : w.Lockstep i semicolon semicolon
    fun j _ _ => i ≤ j ∧ j ≤ w.cut ∧ level w.short j = level w.short i := by
  apply acceptSemicolon_bind inside
  · intro le turned
    exact pure ⟨by omega, le, turned⟩
  · intro _
    apply peek_bind inside
    intro got here
    apply newlineBefore_bind consumed inside
    intro newline
    apply Lockstep.ite Iff.rfl
    · intro _
      exact pure ⟨by omega, by omega, rfl⟩
    · intro _
      exact fail

end Lockstep

section Arrows

/-- Whether an arrow comes after the closing bracket is the same for two lists that agree up to
some token, unless the bracket is not closed up to there. -/
theorem arrowAfterBrackets_agree {n depth : Nat} (xs ys : List Lexeme) (opened : 0 < depth)
    (le : n ≤ xs.length) (le' : n ≤ ys.length) (agree : ∀ k < n, tokenAt ys k = tokenAt xs k)
    (last : ∀ k, k + 1 = n → ∀ token, tokenAt xs k = some token → 0 ≤ token.turn) :
    arrowAfterBrackets depth ys = arrowAfterBrackets depth xs ∨
      (∀ k < n, tokenAt xs k ≠ some .endOfInput) ∧ ∀ k ≤ n, 0 < depth + level xs k := by
  induction n generalizing depth xs ys with
  | zero =>
    right
    refine ⟨by simp, fun k le => ?_⟩
    obtain rfl : k = 0 := by omega
    rw [level_zero]
    omega
  | succ n ih =>
    obtain ⟨x, xs, rfl⟩ := List.exists_cons_of_length_pos (by omega : 0 < xs.length)
    obtain ⟨y, ys, rfl⟩ := List.exists_cons_of_length_pos (by omega : 0 < ys.length)
    have same : y.token = x.token := Option.some.inj (agree 0 (by omega))
    have rest (depth' : Nat) (opened' : 0 < depth') := ih xs ys opened'
      (by simpa using le) (by simpa using le') (fun k lt => agree (k + 1) (by omega))
      (fun k eq => last (k + 1) (by omega))
    have later {depth' : Nat} (notEnd : x.token ≠ .endOfInput)
        (turned : (depth' : Int) = depth + x.token.turn)
        (h : (∀ k < n, tokenAt xs k ≠ some .endOfInput) ∧ ∀ k ≤ n, 0 < depth' + level xs k) :
        (∀ k < n + 1, tokenAt (x :: xs) k ≠ some .endOfInput) ∧
          ∀ k ≤ n + 1, 0 < depth + level (x :: xs) k := by
      constructor
      · rintro (_ | k) lt
        · simpa [tokenAt] using notEnd
        · exact h.1 k (by omega)
      · rintro (_ | k) le
        · rw [level_zero]
          omega
        · have := h.2 k (by omega)
          rw [level_cons]
          omega
    have opens (turn : x.token.turn = 1) (notEnd : x.token ≠ .endOfInput) :=
      (rest (depth + 1) (by omega)).imp_right (later notEnd (by omega))
    have closes (turn : x.token.turn = -1) (notEnd : x.token ≠ .endOfInput) (deep : ¬depth ≤ 1) :=
      (rest (depth - 1) (by omega)).imp_right (later notEnd (by omega))
    -- The bracket that decides is not the last token of both lists, so that the next one agrees.
    have decides (turn : x.token.turn = -1) :
        (ys.head?.getD y).token = (xs.head?.getD x).token := by
      have more : 0 < n := by
        by_contra none
        have := last 0 (by omega) x.token rfl
        omega
      have next := agree 1 (by omega)
      cases xs with
      | nil => simp at le; omega
      | cons x' xs =>
        cases ys with
        | nil => simp at le'; omega
        | cons y' ys => exact Option.some.inj next
    simp only [arrowAfterBrackets,same]
    cases token : x.token with
    | leftParen | leftBracket | leftBrace => exact opens (by simp [token,Token.turn]) (by simp [token])
    | rightParen | rightBracket | rightBrace =>
      have turn : x.token.turn = -1 := by simp [token,Token.turn]
      by_cases deep : depth ≤ 1
      · simp only [if_pos deep,decides turn,true_or]
      · simp only [if_neg deep]
        exact closes turn (by simp [token]) deep
    | endOfInput => exact .inl rfl
    | _ => exact (rest depth opened).imp_right (later (by simp [token]) (by simp [token,Token.turn]))

/-- Both streams give the same answer, or the bracket that is next in the short one is never
closed there. -/
theorem Stand.arrowAhead {s t : State} (stand : w.Stand i s t) (inside : i < w.cut) :
    ∃ ahead ahead', arrowAhead s = .ok ahead s ∧ arrowAhead t = .ok ahead' t ∧
      (ahead' = ahead ∨
        ¬w.strict ∧ ∀ j, i < j → j ≤ w.cut → level w.short i < level w.short j) := by
  refine ⟨_, _, rfl, rfl, ?_⟩
  have here := stand.here
  rw [stand.token inside]
  cases token : s.current.token with
  | word name =>
    left
    simp only [(stand.nextToken (by simp [token])).1]
  | leftParen =>
    rw [token] at here
    have inside' := succ_lt_cut here (by simp)
    have turned := level_succ here
    have left : w.short.drop (i + 1) = s.upcoming := by
      rw [← List.tail_drop,stand.left,List.tail_cons]
    have right : w.long.drop (i + 1) = t.upcoming := by
      rw [← List.tail_drop,stand.right,List.tail_cons]
    have ends := w.ends
    have shift (ls : List Lexeme) (k : Nat) : tokenAt (ls.drop (i + 1)) k = tokenAt ls (i + 1 + k) := by
      simp [tokenAt]
    have last (k : Nat) (eq : k + 1 = w.cut - (i + 1)) (token : Token)
        (found : tokenAt (w.short.drop (i + 1)) k = some token) : 0 ≤ token.turn := by
      rw [shift] at found
      obtain ⟨_, last⟩ | ⟨_, last⟩ := last_token (w := w) (i := i + 1 + k) (by omega) <;>
        cases found.symm.trans last <;> decide
    have answers := arrowAfterBrackets_agree (n := w.cut - (i + 1)) (w.short.drop (i + 1))
      (w.long.drop (i + 1)) Nat.one_pos
      (by rw [List.length_drop]; omega) (by rw [List.length_drop]; omega)
      (fun k lt => by rw [shift,shift]; exact w.tokens _ (by omega)) last
    rw [left,right] at answers
    simp only [arrowAfterBrackets,token,stand.token inside]
    apply answers.imp_right
    rintro ⟨goesOn, unclosed⟩
    constructor
    · intro strict
      have whole := w.whole strict
      apply goesOn (w.cut - (i + 2)) (by omega)
      rw [← left,shift]
      exact w.ended _ (by omega)
    · intro j after le
      have := unclosed (j - (i + 1)) (by omega)
      rw [← left,level_drop,Nat.add_sub_cancel' (by omega : i + 1 ≤ j)] at this
      simp only [Token.turn] at turned
      omega
  | _ => exact .inl rfl

namespace Lockstep

/-- A run that ends with no bracket more open than before does not depend on what is past the
cut. -/
theorem arrowAhead_bind {f f' : Bool → Parser α} {Q : Nat → α → α → Prop} (inside : i < w.cut)
    (past : ∀ j a b, Q j a b → i < j ∧ j < w.cut ∧ level w.short j = level w.short i)
    (next : ∀ ahead, w.Lockstep i (f ahead) (f' ahead) Q) :
    w.Lockstep i (arrowAhead >>= f) (arrowAhead >>= f') Q := by
  intro s t stand
  obtain ⟨ahead, ahead', left, right, rfl | ⟨loose, unclosed⟩⟩ := stand.arrowAhead inside
  · rw [bind_run left,bind_run right]
    exact next _ s t stand
  · rw [bind_run left,bind_run right]
    have step := next ahead s t stand
    cases run : f ahead s with
    | ok a s' =>
      rw [run] at step
      obtain ⟨j, b, t', _, _, post⟩ := step
      have := past j a b post
      have := unclosed j (by omega) (by omega)
      omega
    | error e s' => exact fun strict => absurd strict loose

end Lockstep

end Arrows

end CodeCompletion.Parser.Twins
