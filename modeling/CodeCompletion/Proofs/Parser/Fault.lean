import CodeCompletion.Proofs.Parser.Course.Program
import CodeCompletion.Proofs.Text.Offset
import CodeCompletion.Proofs.Token.Fault

/-! Where a text is no program. A parser that fails reports the lexeme it stands on, however far it
has got; so every error of a text has a place in it, at a lexeme or at a construct that is none. -/
namespace CodeCompletion

namespace Parser

variable {α β : Type} {ls : List Lexeme} {i : Nat}

/-- A failure is reported where the lexeme starts that the parser stopped at. -/
def Blames : EStateM.Result SyntaxError State α → Prop
  | .ok _ _ => True
  | .error e s => e.position = s.current.span.start.position

theorem Blames.bind {p : Parser α} {f : α → Parser β} {s : State} (first : Blames (p s))
    (next : ∀ a t, p s = .ok a t → Blames (f a t)) : Blames ((p >>= f) s) := by
  cases step : p s with
  | ok a t =>
    rw [bind_run step]
    exact next a t step
  | error e t =>
    rw [bind_failure step]
    rwa [step] at first

/-- A loop fails in one of its turns, since there are as many as it needs. -/
theorem Blames.loop {step : α → Parser (α ⊕ β)} {I : Nat → α → Prop} {Q : Nat → β → Prop}
    {limit : Nat} (room : ls.length ≤ limit + i)
    (turn : ∀ k a, i ≤ k → I k a → ∀ s, At ls k s →
      Ends ls k (fun j r => r.elim (fun a => k < j ∧ I j a) (Q j)) (step a s) ∧ Blames (step a s))
    {a : α} {s : State} (start : I i a) (at_ : At ls i s) : Blames (Parser.loop step limit a s) := by
  induction limit generalizing i a s with
  | zero => exact rfl
  | succ limit ih =>
    obtain ⟨ends, blames⟩ := turn i a (Nat.le_refl i) start s at_
    refine blames.bind fun r t run => ?_
    rw [run] at ends
    obtain ⟨j, le, -, at_, post⟩ := ends
    cases r with
    | inl a => exact ih (by have := post.1; omega) (fun k a further => turn k a (by omega)) post.2 at_
    | inr b => trivial

theorem Course.blames (ended : ∀ k, k + 1 = ls.length → tokenAt ls k = some .endOfInput)
    {p : Parser α} {Q : Nat → α → Prop} (course : Course ls i p Q) :
    ∀ s, At ls i s → Blames (p s) := by
  induction course with
  | pure _ => exact fun s _ => trivial
  | fail _ => exact fun s _ => rfl
  | observe _ => exact fun s _ => trivial
  | advance _ _ =>
    intro s _
    unfold Parser.advance
    split <;> trivial
  | descend =>
    intro s _
    unfold Parser.descend
    split
    · exact rfl
    · trivial
  | bind first _ ih ih' =>
    intro s at_
    refine (ih s at_).bind fun a t run => ?_
    have ends := first.ends ended s at_
    rw [run] at ends
    obtain ⟨j, le, -, at_, post⟩ := ends
    exact ih' j a le post t at_
  | mono _ _ ih => exact ih
  | @around α i p enter leave giveUp Q entered _ gaveUp _ ih =>
    intro s at_
    have blames := ih (enter s) (at_.samePlace (entered s))
    cases run : p (enter s) with
    | ok a t => simp only [run,Blames]
    | error e t =>
      rw [run] at blames
      simp only [run,Blames]
      rw [(gaveUp s t).2.1]
      exact blames
  | loop room start turn ih =>
    exact fun s at_ =>
      .loop room (fun k a le inv s at_ => ⟨(turn k a le inv).ends ended s at_, ih k a le inv s at_⟩)
        start at_
  | beyond outside => exact fun s at_ => absurd at_.lt_length (Nat.not_lt.mpr outside)

end Parser

/-- Lexemes that are no program are at fault from one of them on. -/
theorem parseLexemes_blames {ls : List Lexeme} {e : SyntaxError}
    (ended : ls.getLast?.map Lexeme.token = some .endOfInput) (failed : parseLexemes ls = .error e) :
    ∃ l ∈ ls, e.position = l.span.start.position := by
  cases ls with
  | nil => cases ended
  | cons first rest =>
    have last := Parser.tokenAt_last ended
    have start : Parser.At (first :: rest) 0 ⟨none, first, rest, 0, false⟩ := ⟨rfl, by simp⟩
    have room : (first :: rest).length ≤ rest.length + 1 + 0 := Nat.le_refl _
    have course := (Parser.Grammar.ready_ofSize (rest.length + 1) 0 room).program rfl
    have ends := course.ends last _ start
    have blames := course.blames last _ start
    unfold parseLexemes at failed
    dsimp only at failed
    split at failed
    next => cases failed
    next e' s run =>
      cases failed
      rw [run] at ends blames
      obtain ⟨⟨j, -, -, at_⟩, -⟩ := ends
      exact ⟨s.current, List.mem_of_getElem? at_.here, blames⟩

open Place

/-- There are no more lines and columns than characters. -/
theorem position_le_length (p : Place) (cs : List Char) :
    (p.afterAll cs).position.line + (p.afterAll cs).position.column ≤
      p.position.line + p.position.column + cs.length := by
  induction cs generalizing p with
  | nil => exact Nat.le_refl _
  | cons c cs ih =>
    rw [afterAll_cons,List.length_cons]
    refine (ih (p.after c)).trans ?_
    unfold Place.after
    split
    all_goals
      dsimp only
      omega

/-- A position that a first part of a text leads to is a caret of the text, and no larger than it. -/
theorem caret_afterAll {text before rest : List Char} {p : Position} (split : text = before ++ rest)
    (place : p = (origin.afterAll before).position) :
    (LineTable.ofChars text).offset? text p = some (byteLength before) ∧
      p.line ≤ text.length ∧ p.column ≤ text.length := by
  have small := position_le_length origin before
  rw [← place] at small
  have origin_zero : origin.position.line + origin.position.column = 0 := rfl
  refine ⟨LineTable.offset?_eq_some.mpr ⟨before, rest, split, ?_⟩, ?_⟩
  · rw [← offset_origin_afterAll,place]
  · rw [split,List.length_append]
    omega

theorem Faulty.opening {reason : SyntaxError.Reason} {text : List Char} (h : Faulty reason text) :
    ∃ c rest, text = c :: rest := by
  cases h <;> exact ⟨_, _, rfl⟩

/-- The lexemes of a text and where an error is, if one of them is to blame. -/
theorem parseText_blames {source : String} {e : SyntaxError} {ls : List Lexeme}
    (lexed : lexText source = .ok ls) (failed : parseLexemes ls = .error e) :
    ∃ before rest, source.toList = before ++ rest ∧ e.position = (origin.afterAll before).position ∧
      ∃ l ∈ ls, l.span.start = ⟨byteLength before, e.position⟩ ∧
        (l.token = .endOfInput → byteLength before = byteLength source.toList) := by
  obtain ⟨line, text, split, -, tiling⟩ := tiling_of_lexChars lexed
  obtain ⟨tokens, stop, newline, rfl, size, kinds⟩ := tiling.last
  obtain ⟨l, member, position⟩ := parseLexemes_blames (by simp) failed
  obtain ⟨⟨before, rest, cut, start⟩, -⟩ := tiling.places l member
  have offset : l.span.start.offset = byteLength before := by rw [start,offset_origin_afterAll]
  refine ⟨before, rest, split.trans cut, by rw [position,start], l, member, ?_, fun last => ?_⟩
  · rw [position,← offset]
  · rcases List.mem_append.mp member with token | final
    · exact absurd last (kinds l token)
    · obtain rfl := List.mem_singleton.mp final
      rw [← offset,split]
      exact size

/-- Every error of a text points into it: at the first character of what cannot be read, or, where
all of it can be, at the start of a lexeme. -/
theorem error_located (source : String) (e : SyntaxError)
    (failed : lexText source = .error e ∨ parseText source = .error e) :
    ∃ offset, (LineTable.ofChars source.toList).offset? source.toList e.position = some offset ∧
      ((lexText source = .error e ∧ ∃ before c rest, source.toList = before ++ c :: rest ∧
          byteLength before = offset ∧ Begins source.toList before (c :: rest) ∧
          Faulty e.reason (c :: rest)) ∨
        ∃ ls, lexText source = .ok ls ∧ parseText source = .error e ∧
          ∃ l ∈ ls, l.span.start = ⟨offset, e.position⟩ ∧
            (l.token = .endOfInput → offset = byteLength source.toList)) ∧
      (source.length < 2 ^ 32 → e.position.line < 2 ^ 32 ∧ e.position.column < 2 ^ 32) := by
  cases lexed : lexText source with
  | error e' =>
    obtain rfl : e' = e := by
      rw [parseText,lexed] at failed
      simpa using failed
    obtain ⟨before, text, begins, faulty, place⟩ := Arrives.start.located rfl lexed
    obtain ⟨c, rest, rfl⟩ := faulty.opening
    obtain ⟨caret, line, column⟩ := caret_afterAll begins.whole place
    rw [String.length_toList] at line column
    exact ⟨_, caret, Or.inl ⟨rfl, before, c, rest, begins.whole, rfl, begins, faulty⟩,
      fun small => ⟨by omega, by omega⟩⟩
  | ok ls =>
    have failed : parseText source = .error e := by simpa [lexed] using failed
    have parsed : parseLexemes ls = .error e := by simpa [parseText,lexed] using failed
    obtain ⟨before, rest, split, place, blamed⟩ := parseText_blames lexed parsed
    obtain ⟨caret, line, column⟩ := caret_afterAll split place
    rw [String.length_toList] at line column
    exact ⟨_, caret, Or.inr ⟨ls, rfl, failed, blamed⟩, fun small => ⟨by omega, by omega⟩⟩

/-- A string in the substitution of a template, on its second line, that is not closed. -/
theorem error_located_nested : ∃ before c rest,
    lexText "x=\x60é\n$\x7b '" = .error ⟨.unterminatedString, ⟨1, 3⟩⟩ ∧
      "x=\x60é\n$\x7b '".toList = before ++ c :: rest ∧ byteLength before = 9 ∧
      Begins "x=\x60é\n$\x7b '".toList before (c :: rest) ∧
      Faulty .unterminatedString (c :: rest) := by
  have failed : lexText "x=\x60é\n$\x7b '" = .error ⟨.unterminatedString, ⟨1, 3⟩⟩ := by decide +kernel
  obtain ⟨offset, caret, unread | ⟨ls, read, -⟩, -⟩ := error_located _ _ (Or.inl failed)
  · obtain ⟨-, before, c, rest, split, size, begins, faulty⟩ := unread
    refine ⟨before, c, rest, failed, split, ?_, begins, faulty⟩
    have found : (LineTable.ofChars "x=\x60é\n$\x7b '".toList).offset? "x=\x60é\n$\x7b '".toList
        ⟨1, 3⟩ = some 9 := by decide +kernel
    rw [size]
    exact Option.some.inj (caret.symm.trans found)
  · rw [failed] at read
    cases read

end CodeCompletion
