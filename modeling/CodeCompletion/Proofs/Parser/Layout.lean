import CodeCompletion.Proofs.Parser.Composition
import Mathlib.Data.List.Forall2

/-! The tree does not depend on layout. Two streams with the same tokens and line breaks are read in
lockstep up to their end, whatever the spans of their lexemes are, so that the parser makes the same
tree of both or fails on both for the same reason. -/
namespace CodeCompletion

def Program.erase (p : Program) : Program := ⟨p.body.map Stmt.erase, default⟩

/-- Two answers that differ in nothing but spans and where the failure lies. The reason of a failure
is all that its wording depends on. -/
inductive SameAnswer : Except SyntaxError Program → Except SyntaxError Program → Prop where
  | parsed {p q : Program} (same : p.erase = q.erase) : SameAnswer (.ok p) (.ok q)
  | failed {e f : SyntaxError} (same : e.reason = f.reason) : SameAnswer (.error e) (.error f)

namespace Parser

variable {w : Twins} {g h : Grammar}

/-- Whole streams give programs that are the same but for their spans. -/
theorem Twins.Tracks.program (tracks : w.Tracks g h) (whole : w.short.length = w.cut) :
    w.Lockstep 0 g.program h.program fun _ p q => p.erase = q.erase := by
  have unfolded (g : Grammar) : g.program = do
      let start ← currentSpan
      let body ← loop g.nextStatement g.limit []
      return ⟨body, start.cover (← currentSpan)⟩ := by
    rw [← collect_statement?]
    rfl
  rw [unfolded,unfolded]
  apply Lockstep.currentSpan_bind
  intro start start'
  apply (tracks.moreStatements whole tracks.limit tracks.same []).bind
  intro j body body' same
  apply Lockstep.currentSpan_bind
  intro stop stop'
  apply Lockstep.pure
  simpa [Program.erase] using same.symm

end Parser

/-- Lexemes that differ in nothing but their spans are parsed to programs that are equal once their
spans are erased, or fail for the same reason and so with the same message. -/
theorem parseLexemes_layout_irrelevant (ls ls' : List Lexeme)
    (alike : List.Forall₂ Lexeme.Alike ls ls')
    (ended : ls.getLast?.map Lexeme.token = some .endOfInput) :
    SameAnswer (parseLexemes ls) (parseLexemes ls') := by
  cases alike with
  | nil => cases ended
  | @cons first first' rest rest' here later =>
    have lengths : rest.length = rest'.length := later.length_eq
    let w := Parser.Twins.throughout (first :: rest) (first' :: rest') True
      (Parser.alike_tokens (.cons here later)) (Parser.alike_newlines later)
      (Parser.tokenAt_last ended)
    have tracks : w.Tracks (.ofSize (rest.length + 1)) (.ofSize (rest'.length + 1)) :=
      Parser.Twins.tracks_ofSize (by omega) (by omega)
    have start : w.Stand 0 ⟨none, first, rest, 0, false⟩ ⟨none, first', rest', 0, false⟩ :=
      ⟨rfl, rfl, rfl, rfl⟩
    have agrees := tracks.program rfl _ _ start
    simp only [parseLexemes]
    cases run : (Parser.Grammar.ofSize (rest.length + 1)).program ⟨none, first, rest, 0, false⟩ with
    | ok p s =>
      rw [run] at agrees
      obtain ⟨_, q, t, run', -, same⟩ := agrees
      rw [run']
      exact .parsed same
    | error e s =>
      rw [run] at agrees
      obtain ⟨f, t, run', same⟩ := agrees trivial
      rw [run']
      exact .failed same.symm

/-- Spans that overlap and go backwards, for a sum on two lines. -/
theorem parseLexemes_layout_irrelevant_backwards : ∃ ls ls' : List Lexeme,
    List.Forall₂ Lexeme.Alike ls ls' ∧ ls'.map (·.span.start.offset) = [9, 5, 7, 0] ∧
      (parseLexemes ls).isOk = true ∧ SameAnswer (parseLexemes ls) (parseLexemes ls') := by
  let tokens : List (Token × Bool) :=
    [(.word "a", false), (.op "+", true), (.word "b", false), (.endOfInput, false)]
  let span (offset : Nat) : Span := ⟨⟨offset, ⟨0, 0⟩⟩, ⟨6, ⟨3, 1⟩⟩⟩
  let ls : List Lexeme := tokens.map fun (token, newline) => ⟨token, default, newline⟩
  let ls' : List Lexeme :=
    List.zipWith (fun (token, newline) offset => ⟨token, span offset, newline⟩) tokens [9, 5, 7, 0]
  have alike : List.Forall₂ Lexeme.Alike ls ls' :=
    .cons ⟨rfl, rfl⟩ (.cons ⟨rfl, rfl⟩ (.cons ⟨rfl, rfl⟩ (.cons ⟨rfl, rfl⟩ .nil)))
  exact ⟨ls, ls', alike, rfl, by decide +kernel, parseLexemes_layout_irrelevant ls ls' alike rfl⟩

end CodeCompletion
