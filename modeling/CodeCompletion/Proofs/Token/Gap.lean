import CodeCompletion.Token.Gap
import Mathlib.Data.List.TakeWhile

/-! The grammar of what stands between tokens, and that reading a gap follows it. -/
namespace CodeCompletion

def AtLineEnd (text : List Char) : Prop := text = [] ∨ text.head? = some '\n'

/-- A gap, and the text after it. A line comment runs up to a line feed or the end; a block
comment is closed at its first `*/`. -/
inductive Gap (rest : List Char) : List Char → Prop where
  | nil : Gap rest []
  | blank {c : Char} {gap : List Char} : isBlank c = true ∨ c = '\uFEFF' → Gap rest gap →
      Gap rest (c :: gap)
  | line {body gap : List Char} : '\n' ∉ body → AtLineEnd (gap ++ rest) → Gap rest gap →
      Gap rest ('/' :: '/' :: (body ++ gap))
  | block {body gap : List Char} : ¬ ['*', '/'] <:+: body → Gap rest gap →
      Gap rest ('/' :: '*' :: (body ++ '*' :: '/' :: gap))

structure InterpreterLine (line rest : List Char) : Prop where
  marked : ['#', '!'] <+: line
  single : '\n' ∉ line
  ends : AtLineEnd rest

theorem isGapChar_iff {c : Char} : isGapChar c = true ↔ isBlank c = true ∨ c = '\uFEFF' := by
  have code : c.toNat = 0xfeff ↔ c = '\uFEFF' := by
    constructor
    · intro h
      exact Char.ext (UInt32.toNat_inj.mp h)
    · rintro rfl
      rfl
  simp [isGapChar,code]

theorem take_runLength (p : Char → Bool) (text : List Char) :
    text.take (runLength p text) = text.takeWhile p :=
  List.prefix_iff_eq_take.mp (List.takeWhile_prefix p) |>.symm

theorem drop_runLength (p : Char → Bool) (text : List Char) :
    text.drop (runLength p text) = text.dropWhile p := by
  induction text with
  | nil => rfl
  | cons c cs ih =>
    by_cases h : p c = true
    · simpa [runLength,List.takeWhile_cons,List.dropWhile_cons,h] using ih
    · simp [runLength,h]

/-- A run up to the line's end is on one line and ends where the line does. -/
theorem lineRun (text : List Char) :
    '\n' ∉ text.take (runLength (· ≠ '\n') text) ∧
    AtLineEnd (text.drop (runLength (· ≠ '\n') text)) := by
  rw [take_runLength,drop_runLength]
  constructor
  · intro member
    simpa using List.mem_takeWhile_imp member
  · cases rest : text.dropWhile (· ≠ '\n') with
    | nil => exact Or.inl rfl
    | cons c cs =>
      have stops := List.head?_dropWhile_not (fun c => decide (c ≠ '\n')) text
      rw [rest] at stops
      exact Or.inr (by simpa using stops)

/-- The body of a block comment ends with its first `*/`. -/
theorem commentBody_some {text : List Char} {size : Nat} (h : commentBody text = some size) :
    ∃ body rest, text = body ++ '*' :: '/' :: rest ∧ size = body.length + 2 ∧
      ¬ ['*', '/'] <:+: body := by
  fun_induction commentBody text generalizing size with
  | case1 => cases h
  | case2 rest =>
    cases h
    exact ⟨[], rest, rfl, rfl, by simp⟩
  | case3 c cs open_ ih =>
    obtain ⟨n, found, rfl⟩ := Option.map_eq_some_iff.mp h
    obtain ⟨body, rest, rfl, rfl, none⟩ := ih found
    refine ⟨c :: body, rest, rfl, by simp; omega, fun inside => ?_⟩
    rcases List.infix_cons_iff.mp inside with first | later
    · obtain ⟨tail, split⟩ := first
      obtain ⟨rfl, rfl⟩ := List.cons.inj split
      exact open_ _ rfl rfl
    · exact none later

theorem map_eq_ok {ε α β : Type} {x : Except ε α} {f : α → β} {b : β} :
    x.map f = .ok b ↔ ∃ a, x = .ok a ∧ f a = b := by
  cases x <;> simp [Except.map]

theorem exists_of_isOk {ε α : Type} {result : Except ε α} (ok : result.isOk = true) :
    ∃ a, result = .ok a := by
  cases result with
  | ok a => exact ⟨a, rfl⟩
  | error e => cases ok

/-- There is a result with a property, if that can be decided. -/
theorem exists_ok_of_any {ε α : Type} {result : Except ε α} {P : α → Prop} [DecidablePred P]
    (found : result.toOption.any (fun a => decide (P a)) = true) : ∃ a, result = .ok a ∧ P a := by
  cases result with
  | ok a => exact ⟨a, rfl, of_decide_eq_true found⟩
  | error e => cases found

/-- Cutting a text behind its two-character opening, a body and a further run. -/
theorem cut_opened (a b : Char) (rest : List Char) (body n : Nat) :
    (a :: b :: rest).take (2 + body + n) = a :: b :: (rest.take body ++ (rest.drop body).take n) ∧
    (a :: b :: rest).drop (2 + body + n) = (rest.drop body).drop n := by
  have size : 2 + body + n = body + n + 2 := by omega
  simp [size,List.take_add]

/-- What is read as a gap is one. -/
theorem gap_of_gapLength {here : Place} {text : List Char} {size : Nat}
    (h : gapLength here text = .ok size) : Gap (text.drop size) (text.take size) := by
  fun_induction gapLength here text generalizing size with
  | case1 here rest run =>
    rename_i ih
    obtain ⟨n, found, rfl⟩ := map_eq_ok.mp h
    have later := ih found
    obtain ⟨single, ends⟩ := lineRun rest
    have cut := cut_opened '/' '/' rest (runLength (· ≠ '\n') rest) n
    rw [cut.1,cut.2]
    simp only [run,Nat.add_sub_cancel_left] at later
    exact .line single (by rwa [List.take_append_drop]) later
  | case2 here rest unclosed => cases h
  | case3 here rest body closed run =>
    rename_i ih
    obtain ⟨n, found, rfl⟩ := map_eq_ok.mp h
    have later := ih found
    obtain ⟨inner, after, rfl, rfl, first⟩ := commentBody_some closed
    have cut := cut_opened '/' '*' (inner ++ '*' :: '/' :: after) (inner.length + 2) n
    have inside : (inner ++ '*' :: '/' :: after).take (inner.length + 2) = inner ++ ['*', '/'] :=
      List.take_length_add_append 2
    have outside : (inner ++ '*' :: '/' :: after).drop (inner.length + 2) = after :=
      List.drop_length_add_append 2
    rw [outside] at later
    rw [cut.1,cut.2,inside,outside,List.append_assoc]
    exact .block first later
  | case4 here c rest noLine noBlock blank ih =>
    obtain ⟨n, found, rfl⟩ := map_eq_ok.mp h
    rw [Nat.add_comm 1 n]
    exact .blank (isGapChar_iff.mp blank) (ih found)
  | case5 here c rest noLine noBlock blank =>
    cases h
    exact .nil
  | case6 here =>
    cases h
    exact .nil

theorem interpreterLine_take (text : List Char) :
    interpreterLine text = 0 ∨
    InterpreterLine (text.take (interpreterLine text)) (text.drop (interpreterLine text)) := by
  unfold interpreterLine
  split
  · obtain ⟨single, ends⟩ := lineRun _
    refine Or.inr ⟨?_, single, ends⟩
    simp [take_runLength]
  · exact Or.inl rfl

end CodeCompletion
