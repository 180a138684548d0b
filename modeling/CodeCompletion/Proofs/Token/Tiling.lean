import CodeCompletion.Proofs.Text.Place
import CodeCompletion.Proofs.Token.Extent

/-! Lexemes tile their text: tokens that take up text, in order, with gaps between them and
the end of input at the very end. The places that are counted while reading are those that
the line table of the text tells. -/
namespace CodeCompletion

open Place

inductive Tiling : List Char → List Char → List Lexeme → Prop where
  | done {before gap : List Char} : Gap [] gap →
      Tiling before gap [⟨.endOfInput, ⟨origin.afterAll (before ++ gap),
        origin.afterAll (before ++ gap)⟩, gap.contains '\n'⟩]
  | token {before gap chars rest : List Char} {token : Token} {ls : List Lexeme} :
      Gap (chars ++ rest) gap → chars ≠ [] → token ≠ .endOfInput →
      Tiling (before ++ gap ++ chars) rest ls →
      Tiling before (gap ++ (chars ++ rest)) (⟨token, ⟨origin.afterAll (before ++ gap),
        origin.afterAll (before ++ gap ++ chars)⟩, gap.contains '\n'⟩ :: ls)

/-- The reader tiles what it reads, from whatever place it starts at. -/
theorem tiling_of_lexemes {before : List Char} {here : Place} {last : Option Token}
    {text : List Char} {ls : List Lexeme} (at_ : here = origin.afterAll before)
    (h : lexemes here last text = .ok ls) : Tiling before text ls := by
  fun_induction lexemes here last text generalizing before ls with
  | case1 => cases h
  | case2 =>
    rename_i here last text size read _ _ ended
    cases h
    show Tiling before text [⟨.endOfInput, ⟨here.afterAll (text.take size),
      here.afterAll (text.take size)⟩, (text.take size).contains '\n'⟩]
    have gap := gap_of_gapLength read
    rw [ended] at gap
    have whole : text.take size = text := List.take_of_length_le (List.drop_eq_nil_iff.mp ended)
    rw [whole] at gap ⊢
    rw [at_,← afterAll_append]
    exact .done gap
  | case3 => cases h
  | case4 => cases h
  | case5 =>
    rename_i here last text size read _ _ c rest next r token _ tail lexed ih
    cases h
    show Tiling before text (⟨r.value, ⟨here.afterAll (text.take size),
      (here.afterAll (text.take size)).afterAll ((c :: rest).take r.size)⟩,
      (text.take size).contains '\n'⟩ :: tail)
    obtain ⟨taken, kind⟩ := readToken_ok token
    have start : here.afterAll (text.take size) = origin.afterAll (before ++ text.take size) := by
      rw [at_,afterAll_append]
    have stop : (here.afterAll (text.take size)).afterAll ((c :: rest).take r.size) =
        origin.afterAll (before ++ text.take size ++ (c :: rest).take r.size) := by
      rw [start,← afterAll_append]
    -- the count is positive, so the reader goes on right behind the token
    have left : rest.drop (r.size - 1) = (c :: rest).drop r.size := by
      obtain ⟨n, size⟩ := Nat.exists_eq_succ_of_ne_zero (Nat.ne_of_gt taken)
      simp [size]
    have later := ih stop lexed
    rw [left] at later
    have gap := gap_of_gapLength read
    rw [next,← List.take_append_drop r.size (c :: rest)] at gap
    have cut : text = text.take size ++ ((c :: rest).take r.size ++ (c :: rest).drop r.size) := by
      rw [List.take_append_drop,← next,List.take_append_drop]
    have nonempty : (c :: rest).take r.size ≠ [] := by
      simp [Nat.ne_of_gt taken]
    have tiling := Tiling.token gap nonempty kind later
    rwa [← cut,← start,← stop] at tiling

namespace Tiling

variable {before text : List Char} {ls : List Lexeme}

/-- The end of input comes last and nowhere else. -/
theorem last (h : Tiling before text ls) : ∃ tokens stop newline,
    ls = tokens ++ [⟨.endOfInput, ⟨stop, stop⟩, newline⟩] ∧
    stop.offset = byteLength (before ++ text) ∧ ∀ l ∈ tokens, l.token ≠ .endOfInput := by
  induction h with
  | done gap => exact ⟨[], _, _, rfl, offset_origin_afterAll _, by simp⟩
  | token gap nonempty kind _ ih =>
    obtain ⟨tokens, stop, newline, rfl, size, kinds⟩ := ih
    refine ⟨_ :: tokens, stop, newline, rfl, by simpa using size, ?_⟩
    exact List.forall_mem_cons.mpr ⟨kind, kinds⟩

/-- Each end of a lexeme is the place that a first part of the text leads to. -/
theorem places (h : Tiling before text ls) : ∀ l ∈ ls,
    (∃ xs ys, before ++ text = xs ++ ys ∧ l.span.start = origin.afterAll xs) ∧
    (∃ xs ys, before ++ text = xs ++ ys ∧ l.span.stop = origin.afterAll xs) := by
  induction h with
  | done gap =>
    intro l member
    cases List.mem_singleton.mp member
    exact ⟨⟨_, [], by simp, rfl⟩, ⟨_, [], by simp, rfl⟩⟩
  | @token before gap chars rest _ _ _ _ _ _ ih =>
    have start : before ++ (gap ++ (chars ++ rest)) = before ++ gap ++ (chars ++ rest) := by simp
    have stop : before ++ (gap ++ (chars ++ rest)) = before ++ gap ++ chars ++ rest := by simp
    refine List.forall_mem_cons.mpr ⟨⟨⟨_, _, start, rfl⟩, ⟨_, _, stop, rfl⟩⟩, ?_⟩
    rwa [stop]

/-- A token takes up text. -/
theorem nonempty (h : Tiling before text ls) :
    ∀ l ∈ ls, l.token ≠ .endOfInput → l.span.start.offset < l.span.stop.offset := by
  induction h with
  | done gap => simp
  | token gap chars kind _ ih =>
    refine List.forall_mem_cons.mpr ⟨fun _ => ?_, ih⟩
    have := byteLength_pos chars
    simp only [offset_origin_afterAll,byteLength_append]
    omega

theorem le_start (h : Tiling before text ls) :
    ∀ l ∈ ls, byteLength before ≤ l.span.start.offset := by
  induction h with
  | done gap => simp [offset_origin_afterAll]
  | token gap nonempty kind _ ih =>
    refine List.forall_mem_cons.mpr ⟨?_, fun l member => ?_⟩
    · simp [offset_origin_afterAll]
    · have := ih l member
      simp only [byteLength_append] at this
      omega

/-- A lexeme ends before the next one starts, and so before all later ones. -/
theorem ordered (h : Tiling before text ls) :
    ls.Pairwise fun a b => a.span.stop.offset ≤ b.span.start.offset := by
  induction h with
  | done gap => exact List.pairwise_singleton ..
  | token gap nonempty kind rest ih =>
    refine ih.cons fun l member => ?_
    have := rest.le_start l member
    simpa [offset_origin_afterAll] using this

end Tiling

/-- Where the lexeme before the one at an index stops; the text starts at `first`. -/
def stopBefore (first : Nat) (ls : List Lexeme) : Nat → Nat
  | 0 => first
  | i + 1 => (ls[i]?.map (·.span.stop.offset)).getD first

theorem stopBefore_cons (first : Nat) (l : Lexeme) (ls : List Lexeme) (i : Nat)
    (inside : i < ls.length) :
    stopBefore first (l :: ls) (i + 1) = stopBefore l.span.stop.offset ls i := by
  cases i with
  | zero => rfl
  | succ i =>
    have earlier : i < ls.length := Nat.lt_of_succ_lt inside
    simp [stopBefore,earlier]

theorem Tiling.gaps {before text : List Char} {ls : List Lexeme} (h : Tiling before text ls) :
    ∀ i l, ls[i]? = some l → ∃ xs gap ys, before ++ text = xs ++ gap ++ ys ∧
      byteLength xs = stopBefore (byteLength before) ls i ∧
      byteLength xs + byteLength gap = l.span.start.offset ∧
      Gap ys gap ∧ l.newlineBefore = gap.contains '\n' := by
  induction h with
  | done gap =>
    intro i l found
    cases i with
    | zero =>
      cases found
      exact ⟨_, _, [], by simp, rfl, by simp [offset_origin_afterAll], gap, rfl⟩
    | succ i => cases found
  | @token before gap chars rest _ _ valid _ _ _ ih =>
    intro i l found
    cases i with
    | zero =>
      cases found
      exact ⟨before, gap, chars ++ rest, by simp, rfl, by simp [offset_origin_afterAll], valid, rfl⟩
    | succ i =>
      have found := List.getElem?_cons_succ.symm.trans found
      obtain ⟨xs, between, ys, split, size, start, valid, newline⟩ := ih i l found
      refine ⟨xs, between, ys, by simpa using split, ?_, start, valid, newline⟩
      rw [stopBefore_cons _ _ _ _ (List.getElem?_eq_some_iff.mp found).1,size,
        offset_origin_afterAll]

/-- Past the first lexeme it does not matter where the text starts. -/
theorem stopBefore_succ (first first' : Nat) {ls : List Lexeme} {i : Nat} {l : Lexeme}
    (found : ls[i + 1]? = some l) : stopBefore first ls (i + 1) = stopBefore first' ls (i + 1) := by
  have inside : i < ls.length := Nat.lt_of_succ_lt (List.getElem?_eq_some_iff.mp found).1
  simp [stopBefore,inside]

/-- A whole text is tiled from its first character on, or from the end of a first line that
starts with `#!`. -/
theorem tiling_of_lexChars {text : List Char} {ls : List Lexeme} (h : lexChars text = .ok ls) :
    ∃ line rest, text = line ++ rest ∧ (line = [] ∨ InterpreterLine line rest) ∧
      Tiling line rest ls := by
  refine ⟨_, _, (List.take_append_drop (interpreterLine text) text).symm, ?_,
    tiling_of_lexemes rfl h⟩
  exact (interpreterLine_take text).imp_left fun none => by simp [none]

def Separates (before gap after : List Char) : Prop :=
  Gap after gap ∨ before = [] ∧ ∃ line rest, gap = line ++ rest ∧
    InterpreterLine line (rest ++ after) ∧ Gap after rest

structure Tiled (text : List Char) (ls : List Lexeme) : Prop where
  last : ∃ tokens stop newline, ls = tokens ++ [⟨.endOfInput, ⟨stop, stop⟩, newline⟩] ∧
    stop.offset = byteLength text ∧ ∀ l ∈ tokens, l.token ≠ .endOfInput
  nonempty : ∀ l ∈ ls, l.token ≠ .endOfInput → l.span.start.offset < l.span.stop.offset
  boundaries : ∀ l ∈ ls,
    OnBoundary text l.span.start.offset ∧ OnBoundary text l.span.stop.offset
  ordered : ls.Pairwise fun a b => a.span.stop.offset ≤ b.span.start.offset
  /-- The text from the stop of one lexeme to the start of the next. -/
  gaps : ∀ i l, ls[i]? = some l → ∃ before gap after, text = before ++ gap ++ after ∧
    byteLength before = stopBefore 0 ls i ∧
    byteLength before + byteLength gap = l.span.start.offset ∧
    Separates before gap after ∧ (l.newlineBefore = true ↔ '\n' ∈ gap)
  positions : ∀ l ∈ ls,
    l.span.start.position = (LineTable.ofChars text).position text l.span.start.offset ∧
    l.span.stop.position = (LineTable.ofChars text).position text l.span.stop.offset

theorem onBoundary_afterAll (xs ys : List Char) :
    OnBoundary (xs ++ ys) (origin.afterAll xs).offset :=
  ⟨xs, ys, rfl, (offset_origin_afterAll xs).symm⟩

theorem position_afterAll (xs ys : List Char) : (origin.afterAll xs).position =
    (LineTable.ofChars (xs ++ ys)).position (xs ++ ys) (origin.afterAll xs).offset := by
  rw [offset_origin_afterAll,LineTable.position_byteLength]

/-- Both ends of a lexeme know their lines and columns. -/
theorem Tiling.positions {before text : List Char} {ls : List Lexeme}
    (h : Tiling before text ls) : ∀ l ∈ ls,
    l.span.start.position =
      (LineTable.ofChars (before ++ text)).position (before ++ text) l.span.start.offset ∧
    l.span.stop.position =
      (LineTable.ofChars (before ++ text)).position (before ++ text) l.span.stop.offset := by
  intro l member
  obtain ⟨⟨xs, ys, start, here⟩, ⟨xs', ys', stop, there⟩⟩ := h.places l member
  rw [here,there]
  exact ⟨start ▸ position_afterAll xs ys, stop ▸ position_afterAll xs' ys'⟩

/-- The first gap takes in the line before it. -/
theorem separates_first {line rest : List Char} {ls : List Lexeme} {l : Lexeme}
    (marked : line = [] ∨ InterpreterLine line rest) (tiling : Tiling line rest ls)
    (found : ls[0]? = some l) : ∃ gap after, line ++ rest = gap ++ after ∧
      byteLength gap = l.span.start.offset ∧ Separates [] gap after ∧
      (l.newlineBefore = true ↔ '\n' ∈ gap) := by
  obtain ⟨xs, gap, ys, split, size, start, valid, newline⟩ := tiling.gaps 0 l found
  rw [List.append_assoc] at split
  obtain ⟨rfl, rfl⟩ := append_cancel split size.symm
  refine ⟨line ++ gap, ys, by simp, by simp [start], ?_, ?_⟩
  · rcases marked with rfl | marked
    · exact Or.inl valid
    · exact Or.inr ⟨rfl, line, gap, rfl, marked, valid⟩
  · have single : '\n' ∉ line := by
      rcases marked with rfl | marked
      · exact List.not_mem_nil
      · exact marked.single
    simp [newline,single]

/-- The lexemes of every text that can be read tile it. -/
theorem lexText_tiled (source : String) (ls : List Lexeme) (h : lexText source = .ok ls) :
    Tiled source.toList ls := by
  obtain ⟨line, rest, whole, marked, tiling⟩ := tiling_of_lexChars h
  rw [whole]
  constructor
  · exact tiling.last
  · exact tiling.nonempty
  · intro l member
    obtain ⟨⟨xs, ys, start, here⟩, ⟨xs', ys', stop, there⟩⟩ := tiling.places l member
    rw [here,there]
    exact ⟨start ▸ onBoundary_afterAll xs ys, stop ▸ onBoundary_afterAll xs' ys'⟩
  · exact tiling.ordered
  · intro i l found
    cases i with
    | zero =>
      obtain ⟨gap, after, split, size, separates, newline⟩ := separates_first marked tiling found
      exact ⟨[], gap, after, split, rfl, by simp [size], separates, newline⟩
    | succ i =>
      obtain ⟨xs, gap, ys, split, size, start, valid, newline⟩ := tiling.gaps (i + 1) l found
      exact ⟨xs, gap, ys, split, size.trans (stopBefore_succ _ 0 found), start, Or.inl valid,
        by simp [newline]⟩
  · exact tiling.positions

def onFirstLine (tokens : List (Token × Nat × Nat)) : List Lexeme :=
  tokens.map fun (token, start, stop) => ⟨token, firstLine start stop, false⟩

/-- Three tokens after a marked first line and a comment over two lines, and a comment at
the end. -/
theorem lexText_tiled_commented : ∃ ls, lexText "#!é\n/*\n*/ é=/[/]/g//" = .ok ls ∧
    ls.map (·.token) = [.word "é", .op "=", .regex "[/]" "g", .endOfInput] ∧
    Tiled "#!é\n/*\n*/ é=/[/]/g//".toList ls := by
  have read : lexText "#!é\n/*\n*/ é=/[/]/g//" = .ok
      [⟨.word "é", ⟨⟨11, ⟨2, 3⟩⟩, ⟨13, ⟨2, 4⟩⟩⟩, true⟩,
        ⟨.op "=", ⟨⟨13, ⟨2, 4⟩⟩, ⟨14, ⟨2, 5⟩⟩⟩, false⟩,
        ⟨.regex "[/]" "g", ⟨⟨14, ⟨2, 5⟩⟩, ⟨20, ⟨2, 11⟩⟩⟩, false⟩,
        ⟨.endOfInput, ⟨⟨22, ⟨2, 13⟩⟩, ⟨22, ⟨2, 13⟩⟩⟩, false⟩] := by decide +kernel
  exact ⟨_, read, rfl, lexText_tiled _ _ read⟩

end CodeCompletion
