import CodeCompletion.Proofs.Parser.Statement

/-! The spans of a syntax tree. `parseText_wellPlaced` says of every program that a text
spells, and of every node of it, how the node lies in the text, around the nodes below it. -/
namespace CodeCompletion

open TreeNode

variable {ls : List Lexeme} {m n : TreeNode}

namespace Span

theorem Encloses.refl (span : Span) : span.Encloses span := ⟨Nat.le_refl _, Nat.le_refl _⟩

theorem Encloses.trans {x y z : Span} (outer : x.Encloses y) (inner : y.Encloses z) :
    x.Encloses z :=
  ⟨Nat.le_trans outer.1 inner.1, Nat.le_trans inner.2 outer.2⟩

end Span

namespace Parser.Tidy

theorem descendant (tidy : Tidy ls n) (path : Below n m) : Tidy ls m := by
  induction path with
  | refl => exact tidy
  | tail _ child ih =>
    obtain ⟨-, -, below, -⟩ := ih
    exact below _ child

theorem encloses (stream : Stream ls) (tidy : Tidy ls n) (path : Below n m) :
    n.span.Encloses m.span := by
  induction path with
  | refl => exact .refl _
  | tail path child ih =>
    obtain ⟨spans, inside, -, -⟩ := tidy.descendant path
    obtain ⟨a, b, starts, stops, spans'⟩ := inside _ child
    exact ih.trans (stream.encloses spans spans' starts stops)

end Parser.Tidy

/-- How a node lies in a text with the given lexemes: its ends are ends of lexemes and know
their lines and columns, it has all nodes below it inside, and those right below it stand in
order, unless it is a property or class member. -/
structure WellPlaced (text : List Char) (ls : List Lexeme) (n : TreeNode) : Prop where
  proper : n.span.start.offset ≤ n.span.stop.offset
  start : ∃ l ∈ ls, l.span.start = n.span.start
  stop : ∃ l ∈ ls, l.span.stop = n.span.stop
  startPosition :
    n.span.start.position = (LineTable.ofChars text).position text n.span.start.offset
  stopPosition :
    n.span.stop.position = (LineTable.ofChars text).position text n.span.stop.offset
  encloses : ∀ m, Below n m → n.span.Encloses m.span
  ordered : n.isSequential → n.children.Pairwise fun a b => a.span.Before b.span

theorem wellPlaced_of_tidy {before text : List Char} (tiling : Tiling before text ls)
    (tidy : Parser.Tidy ls n) : WellPlaced (before ++ text) ls n := by
  have encloses := fun m (path : Below n m) => tidy.encloses tiling.stream path
  obtain ⟨spans, -, -, ordered⟩ := tidy
  have proper := tiling.stream.start_le_stop spans
  obtain ⟨-, ⟨first, found, start⟩, ⟨last, found', stop⟩⟩ := spans
  have member := List.mem_of_getElem? found
  have member' := List.mem_of_getElem? found'
  exact {
    proper := proper
    start := ⟨first, member, start⟩
    stop := ⟨last, member', stop⟩
    startPosition := start ▸ (tiling.positions first member).1
    stopPosition := stop ▸ (tiling.positions last member').2
    encloses := encloses
    ordered := ordered }

theorem tidy_of_parseLexemes (stream : Stream ls) {program : Program} (nonempty : ls ≠ [])
    (h : parseLexemes ls = .ok program) : Parser.Tidy ls (.program program) := by
  obtain ⟨first, rest, rfl⟩ := List.exists_cons_of_ne_nil nonempty
  have starts : Parser.At (first :: rest) 0 ⟨none, first, rest, 0, false⟩ := ⟨rfl, nofun⟩
  rw [parseLexemes] at h
  split at h
  · rename_i s run
    cases h
    have sound := Parser.Grammar.sound_ofSize stream (rest.length + 1)
    obtain ⟨j, -, -, found⟩ := sound.program stream _ _ s starts run
    exact found.tidy
  · cases h

/-- A program that a text spells is tidy, over lexemes that tile the text. -/
theorem tidy_of_parseText {source : String} {program : Program}
    (h : parseText source = .ok program) : ∃ line rest ls, source.toList = line ++ rest ∧
      lexText source = .ok ls ∧ Tiling line rest ls ∧ Parser.Tidy ls (.program program) := by
  rw [parseText] at h
  split at h
  · rename_i ls read
    obtain ⟨line, rest, whole, -, tiling⟩ := tiling_of_lexChars read
    have nonempty : ls ≠ [] := by
      obtain ⟨tokens, stop, newline, rfl, -⟩ := tiling.last
      simp
    exact ⟨line, rest, ls, whole, read, tiling, tidy_of_parseLexemes tiling.stream nonempty h⟩
  · cases h

/-- Every node of every program lies in its text as its place in the tree says. -/
theorem parseText_wellPlaced (source : String) (program : Program)
    (h : parseText source = .ok program) : ∃ ls, lexText source = .ok ls ∧
      ∀ n, Below (.program program) n → WellPlaced source.toList ls n := by
  obtain ⟨line, rest, ls, whole, read, tiling, tidy⟩ := tidy_of_parseText h
  refine ⟨ls, read, fun n path => ?_⟩
  rw [whole]
  exact wellPlaced_of_tidy tiling (tidy.descendant path)

/-- An operator between a bracketed name and an object with a method, whose key is computed
and lies inside of the method's function. -/
theorem parseText_wellPlaced_method : ∃ program ls, parseText "(a)+{[b](){}}" = .ok program ∧
    lexText "(a)+{[b](){}}" = .ok ls ∧ ∀ n, Below (.program program) n →
      WellPlaced "(a)+{[b](){}}".toList ls n := by
  obtain ⟨program, read⟩ :=
    exists_of_isOk (by decide +kernel : (parseText "(a)+{[b](){}}").isOk = true)
  obtain ⟨ls, lexed, placed⟩ := parseText_wellPlaced _ program read
  exact ⟨program, ls, read, lexed, placed⟩

end CodeCompletion
