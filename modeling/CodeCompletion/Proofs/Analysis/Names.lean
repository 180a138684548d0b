import CodeCompletion.Proofs.Parser.Nesting
import CodeCompletion.Proofs.Shape.Names

/-! Where the names of an analysis come from. Each of them is a word or a string of the text, a
number that stands for a key there, or one of the few names that every text implies. -/
namespace CodeCompletion

open TreeNode CodeCompletion.Parser

variable {ls : List Lexeme} {n : TreeNode}

inductive Written (ls : List Lexeme) (name : String) : Prop where
  | word (occurs : Occurs ls (.word name))
  | string (occurs : Occurs ls (.str name))
  | number (x : Binary64) (same : x.key = name)
  | implied (member : name ∈ impliedNames)

theorem written_of_key {key : PropertyKey} (genuine : GenuineKey ls key) :
    ∀ name ∈ key.name?.toList, Written ls name := by
  intro name member
  cases key with
  | ident word =>
    obtain rfl : name = word := by simpa [PropertyKey.name?] using member
    exact .word genuine
  | str value =>
    obtain rfl : name = value := by simpa [PropertyKey.name?] using member
    exact .string genuine
  | num x =>
    obtain rfl : name = x.key := by simpa [PropertyKey.name?] using member
    exact .number x rfl
  | computed _ => simp [PropertyKey.name?] at member

theorem written_of_genuine (genuine : Genuine ls n) : ∀ name ∈ n.spelled, Written ls name := by
  intro name member
  match n, genuine with
  | .declarator value, genuine =>
    obtain rfl : name = value.target.name := by simpa [spelled] using member
    exact .word genuine
  | .catchClause value, genuine =>
    obtain ⟨given, present, rfl⟩ := List.mem_map.mp member
    exact .word (genuine given (Option.mem_toList.mp present))
  | .function value, genuine =>
    rcases List.mem_append.mp member with own | param
    · obtain ⟨given, present, rfl⟩ := List.mem_map.mp own
      exact .word (genuine.1 given (Option.mem_toList.mp present))
    · obtain ⟨p, present, rfl⟩ := List.mem_map.mp param
      exact .word (genuine.2 p present)
  | .classDef value, genuine =>
    obtain ⟨given, present, rfl⟩ := List.mem_map.mp member
    exact .word (genuine.1 given (Option.mem_toList.mp present))
  | .member value, genuine => exact written_of_key genuine name member
  | .property value, genuine => exact written_of_key genuine name member
  | .expr (.ident _ word), genuine =>
    obtain rfl : name = word := by simpa [spelled] using member
    exact .word genuine
  | .expr (.member _ _ (.name part) _), genuine =>
    obtain rfl : name = part.name := by simpa [spelled] using member
    exact .word genuine

theorem named_of_tidy (tidy : Tidy ls n) : Named (Written ls) n := by
  intro m path
  obtain ⟨-, -, -, -, genuine⟩ := tidy.descendant path
  exact written_of_genuine genuine

/-- What is in scope anywhere in a program holds no name but those of its text. -/
theorem visibleAt_written {source : String} {program : Program}
    (parsed : parseText source = .ok program) : ∃ ls, lexText source = .ok ls ∧
      ∀ caret limits, (visibleAt program.body caret limits).NamedBy (Written ls) := by
  obtain ⟨-, -, ls, -, lexed, -, tidy⟩ := tidy_of_parseText parsed
  refine ⟨ls, lexed, fun caret limits => ?_⟩
  refine visibleAt_keeps (Shape.closed_namedBy fun name => .implied) (fun s member => ?_) caret limits
  exact (named_of_tidy tidy).child (List.mem_map_of_mem member)

end CodeCompletion
