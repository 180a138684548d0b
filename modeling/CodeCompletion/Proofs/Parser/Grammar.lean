import CodeCompletion.Proofs.Parser.Tidy

/-! The parsers that every rule of the grammar is made of give rows of tidy nodes, if the
rules for what they contain do. -/
namespace CodeCompletion.Parser

open TreeNode

variable {α : Type} {ls : List Lexeme} {i : Nat}

structure Grammar.Sound (ls : List Lexeme) (g : Grammar) : Prop where
  statement : Parses ls g.statement .stmt
  assignment : Parses ls g.assignment .expr
  expression : Parses ls g.expression .expr
  binary : ∀ level, Parses ls (g.binary level) .expr
  unary : Parses ls g.unary .expr
  chain : Parses ls g.chain .expr
  construct : Parses ls g.construct .expr

theorem Grammar.sound_empty : Grammar.empty.Sound ls where
  statement _ := .fail
  assignment _ := .fail
  expression _ := .fail
  binary _ _ := .fail
  unary _ := .fail
  chain _ := .fail
  construct _ := .fail

namespace Parses

variable {p : Parser α} {node : α → TreeNode}

theorem withIn (h : Parses ls p node) : Parses ls (withIn p) node := fun i => .withIn (h i)

theorem deeper (h : Parses ls p node) : Parses ls (deeper p) node := fun i => .deeper (h i)

theorem ite {q : Parser α} (c : Prop) [Decidable c] (yes : Parses ls p node)
    (no : Parses ls q node) : Parses ls (if c then p else q) node := fun i =>
  .ite (fun _ => yes i) fun _ => no i

/-- A part that may be left out. -/
theorem optional (h : Parses ls p node) (c : Prop) [Decidable c] :
    Reaches ls i (if c then some <$> p else pure none) fun j found =>
      Row ls i j (found.toList.map node) :=
  .ite (fun _ => .map ((h i).mono fun _ _ _ found => .single found))
    fun _ => .pure (.nil (Nat.le_refl i))

theorem leftOut (h : Parses ls p node) (c : Prop) [Decidable c] :
    Reaches ls i (if c then pure none else some <$> p) fun j found =>
      Row ls i j (found.toList.map node) :=
  .ite (fun _ => .pure (.nil (Nat.le_refl i)))
    fun _ => .map ((h i).mono fun _ _ _ found => .single found)

end Parses

/-- Items that are collected form a row; `P` is what the step sees when it stops. -/
theorem reaches_collect {step : Parser (Option α)} (node : α → TreeNode) (P : Nat → Prop)
    (h : ∀ k, Reaches ls k step fun j r => r.elim (P j) fun a => Found ls k j (node a))
    (limit : Nat) : Reaches ls i (collect limit step) fun j items =>
      Row ls i j (items.map node) ∧ P j := by
  refine .collect (I := fun k found => Row ls i k (found.map node)) (fun k found _ row => ?_)
    limit (.nil (Nat.le_refl i))
  refine (h k).mono fun j r le post => ?_
  cases r with
  | none => exact ⟨row.stopLater le, post⟩
  | some a => simpa using row.append (.single post)

section Rules

variable {g : Grammar} (stream : Stream ls)
include stream

/-- The nodes of the items of a list form a row, and what holds of each item as it is read
holds of all of them. -/
theorem reaches_commaList {close : Token} {item : Parser (α × Bool)} {P : α → Prop}
    (nodes : α → List TreeNode) (notEnd : close ≠ .endOfInput)
    (h : ∀ k, Reaches ls k item fun j r => Row ls k j (nodes r.1) ∧ P r.1) :
    Reaches ls i (g.commaList close item) fun j items =>
      Row ls i j (items.flatMap nodes) ∧ ∀ a ∈ items, P a := by
  refine .loop (I := fun k found => Row ls i k (found.reverse.flatMap nodes) ∧
    ∀ a ∈ found.reverse, P a) (fun k found _ ⟨row, all⟩ => ?_) g.limit [] ⟨.nil (Nat.le_refl i), by simp⟩
  refine (reaches_accept stream notEnd).bind fun j closed le _ => .ite (fun _ => ?_) fun _ => ?_
  · exact .pure ⟨row.stopLater le, all⟩
  refine (h j).bind fun m r le' ⟨row', last⟩ => ?_
  have all : ∀ a ∈ (r.1 :: found).reverse, P a := by
    intro a member
    simp only [List.reverse_cons,List.mem_append,List.mem_singleton] at member
    exact member.elim (all a) fun same => same ▸ last
  have whole := List.reverse_cons ▸ (row.stopLater le).snoc row'
  refine .ite_bind (P := fun _ _ => True) (.ite (fun _ => .pure trivial) fun _ => ?_) ?_
  · exact (reaches_accept stream (by simp)).mono fun _ _ _ _ => trivial
  intro k goesOn le'' _
  have whole := whole.stopLater le''
  refine .ite (fun _ => .pure ⟨whole, all⟩) fun _ => ?_
  exact .take (reaches_require stream notEnd) fun _ _ =>
    .pure ⟨whole.stopLater (Nat.le_succ k), all⟩

theorem reaches_commaList_anywhere {close : Token} {item : Parser α} (nodes : α → List TreeNode)
    (notEnd : close ≠ .endOfInput) (h : ∀ k, Reaches ls k item fun j a => Row ls k j (nodes a)) :
    Reaches ls i (g.commaList close (anywhere item)) fun j items =>
      Row ls i j (items.flatMap nodes) :=
  (reaches_commaList (P := fun _ => True) stream nodes notEnd fun k =>
    (h k).bind fun _ _ _ row => .pure ⟨row, trivial⟩).mono fun _ _ _ post => post.1

variable (sound : g.Sound ls)
include sound

theorem Grammar.Sound.computed : Parses ls g.computed .expr := fun i => by
  refine .take (reaches_require stream (by simp)) fun _ _ => ?_
  refine (sound.expression.withIn (i + 1)).bind fun j value _ found => ?_
  refine .take (reaches_require stream (by simp)) fun _ _ => ?_
  exact .pure (found.widen (Nat.le_succ i) (Nat.le_succ j))

theorem Grammar.Sound.block : Parses ls g.block .block := fun i => by
  refine .take (reaches_require stream (by simp)) fun start opens => ?_
  refine (reaches_collect .stmt (fun j => tokenAt ls j = some .rightBrace)
    (fun k => ?_) g.limit).bind fun j body le ⟨row, closes⟩ => ?_
  · refine .look reaches_peek fun token here => ?_
    split
    · exact .pure here
    · exact .fail
    · exact (sound.statement k).bind fun _ _ _ found => .pure found
  refine .take (reaches_advance stream closes (by simp)) fun _ _ => ?_
  refine .look (reaches_finish stream opens (by omega)) fun span spans => .pure ?_
  exact .of_row stream spans (row.widen (Nat.le_succ i) (Nat.le_succ j)) trivial

end Rules

end CodeCompletion.Parser
