import CodeCompletion.Proofs.Parser.Reach
import CodeCompletion.Proofs.Program.TreeNode

/-! Trees whose spans nest. A node is `Tidy` when its span is made of whole lexemes and has
those of its children inside, in order, and when it is `Genuine`, that is, when the names in it
are those of lexemes; `Found` also says between which lexemes it lies, and `Row` that several
nodes lie one after the other. -/
namespace CodeCompletion.Parser

open TreeNode

variable {α β : Type} {ls : List Lexeme} {i j k m : Nat} {n : TreeNode} {ns : List TreeNode}

/-- The span is made of lexemes from `i` on and before `j`. -/
def Within (ls : List Lexeme) (i j : Nat) (span : Span) : Prop :=
  ∃ a b, i ≤ a ∧ b ≤ j ∧ Spans ls a b span

/-- A key that is no number is the text of a token. -/
def GenuineKey (ls : List Lexeme) : PropertyKey → Prop
  | .ident name => Occurs ls (.word name)
  | .str value => Occurs ls (.str value)
  | .num _ | .computed _ => True

def GenuineName (ls : List Lexeme) : MemberName → Prop
  | .name part => Occurs ls (.word part.name)
  | .computed _ => True

/-- What a node holds besides its span and its children comes from the lexemes too: its names
are words of theirs, a statement in braces reaches as far as the braces, a `return` starts with
its word, and the body of a class has the members inside. -/
def Genuine (ls : List Lexeme) : TreeNode → Prop
  | .stmt (.block span braces) => span = braces.span
  | .stmt (.returns span _) => ∃ i j, Spans ls i j span ∧ tokenAt ls i = some (.word "return")
  | .declarator value => Occurs ls (.word value.target.name)
  | .catchClause value => ∀ name ∈ value.param, Occurs ls (.word name.name)
  | .function value => (∀ name ∈ value.name, Occurs ls (.word name.name)) ∧
      ∀ p ∈ value.params, Occurs ls (.word p.name.name)
  | .classDef value => (∀ name ∈ value.name, Occurs ls (.word name.name)) ∧
      ∃ i j, Spans ls i j value.bodySpan ∧ ∀ entry ∈ value.members, Within ls i j entry.span
  | .member value => GenuineKey ls value.key
  | .property value => GenuineKey ls value.key
  | .expr (.ident _ name) => Occurs ls (.word name)
  | .expr (.member _ _ name _) => GenuineName ls name
  | _ => True

inductive Tidy (ls : List Lexeme) : TreeNode → Prop where
  | node {n : TreeNode} {i j : Nat} (spans : Spans ls i j n.span)
      (inside : ∀ c ∈ n.children, Within ls i j c.span)
      (below : ∀ c ∈ n.children, Tidy ls c)
      (ordered : n.isSequential → n.children.Pairwise fun a b => a.span.Before b.span)
      (genuine : Genuine ls n) : Tidy ls n

/-- A tidy node made of lexemes from `i` on and before `j`. -/
structure Found (ls : List Lexeme) (i j : Nat) (n : TreeNode) : Prop where
  tidy : Tidy ls n
  within : Within ls i j n.span

/-- Nodes that take up one part after the other of the lexemes from `i` on and before `j`. -/
inductive Row (ls : List Lexeme) : Nat → Nat → List TreeNode → Prop where
  | nil {i j : Nat} (le : i ≤ j) : Row ls i j []
  | cons {i j k : Nat} {n : TreeNode} {ns : List TreeNode} (first : Found ls i k n)
      (others : Row ls k j ns) : Row ls i j (n :: ns)

namespace Found

theorem lt (found : Found ls i j n) : i < j := by
  obtain ⟨a, b, starts, stops, spans⟩ := found.within
  have := spans.nonempty
  omega

theorem widen (found : Found ls i j n) (starts : k ≤ i) (stops : j ≤ m) : Found ls k m n := by
  obtain ⟨tidy, a, b, starts', stops', spans⟩ := found
  exact ⟨tidy, a, b, by omega, by omega, spans⟩

theorem startEarlier (found : Found ls i j n) (starts : k ≤ i) : Found ls k j n :=
  found.widen starts (Nat.le_refl j)

theorem stopLater (found : Found ls i j n) (stops : j ≤ m) : Found ls i m n :=
  found.widen (Nat.le_refl i) stops

/-- A node is found between the very ends of its span. -/
theorem tight (found : Found ls i j n) :
    ∃ a b, i ≤ a ∧ b ≤ j ∧ Spans ls a b n.span ∧ Found ls a b n := by
  obtain ⟨tidy, a, b, starts, stops, spans⟩ := found
  exact ⟨a, b, starts, stops, spans, tidy, a, b, Nat.le_refl a, Nat.le_refl b, spans⟩

/-- The children of a node may overlap only where it is said so. -/
theorem of_parts (overlaps : n.isSequential = false) (spans : Spans ls i j n.span)
    (parts : ∀ c ∈ n.children, Found ls i j c) (genuine : Genuine ls n) : Found ls i j n :=
  ⟨.node spans (fun c member => (parts c member).within) (fun c member => (parts c member).tidy)
    (by simp [overlaps]) genuine, i, j, Nat.le_refl i, Nat.le_refl j, spans⟩

end Found

namespace Row

theorem single (found : Found ls i j n) : Row ls i j [n] := .cons found (.nil (Nat.le_refl j))

theorem le (row : Row ls i j ns) : i ≤ j := by
  induction row with
  | nil le => exact le
  | cons first _ ih => exact Nat.le_trans (Nat.le_of_lt first.lt) ih

theorem widen (row : Row ls i j ns) (starts : k ≤ i) (stops : j ≤ m) : Row ls k m ns := by
  induction row generalizing k with
  | nil le => exact .nil (by omega)
  | cons first _ ih => exact .cons (first.startEarlier starts) (ih (Nat.le_refl _) stops)

theorem startEarlier (row : Row ls i j ns) (starts : k ≤ i) : Row ls k j ns :=
  row.widen starts (Nat.le_refl j)

theorem stopLater (row : Row ls i j ns) (stops : j ≤ m) : Row ls i m ns :=
  row.widen (Nat.le_refl i) stops

theorem append {ns' : List TreeNode} (first : Row ls i k ns) (second : Row ls k j ns') :
    Row ls i j (ns ++ ns') := by
  induction first with
  | nil le => exact second.startEarlier le
  | cons found _ ih => exact .cons found (ih second)

/-- What one more item of a list adds to a row. -/
theorem snoc {xs : List α} {x : α} {nodes : α → List TreeNode}
    (first : Row ls i k (xs.flatMap nodes)) (last : Row ls k j (nodes x)) :
    Row ls i j ((xs ++ [x]).flatMap nodes) := by
  simpa using first.append last

theorem found (row : Row ls i j ns) : ∀ n ∈ ns, Found ls i j n := by
  induction row with
  | nil => simp
  | cons first others ih =>
    refine List.forall_mem_cons.mpr ⟨first.stopLater others.le, fun n member => ?_⟩
    exact (ih n member).startEarlier (Nat.le_of_lt first.lt)

theorem ordered (stream : Stream ls) (row : Row ls i j ns) :
    ns.Pairwise fun a b => a.span.Before b.span := by
  induction row with
  | nil => exact .nil
  | cons first others ih =>
    refine ih.cons fun n member => ?_
    obtain ⟨_, b, _, stops, spans⟩ := first.within
    obtain ⟨a, _, starts, _, spans'⟩ := (others.found n member).within
    exact stream.before spans spans' (Nat.le_trans stops starts)

end Row

/-- A node is found where its span is, if its children are a row there. -/
theorem Found.of_row (stream : Stream ls) (spans : Spans ls i j n.span)
    (row : Row ls i j n.children) (genuine : Genuine ls n) : Found ls i j n :=
  ⟨.node spans (fun c member => (row.found c member).within)
    (fun c member => (row.found c member).tidy) (fun _ => row.ordered stream) genuine,
    i, j, Nat.le_refl i, Nat.le_refl j, spans⟩

/-- A node that reaches from its first child to its last one, brackets around them left out. -/
theorem Found.of_cover (stream : Stream ls) {first last : TreeNode} (found : Found ls i k first)
    (row : Row ls k m ns) (found' : Found ls m j last) (own : n.span = first.span.cover last.span)
    (children : n.children = first :: (ns ++ [last])) (genuine : Genuine ls n) :
    Found ls i j n := by
  obtain ⟨a, b, starts, le, spans, tight⟩ := found.tight
  obtain ⟨c, d, le', stops, spans', tight'⟩ := found'.tight
  have := row.le
  have := spans'.nonempty
  have whole : Found ls a d n := by
    refine .of_row stream (own ▸ stream.cover spans spans' ?_ (by omega)) ?_ genuine
    · have := spans.nonempty
      omega
    · rw [children]
      refine .cons (tight.stopLater le) (row.append (.single ?_))
      exact tight'.startEarlier le'
  exact whole.widen starts stops

def Parses (ls : List Lexeme) (p : Parser α) (node : α → TreeNode) : Prop :=
  ∀ i, Reaches ls i p fun j a => Found ls i j (node a)

def Builds (ls : List Lexeme) (i j : Nat) (build : Span → TreeNode) : Prop :=
  i < j ∧ ∀ span, Spans ls i j span → Found ls i j (build span)

theorem Builds.of_row (stream : Stream ls) {build : Span → TreeNode} (lt : i < j)
    (row : ∀ span, Row ls i j (build span).children) (own : ∀ span, (build span).span = span)
    (genuine : ∀ span, Genuine ls (build span)) : Builds ls i j build :=
  ⟨lt, fun span spans => .of_row stream ((own span).symm ▸ spans) (row span) (genuine span)⟩

def Prepares (ls : List Lexeme) (i j : Nat) (p : Parser (Span → α)) (node : α → TreeNode) : Prop :=
  Reaches ls j p fun k build => Builds ls i k fun span => node (build span)

end CodeCompletion.Parser
