import CodeCompletion.Parser.State
import CodeCompletion.Proofs.Program.TreeNode

/-! Ways down a syntax tree. The depth of a tree is counted in statements and in the nodes of
operators, accesses and calls. A binary operator, a member access and a call are counted after
their first operand has been read, and of `new` expressions one inside the other all but the
outermost are. What a class extends is read at the depth of the class. -/
namespace CodeCompletion.TreeNode

def isCounted : TreeNode → Bool
  | stmt _ => true
  | expr (.unary ..) | expr (.update _ _ true _) | expr (.binary ..) | expr (.call ..)
  | expr (.construct ..) | expr (.member ..) => true
  | _ => false

def count (n : TreeNode) : Nat := if n.isCounted then 1 else 0

/-- The nodes right below a node that are no deeper than the node itself, as far as the depth
is counted. -/
def wrapped : TreeNode → List TreeNode
  | expr (.binary _ _ left _) => [expr left]
  | expr (.call _ callee _ _) => [expr callee]
  | expr (.member _ object _ _) => [expr object]
  | expr (.construct _ callee arguments) => expr callee :: exprs arguments
  | _ => []

def heritage : TreeNode → List TreeNode
  | classDef value => exprs? value.parent
  | _ => []

def inner : TreeNode → List TreeNode
  | expr (.binary _ _ _ right) => [expr right]
  | expr (.call _ _ arguments _) => exprs arguments
  | expr (.member _ _ name _) => ofMemberName name
  | expr (.construct ..) => []
  | classDef value => value.members.map member
  | n => n.children

theorem children_eq (n : TreeNode) : n.children = n.wrapped ++ (n.heritage ++ n.inner) := by
  cases n with
  | expr value => cases value <;> simp [children,wrapped,heritage,inner,ofExpr]
  | _ => rfl

/-- A way from a node down to a leaf that comes through `counted` counted nodes, leaves `around`
of them for a node that they are wrapped around, and leaves a class for what it extends `heirs`
times. -/
inductive Descent : TreeNode → Nat → Nat → Nat → Prop where
  | leaf {n : TreeNode} : n.children = [] → Descent n n.count 0 0
  | inner {n c : TreeNode} {counted around heirs : Nat} : c ∈ n.inner →
      Descent c counted around heirs → Descent n (n.count + counted) around heirs
  | wrapped {n c : TreeNode} {counted around heirs : Nat} : c ∈ n.wrapped →
      Descent c counted around heirs → Descent n (n.count + counted) (n.count + around) heirs
  | heritage {n c : TreeNode} {counted around heirs : Nat} : c ∈ n.heritage →
      Descent c counted around heirs → Descent n (n.count + counted) around (heirs + 1)

/-- `links` counted nodes around an expression, each of them around the one before. -/
inductive Linked (base : Expr) : Nat → Expr → Prop where
  | base : Linked base 0 base
  | link {links : Nat} {e next : Expr} : Linked base links e → (expr next).wrapped = [expr e] →
      Linked base (links + 1) next

/-- How many counted nodes a way can come through in the levels that are left: on each level one
loop each for operators, for links and for the links of a `new` goes around what is read. -/
def longest (levels : Nat) : Nat := 3 * (levels * (levels + 1) / 2)

theorem longest_succ (levels : Nat) : longest (levels + 1) = 3 * (levels + 1) + longest levels := by
  have next : (levels + 1) * (levels + 1 + 1) = levels * (levels + 1) + 2 * (levels + 1) := by
    rw [← Nat.add_mul,Nat.mul_comm]
  rw [longest,longest,next]
  omega

theorem longest_mono {few many : Nat} (le : few ≤ many) : longest few ≤ longest many := by
  induction le with
  | refl => exact Nat.le_refl _
  | step _ ih =>
    rw [longest_succ]
    omega

def perHeir : Nat := 2 * (Parser.maxDepth + 1)

/-- No way down from a node at a depth comes through more counted nodes than the depth that is
left, apart from those that it leaves for what they are wrapped around, and in no case through
more than `most`, apart from what classes extend. -/
def Limited (depth most : Nat) (n : TreeNode) : Prop :=
  ∀ counted around heirs, Descent n counted around heirs →
    depth + counted ≤ Parser.maxDepth + around ∧ counted ≤ most + heirs * perHeir

/-- A node has its place at a depth, where no loop goes around it. -/
def FitsAt (depth : Nat) (n : TreeNode) : Prop := Limited depth (longest (Parser.maxDepth - depth)) n

variable {n : TreeNode} {d e most more : Nat}

theorem Limited.mono (fits : Limited e most n) (le : d ≤ e) (enough : most ≤ more) :
    Limited d more n := by
  intro counted around heirs way
  have := fits counted around heirs way
  omega

/-- A node that is not counted fits where all nodes right below it do. -/
theorem limited_uncounted (plain : n.isCounted = false) (room : d ≤ Parser.maxDepth)
    (parts : ∀ c ∈ n.children, Limited d most c) : Limited d most n := by
  have none : n.count = 0 := by simp [count,plain]
  simp only [n.children_eq,List.mem_append] at parts
  intro counted around heirs way
  cases way with
  | leaf => omega
  | inner member way =>
    have := parts _ (Or.inr (Or.inr member)) _ _ _ way
    omega
  | wrapped member way =>
    have := parts _ (Or.inl member) _ _ _ way
    omega
  | heritage member way =>
    have := parts _ (Or.inr (Or.inl member)) _ _ _ way
    rw [Nat.succ_mul]
    omega

/-- A class fits where its members do, and what it extends may have two loops around it. -/
theorem limited_classDef {value : Class} (room : d ≤ Parser.maxDepth)
    (parent : ∀ c ∈ exprs? value.parent, Limited d (most + perHeir) c)
    (members : ∀ c ∈ value.members.map member, Limited d most c) : Limited d most (classDef value) := by
  have none : (classDef value).count = 0 := rfl
  intro counted around heirs way
  cases way with
  | leaf => omega
  | inner member way =>
    have := members _ member _ _ _ way
    omega
  | wrapped member => cases member
  | heritage member way =>
    have := parent _ member _ _ _ way
    rw [Nat.succ_mul]
    omega

/-- A counted node fits if what is inside of it fits one level deeper and what it is wrapped
around fits in its own place. -/
theorem limited_counted (room : d < Parser.maxDepth) (own : n.heritage = [])
    (inside : ∀ c ∈ n.inner, Limited (d + 1) most c) (before : ∀ c ∈ n.wrapped, Limited d most c) :
    Limited d (most + 1) n := by
  have one : n.count ≤ 1 := by
    unfold count
    split <;> omega
  intro counted around heirs way
  cases way with
  | leaf => omega
  | inner member way =>
    have := inside _ member _ _ _ way
    omega
  | wrapped member way =>
    have := before _ member _ _ _ way
    omega
  | heritage member =>
    rw [own] at member
    cases member

theorem limited_construct {span : Span} {callee : Expr} {arguments : List Expr}
    (parts : ∀ c ∈ expr callee :: exprs arguments, Limited d most c) :
    Limited d (most + 1) (expr (.construct span callee arguments)) := by
  have one : count (expr (.construct span callee arguments)) = 1 := rfl
  intro counted around heirs way
  cases way with
  | leaf none => cases none
  | inner member => cases member
  | wrapped member way =>
    have := parts _ member _ _ _ way
    omega
  | heritage member => cases member

end CodeCompletion.TreeNode
