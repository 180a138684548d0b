import CodeCompletion.Proofs.Parser.Depth.Mode
import CodeCompletion.Proofs.Parser.Function
import CodeCompletion.Proofs.Program.Descent

/-! Functions, classes and values fit at the depth they are read at, and leave the mode as it
was. A link of a chain is counted before its own parts are read and after the value it is
linked to, so that it fits where that value does; there are no more links than levels are left. -/
namespace CodeCompletion.Parser

open TreeNode

variable {α : Type} {g : Grammar} {m : Mode}

def AllFit (depth : Nat) (ns : List TreeNode) : Prop := ∀ n ∈ ns, FitsAt depth n

section AllFit

variable {d : Nat} {xs ys : List TreeNode} {x : TreeNode}

@[simp] theorem allFit_nil : AllFit d [] := by simp [AllFit]

@[simp] theorem allFit_cons : AllFit d (x :: xs) ↔ FitsAt d x ∧ AllFit d xs := by simp [AllFit]

@[simp] theorem allFit_append : AllFit d (xs ++ ys) ↔ AllFit d xs ∧ AllFit d ys := by
  simp [AllFit,or_imp,forall_and]

@[simp] theorem allFit_map {as : List α} {node : α → TreeNode} :
    AllFit d (as.map node) ↔ ∀ a ∈ as, FitsAt d (node a) := by simp [AllFit]

@[simp] theorem allFit_flatMap {as : List α} {nodes : α → List TreeNode} :
    AllFit d (as.flatMap nodes) ↔ ∀ a ∈ as, AllFit d (nodes a) := by
  simp only [AllFit,List.mem_flatMap]
  constructor
  · intro h a member n inside
    exact h n ⟨a, member, inside⟩
  · rintro h n ⟨a, member, inside⟩
    exact h a member n inside

@[simp] theorem allFit_exprs {values : List Expr} :
    AllFit d (exprs values) ↔ ∀ e ∈ values, FitsAt d (expr e) := allFit_map

@[simp] theorem allFit_exprs? {value : Option Expr} :
    AllFit d (exprs? value) ↔ ∀ e ∈ value, FitsAt d (expr e) := by
  cases value <;> simp [exprs?]

end AllFit

namespace Mode

/-- How many counted nodes a way may come through in what is read with some loops around it. -/
def most (m : Mode) (loops : Nat) : Nat :=
  loops * (maxDepth - m.depth + 1) + longest (maxDepth - m.depth)

variable (m : Mode)

theorem most_zero : m.most 0 = longest (maxDepth - m.depth) := by simp [most]

theorem most_succ (loops : Nat) : m.most (loops + 1) = m.most loops + (maxDepth - m.depth) + 1 := by
  rw [most,most,Nat.succ_mul]
  omega

theorem most_mono {few many : Nat} (le : few ≤ many) : m.most few ≤ m.most many :=
  Nat.add_le_add_right (Nat.mul_le_mul_right _ le) _

/-- The loops of a level are behind one that goes deeper. -/
theorem most_below (room : m.depth < maxDepth) : (m.below room).most 3 = m.most 0 := by
  have level : maxDepth - m.depth = maxDepth - (m.depth + 1) + 1 := by omega
  rw [most_zero,level,longest_succ]
  rfl

end Mode

theorem limited_of_fits {n : TreeNode} (fits : FitsAt m.depth n) (loops : Nat) :
    Limited m.depth (m.most loops) n :=
  Limited.mono fits (Nat.le_refl _) (m.most_zero ▸ m.most_mono (Nat.zero_le loops))

/-- What was read one level deeper, and fits there, fits where the levels of this one are left. -/
theorem limited_level {n : TreeNode} {room : m.depth < maxDepth}
    (fits : FitsAt (m.below room).depth n) :
    Limited (m.below room).depth (longest (maxDepth - m.depth)) n :=
  Limited.mono fits (Nat.le_refl _) (longest_mono (by simp only [Mode.depth_below]; omega))

/-- All rules give back the mode and a node that fits, with the loops of the rule around it; a
statement is read where `in` is an operator. -/
structure Grammar.Bounded (g : Grammar) : Prop where
  statement : ∀ m : Mode, m.noIn = false → Keeps m g.statement fun s => FitsAt m.depth (.stmt s)
  assignment : ∀ m, Keeps m g.assignment fun e => FitsAt m.depth (.expr e)
  expression : ∀ m, Keeps m g.expression fun e => FitsAt m.depth (.expr e)
  binary : ∀ level m, Keeps m (g.binary level) fun e => Limited m.depth (m.most 3) (.expr e)
  unary : ∀ m, Keeps m g.unary fun e => Limited m.depth (m.most 2) (.expr e)
  chain : ∀ m, Keeps m g.chain fun e => Limited m.depth (m.most 2) (.expr e)
  construct : ∀ m, Keeps m g.construct fun e => Limited m.depth (m.most 1) (.expr e)

theorem Grammar.bounded_empty : Grammar.empty.Bounded where
  statement _ _ := .fail
  assignment _ := .fail
  expression _ := .fail
  binary _ _ := .fail
  unary _ := .fail
  chain _ := .fail
  construct _ := .fail

theorem fits_plain {n : TreeNode} (plain : n.isCounted = false) (parts : AllFit m.depth n.children) :
    FitsAt m.depth n := limited_uncounted plain m.room parts

theorem fits_leaf {n : TreeNode} (plain : n.isCounted = false) (leaf : n.children = []) :
    FitsAt m.depth n := fits_plain plain (by simp [leaf])

theorem keeps_optional {p : Parser Expr} {c : Prop} [Decidable c] {P : TreeNode → Prop}
    (h : Keeps m p fun e => P (.expr e)) :
    Keeps m (if c then some <$> p else pure none) fun found => ∀ n ∈ exprs? found, P n := by
  apply Keeps.ite
  · intro _
    apply Keeps.map
    exact h.mono fun e fits => by simpa [exprs?,exprs] using fits
  · intro _
    exact .pure (by simp [exprs?,exprs])

theorem keeps_commaList {close : Token} {item : Parser (α × Bool)} {P : α → Prop}
    (h : Keeps m item fun r => P r.1) :
    Keeps m (g.commaList close item) fun items => ∀ a ∈ items, P a := by
  refine .loop (I := fun found => ∀ a ∈ found, P a) ?_ g.limit [] (by simp)
  intro found inv
  apply steady_accept.before
  intro closed
  apply Keeps.ite
  · intro _
    exact .pure (by simpa using inv)
  intro _
  apply h.bind
  rintro ⟨a, isLast⟩ first
  have both : ∀ b ∈ a :: found, P b := by simpa using ⟨first, inv⟩
  refine .ite_bind (P := fun _ => True) (.ite (fun _ => .pure trivial) fun _ => steady_accept m) ?_
  intro goesOn _
  apply Keeps.ite
  · intro _
    exact .pure both
  intro _
  apply steady_require.before
  intro _
  exact .pure fun b member => both b (List.mem_reverse.mp member)

theorem keeps_anywhere {p : Parser α} {P : α → Prop} (h : Keeps m p P) :
    Keeps m (anywhere p) fun r => P r.1 :=
  h.bind fun _ post => .pure post

namespace Grammar.Bounded

variable (bounded : g.Bounded)
include bounded

theorem computed : Keeps m g.computed fun e => FitsAt m.depth (.expr e) := by
  apply steady_require.before
  intro _
  apply Keeps.bind (.withIn (bounded.expression _))
  intro value fits
  exact steady_require.before fun _ => .pure fits

theorem block (operator : m.noIn = false) : Keeps m g.block fun b => FitsAt m.depth (.block b) := by
  apply steady_require.before
  intro start
  apply Keeps.bind (.collect (P := fun s => FitsAt m.depth (.stmt s)) ?_ g.limit)
  · intro body fits
    apply steady_advance.before
    intro _
    apply steady_finish.before
    intro span
    exact .pure (fits_plain rfl (by simpa [children,stmts] using fits))
  · apply steady_peek.before
    intro got
    split
    · exact .pure (by simp)
    · exact .fail
    · apply (bounded.statement m operator).bind
      intro s fits
      exact .pure (by simpa using fits)

theorem param : Keeps m g.param fun r => AllFit m.depth (exprs? r.1.fallback) := by
  apply steady_accept.before
  intro isRest
  apply steady_ident.before
  intro name
  refine .ite_bind (P := fun _ => True) (.ite (fun _ => .pure trivial) fun _ => steady_accept m) ?_
  intro hasDefault _
  apply Keeps.ite_bind (keeps_optional (bounded.assignment m))
  intro fallback fits
  exact .pure fits

theorem params : Keeps m g.params fun ps => AllFit m.depth (ofParams ps) := by
  apply steady_require.before
  intro _
  apply Keeps.withIn
  refine .mono (keeps_commaList (P := fun p => AllFit m.depth (exprs? p.fallback))
    bounded.param) ?_
  intro ps fits
  simpa [ofParams] using fits

theorem functionBlock : Keeps m g.functionBlock fun b => FitsAt m.depth (.block b) :=
  .withIn (bounded.block rfl)

/-- What follows the name or key of a function. -/
theorem functionRest {name : Option Ident} {start : Span} : Keeps m (do
    let params ← g.params
    let body ← g.functionBlock
    return (⟨name, params, .block body, false, ← finish start⟩ : Function)) fun f =>
      FitsAt m.depth (.function f) := by
  apply bounded.params.bind
  intro params fits
  apply bounded.functionBlock.bind
  intro body fits'
  apply steady_finish.before
  intro span
  exact .pure (fits_plain rfl (by simp [children,ofFunctionBody,fits,fits']))

theorem function {isDeclaration : Bool} :
    Keeps m (g.function isDeclaration) fun f => FitsAt m.depth (.function f) := by
  apply steady_requireWord.before
  intro start
  apply steady_accept.before
  intro _
  apply steady_optionalName.before
  intro name
  exact bounded.functionRest

theorem method {start : Span} :
    Keeps m (g.method start) fun f => FitsAt m.depth (.function f) := bounded.functionRest

theorem arrow : Keeps m g.arrow fun e => FitsAt m.depth (.expr e) := by
  apply steady_currentSpan.before
  intro start
  apply steady_peek.before
  intro got
  -- Both forms of parameters go on in the same way.
  have rest : ∀ ps, AllFit m.depth (ofParams ps) → Keeps m (do
      if ← newlineBefore then fail .newlineBeforeArrow
      let _ ← require .arrow
      let body ←
        if (← peek) = .leftBrace then FunctionBody.block <$> g.functionBlock
        else FunctionBody.expr <$> g.assignment
      let span ← finish start
      return Expr.function span ⟨none, ps, body, true, span⟩) fun e => FitsAt m.depth (.expr e) := by
    intro ps fits
    apply steady_newlineBefore.before
    intro newline
    apply Keeps.ite (fun _ => .fail_bind)
    intro _
    apply steady_require.before
    intro _
    apply steady_peek.before
    intro got
    apply Keeps.ite_bind (P := fun body => AllFit m.depth (ofFunctionBody body))
    · apply Keeps.ite
      · intro _
        apply Keeps.map
        exact bounded.functionBlock.mono fun b fits => by simpa [ofFunctionBody] using fits
      · intro _
        apply Keeps.map
        exact (bounded.assignment m).mono fun e fits => by simpa [ofFunctionBody] using fits
    · intro body fits'
      apply steady_finish.before
      intro span
      have function : FitsAt m.depth (.function ⟨none, ps, body, true, span⟩) :=
        fits_plain rfl (by simp [children,fits,fits'])
      exact .pure (fits_plain rfl (by simpa [children,ofExpr] using function))
  apply Keeps.ite
  · intro _
    apply bounded.params.bind
    intro ps fits
    exact rest ps fits
  · intro _
    apply steady_ident.before
    intro name
    exact rest [⟨name, none, false⟩] (by simp [ofParams])

theorem propertyKey : Keeps m g.propertyKey fun key => AllFit m.depth (ofKey key) := by
  apply steady_peek.before
  intro got
  split
  case h_4 =>
    apply Keeps.map
    exact bounded.computed.mono fun e fits => by simpa [ofKey] using fits
  case h_5 => exact .fail
  all_goals exact steady_advance.before fun _ => .pure (by simp [ofKey])

theorem classMember : Keeps m g.classMember fun e => FitsAt m.depth (.member e) := by
  apply steady_currentSpan.before
  intro start
  apply steady_modifies.before
  intro isStatic
  have rest : Keeps m (do
      let which ← accessor
      let isGenerator ← accept (.op "*")
      let key ← g.propertyKey
      let kind ←
        if (← peek) = .leftParen then
          memberKind key isStatic which <$> Parser.withIn (g.method start)
        else
          if which.isSome || isGenerator then fail (.expectedParameters (← peek))
          let init ← if ← accept (.op "=") then some <$> Parser.withIn g.assignment else pure none
          semicolon
          pure (MemberKind.field init)
      return (⟨key, isStatic, kind, ← finish start⟩ : ClassMember)) fun e =>
        FitsAt m.depth (.member e) := by
    apply steady_accessor.before
    intro which
    apply steady_accept.before
    intro isGenerator
    apply bounded.propertyKey.bind
    intro key fits
    have close : ∀ kind, AllFit m.depth (ofMemberKind kind) → Keeps m (do
        return (⟨key, isStatic, kind, ← finish start⟩ : ClassMember)) fun e =>
          FitsAt m.depth (.member e) := by
      intro kind fits'
      apply steady_finish.before
      intro span
      exact .pure (fits_plain rfl (by simp [children,fits,fits']))
    apply steady_peek.before
    intro got
    apply Keeps.ite
    · intro _
      apply Keeps.bind (P := fun kind => AllFit m.depth (ofMemberKind kind))
      · apply Keeps.map
        apply Keeps.withIn
        apply bounded.method.mono
        intro f fits'
        simpa [ofMemberKind_memberKind] using fits'
      · exact close
    · intro _
      apply Keeps.ite
      · intro _
        exact steady_peek.before fun _ => .fail_bind
      · intro _
        apply steady_accept.before
        intro given
        apply Keeps.ite_bind (keeps_optional (.withIn (bounded.assignment _)))
        intro init fits'
        apply steady_semicolon.before
        intro _
        exact close (.field init) fits'
  apply Keeps.ite
  · intro _
    exact steady_advance.before fun _ => rest
  · intro _
    exact rest

theorem classBody : Keeps m g.classBody fun members => AllFit m.depth (members.map .member) := by
  refine .loop (I := fun found => ∀ e ∈ found, FitsAt m.depth (.member e)) ?_ g.limit [] (by simp)
  intro found fits
  apply steady_accept.before
  intro closed
  apply Keeps.ite
  · intro _
    exact .pure (by simpa using fits)
  intro _
  apply steady_accept.before
  intro separated
  apply Keeps.ite
  · intro _
    exact .pure fits
  intro _
  apply steady_peek.before
  intro got
  apply Keeps.ite (fun _ => .fail_bind)
  intro _
  apply bounded.classMember.bind
  intro entry first
  exact .pure (by simpa using ⟨first, fits⟩)

theorem classDef {isDeclaration : Bool} :
    Keeps m (g.class isDeclaration) fun c => FitsAt m.depth (.classDef c) := by
  apply steady_requireWord.before
  intro start
  apply steady_optionalName.before
  intro name
  apply steady_accept.before
  intro isDerived
  apply Keeps.ite_bind (keeps_optional (P := Limited m.depth (m.most 2)) (bounded.chain m))
  intro parent fits
  apply steady_require.before
  intro bodyStart
  apply bounded.classBody.bind
  intro members fits'
  apply steady_finish.before
  intro bodySpan
  apply steady_finish.before
  intro span
  have enough : m.most 2 ≤ longest (maxDepth - m.depth) + perHeir := by
    rw [m.most_succ,m.most_succ,m.most_zero,perHeir]
    omega
  exact .pure (limited_classDef m.room (fun c member => (fits c member).mono (Nat.le_refl _) enough)
    fits')

theorem spreadable : Keeps m g.spreadable fun e => FitsAt m.depth (.expr e) := by
  apply steady_peek.before
  intro got
  apply Keeps.ite
  · intro _
    apply steady_advance.before
    intro start
    apply (bounded.assignment m).bind
    intro operand fits
    apply steady_finish.before
    intro span
    exact .pure (fits_plain rfl (by simpa [children,ofExpr] using fits))
  · intro _
    exact bounded.assignment m

theorem arguments : Keeps m g.arguments fun values => AllFit m.depth (exprs values) := by
  apply steady_require.before
  intro _
  apply Keeps.withIn
  refine .mono (keeps_commaList (P := fun e => FitsAt m.depth (.expr e))
    (keeps_anywhere bounded.spreadable)) ?_
  intro values fits
  simpa using fits

theorem elements : Keeps m g.elements fun found => AllFit m.depth (exprs (found.filterMap id)) := by
  refine .loop (I := fun found => ∀ e, some e ∈ found → FitsAt m.depth (.expr e)) ?_ g.limit []
    (by simp)
  intro found fits
  apply steady_accept.before
  intro closed
  apply Keeps.ite
  · intro _
    exact .pure (by simpa using fits)
  intro _
  apply steady_accept.before
  intro hole
  apply Keeps.ite
  · intro _
    exact .pure (by simpa using fits)
  intro _
  apply bounded.spreadable.bind
  intro element first
  have both : ∀ e, some e ∈ some element :: found → FitsAt m.depth (.expr e) := by
    intro e member
    rcases List.mem_cons.mp member with same | member
    · cases same
      exact first
    · exact fits e member
  apply steady_accept.before
  intro goesOn
  apply Keeps.ite
  · intro _
    exact .pure both
  intro _
  apply steady_require.before
  intro _
  exact .pure (by simpa [or_imp,forall_and,and_comm] using both)

theorem methodValue {start : Span} :
    Keeps m (g.methodValue start) fun e => FitsAt m.depth (.expr e) := by
  apply bounded.method.bind
  intro f fits
  exact .pure (fits_plain rfl (by simpa [children,ofExpr] using fits))

theorem propertyValue {start : Span} {isGenerator : Bool} {first : Token} :
    Keeps m (g.propertyValue start isGenerator first) fun e => FitsAt m.depth (.expr e) := by
  apply steady_peek.before
  intro got
  apply Keeps.ite (fun _ => bounded.methodValue)
  intro _
  apply Keeps.ite (fun _ => .fail)
  intro _
  apply steady_accept.before
  intro hasValue
  apply Keeps.ite (fun _ => bounded.assignment m)
  intro _
  apply steady_peek.before
  intro got
  have shorthand : ∀ name, Keeps m (do
      if isReserved name then fail (.expectedPropertyColon (← peek))
      else return Expr.ident (← previousSpan) name) fun e => FitsAt m.depth (.expr e) := by
    intro name
    apply Keeps.ite
    · intro _
      exact steady_peek.before fun _ => .fail
    · intro _
      exact steady_previousSpan.before fun span => .pure (fits_leaf rfl rfl)
  split
  · exact shorthand _
  · exact shorthand _
  · exact .fail

theorem property : Keeps m g.property fun p => FitsAt m.depth (.property p) := by
  have close : ∀ (start : Span) (key : PropertyKey) (kind : PropertyKind) (p : Parser Expr),
      AllFit m.depth (ofKey key) → Keeps m p (fun e => FitsAt m.depth (.expr e)) → Keeps m (do
        let value ← p
        return (⟨key, value, kind, ← finish start⟩ : Property)) fun p =>
          FitsAt m.depth (.property p) := by
    intro start key kind p fits keeps
    apply keeps.bind
    intro value fits'
    apply steady_finish.before
    intro span
    exact .pure (fits_plain rfl (by simp [children,fits,fits']))
  apply steady_currentSpan.before
  intro start
  apply steady_propertyAccessor.before
  intro accessor
  split
  next kind =>
    apply steady_advance.before
    intro _
    apply bounded.propertyKey.bind
    intro key fits
    exact close start key kind _ fits bounded.methodValue
  next =>
    apply steady_accept.before
    intro isGenerator
    apply steady_peek.before
    intro first
    apply bounded.propertyKey.bind
    intro key fits
    exact close start key .value _ fits bounded.propertyValue

theorem properties : Keeps m g.properties fun ps => AllFit m.depth (ps.map .property) := by
  have entry : Keeps m (do
      if ← accept .ellipsis then
        let _ ← g.assignment
        return none
      else some <$> g.property) fun entry : Option Property =>
        ∀ p, entry = some p → FitsAt m.depth (.property p) := by
    apply steady_accept.before
    intro isSpread
    apply Keeps.ite
    · intro _
      apply (bounded.assignment m).bind
      intro _ _
      exact .pure (by simp)
    · intro _
      apply Keeps.map
      exact bounded.property.mono fun p fits => by simpa using fits
  apply Keeps.bind (keeps_commaList (keeps_anywhere entry))
  intro entries fits
  refine .pure ?_
  simp only [allFit_map,List.mem_filterMap,id_eq]
  rintro p ⟨entry, member, same⟩
  exact fits entry member p same

theorem wordValue {word : String} :
    Keeps m (g.wordValue word) fun build => ∀ span, FitsAt m.depth (.expr (build span)) := by
  unfold Grammar.wordValue
  split
  case h_6 =>
    apply bounded.function.bind
    intro f fits
    exact .pure fun span => fits_plain rfl (by simpa [children,ofExpr] using fits)
  case h_7 =>
    apply bounded.classDef.bind
    intro c fits
    exact .pure fun span => fits_plain rfl (by simpa [children,ofExpr] using fits)
  case h_8 =>
    exact steady_ident.before fun name => .pure fun span => fits_leaf rfl rfl
  all_goals exact steady_advance.before fun _ => .pure fun span => fits_leaf rfl rfl

theorem value : Keeps m g.value fun e => FitsAt m.depth (.expr e) := by
  apply steady_currentSpan.before
  intro start
  apply steady_peek.before
  intro got
  have literal : ∀ value, Keeps m (do
      let _ ← advance
      return Expr.literal (← finish start) value) fun e => FitsAt m.depth (.expr e) := by
    intro value
    apply steady_advance.before
    intro _
    exact steady_finish.before fun span => .pure (fits_leaf rfl rfl)
  split
  · apply bounded.wordValue.bind
    intro build fits
    exact steady_finish.before fun span => .pure (fits span)
  · exact literal _
  · exact literal _
  · exact literal _
  · exact literal _
  · apply steady_advance.before
    intro _
    apply Keeps.bind (.withIn (bounded.expression _))
    intro inner fits
    exact steady_require.before fun _ => .pure fits
  · apply steady_advance.before
    intro _
    apply Keeps.bind (.withIn bounded.elements)
    intro elements fits
    exact steady_finish.before fun span => .pure (fits_plain rfl fits)
  · apply steady_advance.before
    intro _
    apply Keeps.bind (.withIn bounded.properties)
    intro properties fits
    exact steady_finish.before fun span => .pure (fits_plain rfl fits)
  · exact .fail

end Grammar.Bounded

/-- Where a loop that wraps one node around the other stands, which was started in mode `m` with
`first`: as many levels deeper as there are links around `first`. -/
structure Wraps (m : Mode) (loops : Nat) (first : Expr) (k : Mode) (e : Expr) : Prop where
  links : ∃ links, k.depth = m.depth + links ∧ Linked first links e ∧
    Limited m.depth (m.most loops + links) (.expr e)
  noIn : k.noIn = m.noIn

namespace Wraps

variable {k : Mode} {loops : Nat} {first e : Expr}

theorem start (fits : Limited m.depth (m.most loops) (.expr first)) : Wraps m loops first m first :=
  ⟨⟨0, rfl, .base, fits⟩, rfl⟩

/-- One more link, with what is inside of it read one level deeper. -/
theorem link {next : Expr} (wraps : Wraps m loops first k e) (room : k.depth < maxDepth)
    (around : wrapped (.expr next) = [.expr e])
    (inside : ∀ c ∈ TreeNode.inner (.expr next),
      Limited (k.below room).depth (longest (maxDepth - k.depth)) c) :
    Wraps m loops first (k.below room) next := by
  obtain ⟨⟨links, depth, linked, fits⟩, noIn⟩ := wraps
  refine ⟨⟨links + 1, by simp only [Mode.depth_below]; omega, .link linked around, ?_⟩, noIn⟩
  have enough : longest (maxDepth - k.depth) ≤ m.most loops + links := by
    have fewer := longest_mono (show maxDepth - k.depth ≤ maxDepth - m.depth by omega)
    have least := m.most_mono (Nat.zero_le loops)
    rw [m.most_zero] at least
    omega
  apply limited_counted (by omega) rfl
  · intro c member
    exact (inside c member).mono (by simp only [Mode.depth_below]; omega) enough
  · simpa [around] using fits

theorem limited (wraps : Wraps m loops first k e) :
    Limited m.depth (m.most loops + (maxDepth - m.depth)) (.expr e) := by
  obtain ⟨⟨links, depth, -, fits⟩, -⟩ := wraps
  have room := k.room
  exact fits.mono (Nat.le_refl _) (by omega)

end Wraps

/-- What a rule reads is what `operand` reads in the same place with links around it, no more of
them than there are levels left. -/
def Chains (operand rule : Parser Expr) : Prop :=
  ∀ s e t, s.depth ≤ maxDepth → rule s = .ok e t → ∃ base s' links, operand s = .ok base s' ∧
    Linked base links e ∧ s.depth + links ≤ maxDepth

section Loops

variable {operand : Parser Expr} {rest : Expr → Parser Expr} {loops : Nat}

theorem keeps_levelled (first : Keeps m operand fun e => Limited m.depth (m.most loops) (.expr e))
    (links : ∀ first, Limited m.depth (m.most loops) (.expr first) →
      Leads m (rest first) (Wraps m loops first)) :
    Keeps m (levelled (operand >>= rest)) fun e =>
      Limited m.depth (m.most loops + (maxDepth - m.depth)) (.expr e) := by
  apply Keeps.levelled
  apply first.steps
  intro base fits
  exact (links base fits).mono fun k e wraps => ⟨wraps.noIn, wraps.limited⟩

theorem chains_levelled
    (first : ∀ m, Keeps m operand fun e => Limited m.depth (m.most loops) (.expr e))
    (links : ∀ m first, Limited m.depth (m.most loops) (.expr first) →
      Leads m (rest first) (Wraps m loops first)) :
    Chains operand (levelled (operand >>= rest)) := by
  intro s e t room run
  unfold levelled at run
  split at run
  next u step =>
    cases run
    obtain ⟨base, s', read, looped⟩ := bind_eq_ok.mp step
    obtain ⟨m, inMode, rfl, fits⟩ := first ⟨s.depth, s.noIn, room⟩ s base s' ⟨rfl, rfl⟩ read
    obtain ⟨k, -, wraps⟩ := links _ base fits s' _ _ inMode looped
    obtain ⟨count, depth, linked, -⟩ := wraps.links
    exact ⟨base, s', count, read, linked, depth ▸ k.room⟩
  next => cases run

end Loops

def Grammar.constructor (g : Grammar) : Parser Expr := do
  if (← peek) = .word "new" then deeper g.construct else g.value

/-- What a `new` expression constructs: a value or another `new`, and the links after it. -/
def Grammar.callee (g : Grammar) : Parser Expr :=
  levelled (g.constructor >>= Parser.loop g.constructorLink g.limit)

/-- The value that a chain starts with. -/
def Grammar.operand (g : Grammar) : Parser Expr := do
  if (← peek) = .word "new" then g.constructRule else g.value

def Grammar.links (g : Grammar) (start : Span) (first : Expr) : Parser Expr :=
  Parser.loop (fun base => do
    match ← g.link base with
    | some build => return .inl (build (← finish start))
    | none => return .inr base) g.limit first

theorem Grammar.constructRule_eq (g : Grammar) : g.constructRule = do
    let start ← requireWord "new"
    let callee ← g.callee
    let arguments ← if (← peek) = .leftParen then g.arguments else pure []
    return .construct (← finish start) callee arguments := by
  simp only [callee,constructor,bind_assoc,ite_bind]
  rfl

theorem Grammar.chainRule_eq (g : Grammar) :
    g.chainRule = currentSpan >>= fun start => levelled (g.operand >>= g.links start) := by
  simp only [operand,bind_assoc,ite_bind]
  rfl

namespace Grammar.Bounded

variable (bounded : g.Bounded)
include bounded

theorem constructorLink {k : Mode} {first callee : Expr} (wraps : Wraps m 0 first k callee) :
    Leads k (g.constructorLink callee) fun k' r =>
      Sum.elim (Wraps m 0 first k') (Wraps m 0 first k') r := by
  have link : ∀ room name, AllFit (k.below room).depth (ofMemberName name) →
      Leads (k.below room) (do
        return .inl (Expr.member (callee.span.cover (← previousSpan)) callee name false))
          fun k' (r : Expr ⊕ Expr) => Sum.elim (Wraps m 0 first k') (Wraps m 0 first k') r := by
    intro room name parts
    apply steady_previousSpan.leads
    intro last
    exact .pure (wraps.link room rfl fun c member => limited_level (parts c member))
  apply steady_peek.leads
  intro got
  split
  · apply Leads.descend_bind
    intro room
    apply steady_advance.leads
    intro _
    apply steady_propertyName.leads
    intro name
    exact link room (.name name) (by simp [ofMemberName])
  · apply Leads.descend_bind
    intro room
    apply bounded.computed.steps
    intro value fits
    exact link room (.computed value) (by simpa [ofMemberName] using fits)
  · exact .pure wraps

theorem constructor : Keeps m g.constructor fun e => Limited m.depth (m.most 0) (.expr e) := by
  apply steady_peek.before
  intro got
  apply Keeps.ite
  · intro _
    apply Keeps.deeper
    intro room
    -- One `new` inside another has a level of its own.
    refine (bounded.construct _).mono fun e fits => fits.mono (Nat.le_succ _) ?_
    rw [← m.most_below room]
    exact Mode.most_mono _ (by decide)
  · intro _
    exact bounded.value.mono fun e fits => limited_of_fits fits 0

theorem callee_links {first : Expr} (fits : Limited m.depth (m.most 0) (.expr first)) :
    Leads m (Parser.loop g.constructorLink g.limit first) (Wraps m 0 first) :=
  .loop (fun _ _ wraps => bounded.constructorLink wraps) g.limit first (.start fits)

theorem chains_callee : Chains g.constructor g.callee :=
  chains_levelled (fun _ => bounded.constructor) fun _ _ => bounded.callee_links

theorem constructRule : Keeps m g.constructRule fun e => Limited m.depth (m.most 1) (.expr e) := by
  rw [g.constructRule_eq]
  apply steady_requireWord.before
  intro start
  apply Keeps.bind (keeps_levelled bounded.constructor fun _ => bounded.callee_links)
  intro callee fits
  apply steady_peek.before
  intro got
  apply Keeps.ite_bind (P := fun values => AllFit m.depth (exprs values))
  · apply Keeps.ite
    · intro _
      exact bounded.arguments
    · intro _
      exact .pure (by simp)
  · intro values fits'
    apply steady_finish.before
    intro span
    rw [m.most_succ]
    refine .pure (limited_construct fun c member => ?_)
    obtain rfl | member := List.mem_cons.mp member
    · exact fits
    · exact (limited_of_fits (fits' c member) 0).mono (Nat.le_refl _) (Nat.le_add_right _ _)

/-- A link is wrapped around the value before it, one level deeper than it was. -/
theorem link {k : Mode} {first base : Expr} (wraps : Wraps m 1 first k base) :
    Leads k (g.link base) fun k' r => r.elim (Wraps m 1 first k' base) fun build =>
      ∀ span, Wraps m 1 first k' (build span) := by
  have named : ∀ room (name : MemberName) isOptional,
      AllFit (k.below room).depth (ofMemberName name) → ∀ span,
        Wraps m 1 first (k.below room) (.member span base name isOptional) :=
    fun room name _ parts span => wraps.link room rfl fun c member => limited_level (parts c member)
  have called : ∀ room values isOptional, AllFit (k.below room).depth (exprs values) → ∀ span,
      Wraps m 1 first (k.below room) (.call span base values isOptional) :=
    fun room values _ parts span => wraps.link room rfl fun c member => limited_level (parts c member)
  apply steady_peek.leads
  intro got
  split
  · apply Leads.descend_bind
    intro room
    apply steady_advance.leads
    intro _
    apply steady_propertyName.leads
    intro name
    exact .pure (named room (.name name) false (by simp [ofMemberName]))
  · apply Leads.descend_bind
    intro room
    apply steady_advance.leads
    intro _
    apply steady_peek.leads
    intro got
    split
    · apply bounded.arguments.steps
      intro values fits'
      exact .pure (called room values true fits')
    · apply bounded.computed.steps
      intro value fits'
      exact .pure (named room (.computed value) true (by simpa [ofMemberName] using fits'))
    · apply steady_propertyName.leads
      intro name
      exact .pure (named room (.name name) true (by simp [ofMemberName]))
  · apply Leads.descend_bind
    intro room
    apply bounded.computed.steps
    intro value fits'
    exact .pure (named room (.computed value) false (by simpa [ofMemberName] using fits'))
  · apply Leads.descend_bind
    intro room
    apply bounded.arguments.steps
    intro values fits'
    exact .pure (called room values false fits')
  next raw =>
    apply Leads.descend_bind
    intro room
    apply steady_advance.leads
    intro span
    have quoted : FitsAt (k.below room).depth (.expr (.literal span (.template raw))) :=
      fits_leaf rfl rfl
    exact .pure (called room [.literal span (.template raw)] false (by simpa using quoted))
  · exact .pure wraps

theorem operand : Keeps m g.operand fun e => Limited m.depth (m.most 1) (.expr e) := by
  apply steady_peek.before
  intro got
  apply Keeps.ite (fun _ => bounded.constructRule)
  intro _
  exact bounded.value.mono fun e fits => limited_of_fits fits 1

theorem links {start : Span} {first : Expr} (fits : Limited m.depth (m.most 1) (.expr first)) :
    Leads m (g.links start first) (Wraps m 1 first) := by
  refine .loop (I := Wraps m 1 first) ?_ g.limit first (.start fits)
  intro k base wraps
  apply (bounded.link wraps).bind
  intro k' r post
  cases r with
  | none => exact .pure post
  | some build => exact steady_finish.leads fun span => .pure (post span)

theorem chainRule : Keeps m g.chainRule fun e => Limited m.depth (m.most 2) (.expr e) := by
  rw [g.chainRule_eq]
  apply steady_currentSpan.before
  intro start
  refine (keeps_levelled bounded.operand fun _ => bounded.links).mono fun e fits => ?_
  exact fits.mono (Nat.le_refl _) (by rw [m.most_succ 1]; omega)

theorem chains_chainRule : Chains g.operand g.chainRule := by
  intro s e t room run
  rw [g.chainRule_eq] at run
  obtain ⟨start, s', here, run⟩ := bind_eq_ok.mp run
  cases here
  exact chains_levelled (fun _ => bounded.operand) (fun _ _ => bounded.links) _ e t room run

end Grammar.Bounded

end CodeCompletion.Parser
