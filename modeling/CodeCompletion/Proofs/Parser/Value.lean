import CodeCompletion.Proofs.Parser.Function
import Mathlib.Data.List.Basic

/-! Values and what is chained to them are tidy. A link of a chain has the value before it as
its first child, so that the span of the whole chain so far has to reach back to its start. -/
namespace CodeCompletion.Parser

open TreeNode

variable {ls : List Lexeme} {i j : Nat} {g : Grammar}

/-- The parts of a property lie in it; its value may be a method, which starts where the
property does. -/
theorem found_property {span : Span} {key : PropertyKey} {value : Expr} {kind : PropertyKind}
    (spans : Spans ls i j span) (row : Row ls i j (ofKey key)) (genuine : GenuineKey ls key)
    (found : Found ls i j (.expr value)) : Found ls i j (.property ⟨key, value, kind, span⟩) := by
  refine .of_parts rfl spans (fun c member => ?_) genuine
  rcases List.mem_append.mp member with member | member
  · exact row.found c member
  · cases List.mem_singleton.mp member
    exact found

variable (stream : Stream ls)
include stream

theorem reaches_propertyAccessor :
    Reaches ls i propertyAccessor fun j kind => j = i ∧ Sees ls i kind := by
  refine .look reaches_peek fun token here => ?_
  split
  all_goals
    refine .look (P := Sees ls i) (.pure ⟨rfl, ?_⟩) fun kind sees => ?_
    rotate_left
    · refine .look (reaches_peekNext stream) fun next _ => ?_
      split
      case h_5 => exact .pure ⟨rfl, sees⟩
      all_goals exact .pure ⟨rfl, sees_none⟩
  · exact fun _ => ⟨_, here, by simp⟩
  · exact fun _ => ⟨_, here, by simp⟩
  · exact sees_none

namespace Grammar.Sound

variable (sound : g.Sound ls)
include sound

theorem spreadable : Parses ls g.spreadable .expr := fun i => by
  refine .look reaches_peek fun token here => .ite (fun same => ?_) fun _ => sound.assignment i
  refine .take (reaches_advance stream here (by simp [same])) fun start starts => ?_
  refine (sound.assignment (i + 1)).bind fun j operand _ found => ?_
  refine .look (reaches_finish stream starts (by omega)) fun span spans => .pure ?_
  exact .of_row stream spans (.single (found.startEarlier (Nat.le_succ i))) trivial

theorem arguments : Reaches ls i g.arguments fun j values => i < j ∧ Row ls i j (exprs values) := by
  refine .take (reaches_require stream (by simp)) fun _ _ => .withIn ?_
  refine (reaches_commaList_anywhere stream (fun value => [expr value]) (by simp) fun k =>
    (sound.spreadable stream k).mono fun _ _ _ found => .single found).mono fun j values le row => ?_
  rw [← List.map_eq_flatMap] at row
  exact ⟨le, row.startEarlier (Nat.le_succ i)⟩

theorem elements : Reaches ls i g.elements fun j elements =>
    Row ls i j (exprs (elements.filterMap id)) := by
  refine .loop (I := fun k found => Row ls i k (exprs (found.reverse.filterMap id)))
    (fun k found _ row => ?_) g.limit [] (.nil (Nat.le_refl i))
  refine (reaches_accept stream (by simp)).bind fun j _ le _ => .ite (fun _ => ?_) fun _ => ?_
  · exact .pure (row.stopLater le)
  have row := row.stopLater le
  refine (reaches_accept stream (by simp)).bind fun k _ le _ => .ite (fun _ => ?_) fun _ => ?_
  · exact .pure (by simpa using row.stopLater le)
  have row := row.stopLater le
  refine (sound.spreadable stream k).bind fun j element _ found' => ?_
  have row : Row ls i j (exprs ((some element :: found).reverse.filterMap id)) := by
    simpa [exprs] using row.append (.single found')
  refine (reaches_accept stream (by simp)).bind fun k _ le _ => .ite (fun _ => ?_) fun _ => ?_
  · exact .pure (row.stopLater le)
  · exact .take (reaches_require stream (by simp)) fun _ _ =>
      .pure (row.stopLater (by omega))

section Properties

variable {start : Span} {a b : Nat} (starts : Spans ls a b start)
include starts

theorem methodValue (le : b ≤ i) :
    Reaches ls i (g.methodValue start) fun j e => Found ls a j (.expr e) :=
  (sound.method stream starts le).bind fun _ _ _ ⟨spans, found⟩ =>
    .pure (.of_row stream spans (.single found) trivial)

theorem propertyValue {isGenerator : Bool} {first : Token} (le : b ≤ i)
    (given : Occurs ls first) :
    Reaches ls i (g.propertyValue start isGenerator first) fun j e => Found ls a j (.expr e) := by
  have := starts.nonempty
  refine .look reaches_peek fun token _ => .ite (fun _ => ?_) fun _ => ?_
  · exact sound.methodValue stream starts le
  refine .ite (fun _ => .fail) fun _ => ?_
  refine (reaches_accept stream (by simp)).bind fun j _ _ _ => .ite (fun _ => ?_) fun _ => ?_
  · exact (sound.assignment j).mono fun k _ _ found => found.startEarlier (by omega)
  refine .look reaches_peek fun token _ => ?_
  have shorthand : ∀ name, first = .word name → Reaches ls j (do
      if isReserved name then fail (.expectedPropertyColon (← peek))
      else return Expr.ident (← previousSpan) name) fun j e => Found ls a j (.expr e) := by
    intro name same
    have word : Occurs ls (.word name) := same ▸ given
    refine .ite (fun _ => .look reaches_peek fun _ _ => .fail) fun _ => ?_
    refine .look (reaches_previousSpan (by omega)) fun span spans => .pure ?_
    have found : Found ls (j - 1) j (.expr (.ident span name)) :=
      .of_row stream spans (.nil (Nat.sub_le j 1)) word
    exact found.startEarlier (by omega)
  split
  · exact shorthand _ rfl
  · exact shorthand _ rfl
  · exact .fail

end Properties

theorem plainProperty {start : Span} (starts : Spans ls i (i + 1) start) :
    Reaches ls i (g.plainProperty start) fun j p => Found ls i j (.property p) := by
  refine (reaches_accept stream (by simp)).bind fun j _ _ _ => .look reaches_peek fun first here => ?_
  refine (sound.propertyKey stream).bind fun k key _ ⟨_, row, genuine⟩ => ?_
  refine (sound.propertyValue stream starts (by omega) (occurs_of_tokenAt here)).bind
    fun m value _ found => ?_
  refine .look (reaches_finish stream starts (by omega)) fun span spans => .pure ?_
  exact found_property spans (row.widen (by omega) (by omega)) genuine found

theorem property : Parses ls g.property .property := fun i => by
  refine .look reaches_currentSpan fun start starts => ?_
  refine .look (reaches_propertyAccessor stream) fun kind sees => ?_
  split
  · obtain ⟨token, here, notEnd⟩ := sees nofun
    refine .take (reaches_advance stream here notEnd) fun _ _ => ?_
    refine (sound.propertyKey stream).bind fun k key _ ⟨_, row, genuine⟩ => ?_
    refine (sound.methodValue stream starts (by omega)).bind fun m value _ found => ?_
    refine .look (reaches_finish stream starts (by omega)) fun span spans => .pure ?_
    exact found_property spans (row.widen (by omega) (by omega)) genuine found
  · exact sound.plainProperty stream starts

theorem properties : Reaches ls i g.properties fun j ps => Row ls i j (ps.map .property) := by
  refine (reaches_commaList_anywhere stream (fun entry => entry.toList.map .property) (by simp)
    fun k => ?_).bind fun j entries _ row => .pure ?_
  · refine (reaches_accept stream (by simp)).bind fun m _ le _ => .ite (fun _ => ?_) fun _ => ?_
    · exact (sound.assignment m).bind fun j _ le' _ => .pure (.nil (Nat.le_trans le le'))
    · refine .map ((sound.property stream m).mono fun j _ _ found => ?_)
      exact .single (found.startEarlier le)
  · rw [List.filterMap_eq_flatMap_toList,List.map_flatMap]
    exact row

/-- A word makes a node of all lexemes that it takes. -/
theorem wordValue {word : String} (here : tokenAt ls i = some (.word word)) :
    Prepares ls i i (g.wordValue word) .expr := by
  unfold Grammar.wordValue
  split
  case h_6 =>
    refine (sound.function stream false i).bind fun j value _ found => .pure ⟨found.lt, ?_⟩
    exact fun span spans => .of_row stream spans (.single found) trivial
  case h_7 =>
    refine (sound.classDef stream false i).bind fun j value _ found => .pure ⟨found.lt, ?_⟩
    exact fun span spans => .of_row stream spans (.single found) trivial
  case h_8 =>
    refine .take (reaches_ident stream) fun name ⟨_, word⟩ => .pure ⟨Nat.lt_succ_self i, ?_⟩
    exact fun span spans => .of_row stream spans (.nil (Nat.le_succ i)) word
  all_goals
    refine .take (reaches_advance stream here (by simp)) fun _ _ => .pure ⟨Nat.lt_succ_self i, ?_⟩
    exact fun span spans => .of_row stream spans (.nil (Nat.le_succ i)) trivial

theorem value : Parses ls g.value .expr := fun i => by
  refine .look reaches_currentSpan fun start starts => .look reaches_peek fun token here => ?_
  have literal : token ≠ .endOfInput → ∀ value, Reaches ls i (do
      let _ ← advance
      return Expr.literal (← finish start) value) fun j e => Found ls i j (.expr e) := by
    intro notEnd value
    refine .take (reaches_advance stream here notEnd) fun _ _ => ?_
    refine .look (reaches_finish stream starts (Nat.le_refl _)) fun span spans => .pure ?_
    exact .of_row stream spans (.nil (Nat.le_succ i)) trivial
  split
  · refine (sound.wordValue stream here).bind fun j build _ ⟨lt, builds⟩ => ?_
    exact .look (reaches_finish stream starts lt) fun span spans => .pure (builds span spans)
  · exact literal (by simp) _
  · exact literal (by simp) _
  · exact literal (by simp) _
  · exact literal (by simp) _
  · refine .take (reaches_advance stream here (by simp)) fun _ _ => ?_
    refine (sound.expression.withIn (i + 1)).bind fun j inner _ found => ?_
    refine .take (reaches_require stream (by simp)) fun _ _ => .pure ?_
    exact found.widen (Nat.le_succ i) (Nat.le_succ j)
  · refine .take (reaches_advance stream here (by simp)) fun _ _ => ?_
    refine (Reaches.withIn (sound.elements stream)).bind fun j elements _ row => ?_
    refine .look (reaches_finish stream starts (by omega)) fun span spans => .pure ?_
    exact .of_row stream spans (row.startEarlier (Nat.le_succ i)) trivial
  · refine .take (reaches_advance stream here (by simp)) fun _ _ => ?_
    refine (Reaches.withIn (sound.properties stream)).bind fun j properties _ row => ?_
    refine .look (reaches_finish stream starts (by omega)) fun span spans => .pure ?_
    exact .of_row stream spans (row.startEarlier (Nat.le_succ i)) trivial
  · exact .fail

/-- One more link keeps the whole inside what has been read. -/
theorem constructorLink {callee : Expr} (found : Found ls i j (.expr callee)) :
    Reaches ls j (g.constructorLink callee) fun k r =>
      Sum.elim (fun e => Found ls i k (.expr e)) (fun e => Found ls i k (.expr e)) r := by
  obtain ⟨a, b, starts, stops, spans, base⟩ := found.tight
  have link : ∀ k name, j < k → Row ls j k (ofMemberName name) → GenuineName ls name →
      Reaches ls k (do
      return .inl (Expr.member (callee.span.cover (← previousSpan)) callee name false))
        fun k (r : Expr ⊕ Expr) =>
          Sum.elim (fun e => Found ls i k (.expr e)) (fun e => Found ls i k (.expr e)) r := by
    intro k name lt row genuine
    have := spans.nonempty
    refine .look (reaches_previousSpan (by omega)) fun last ends => .pure ?_
    have whole := stream.cover spans ends (by omega) (by omega)
    have member : Found ls a k (.expr (.member (callee.span.cover last) callee name false)) :=
      .of_row stream whole (.cons (base.stopLater stops) row) genuine
    exact member.startEarlier starts
  refine .look reaches_peek fun token here => ?_
  split
  · refine .descend_bind ?_
    refine .take (reaches_advance stream here (by simp)) fun _ _ => ?_
    refine .take (reaches_propertyName stream) fun name ⟨_, word⟩ => ?_
    exact link _ (.name name) (by omega) (.nil (by omega)) word
  · refine .descend_bind ?_
    refine (sound.computed stream j).bind fun k value _ found => ?_
    exact link k (.computed value) found.lt (.single found) trivial
  · exact .pure found

theorem constructRule : Parses ls g.constructRule .expr := fun i => by
  refine .take (reaches_requireWord stream) fun start starts => ?_
  have callee : Reaches ls (i + 1) (levelled do
      let base ← if (← peek) = .word "new" then deeper g.construct else g.value
      loop g.constructorLink g.limit base) fun j e => Found ls (i + 1) j (.expr e) := by
    refine .levelled (.look reaches_peek fun token _ => ?_)
    refine .ite_bind (sound.construct.deeper.ite _ (sound.value stream) (i + 1)) fun j base _ found => ?_
    exact .loop (fun k e _ found => sound.constructorLink stream found) g.limit base found
  refine callee.bind fun j callee _ found => .look reaches_peek fun token _ => ?_
  refine .ite_bind (P := fun k values => Row ls j k (exprs values)) (.ite (fun _ => ?_) fun _ => ?_)
    fun k values _ row => ?_
  · exact (sound.arguments stream).mono fun _ _ _ post => post.2
  · exact .pure (.nil (Nat.le_refl j))
  refine .look (reaches_finish stream starts (by omega)) fun span spans => .pure ?_
  exact .of_row stream spans (.cons (found.startEarlier (Nat.le_succ i)) row) trivial

/-- A link makes a node of all that has been read since the start of the chain. -/
theorem link {base : Expr} (found : Found ls i j (.expr base)) :
    Reaches ls j (g.link base) fun k r =>
      r.elim (Found ls i k (.expr base)) fun build => Builds ls i k fun span => .expr (build span) := by
  have lt := found.lt
  -- Every link adds its own parts after the value before it.
  have linked : ∀ {k ns} {build : Span → Expr}, Row ls j k ns →
      (∀ span, (build span).span = span) →
      (∀ span, (expr (build span)).children = expr base :: ns) →
      (∀ span, Genuine ls (expr (build span))) →
      Builds ls i k fun span => .expr (build span) := by
    intro k ns build row own children genuine
    refine .of_row stream (Nat.lt_of_lt_of_le lt row.le) (fun span => ?_) own genuine
    rw [children]
    exact .cons found row
  refine .look reaches_peek fun token here => ?_
  split
  · refine .descend_bind (.take (reaches_advance stream here (by simp)) fun _ _ => ?_)
    refine .take (reaches_propertyName stream) fun name ⟨_, word⟩ => .pure ?_
    exact linked (.nil (by omega)) (fun _ => rfl) (fun _ => rfl) fun _ => word
  · refine .descend_bind (.take (reaches_advance stream here (by simp)) fun _ _ => ?_)
    refine .look reaches_peek fun token here => ?_
    split
    · refine (sound.arguments stream).bind fun k values _ ⟨_, row⟩ => .pure ?_
      exact linked (row.startEarlier (Nat.le_succ j)) (fun _ => rfl) (fun _ => rfl) fun _ => trivial
    · refine (sound.computed stream (j + 1)).bind fun k value _ found => .pure ?_
      have found := found.startEarlier (Nat.le_succ j)
      exact linked (.single found) (fun _ => rfl) (fun _ => rfl) fun _ => trivial
    · refine .take (reaches_propertyName stream) fun name ⟨_, word⟩ => .pure ?_
      exact linked (.nil (by omega)) (fun _ => rfl) (fun _ => rfl) fun _ => word
  · refine .descend_bind ((sound.computed stream j).bind fun k value _ found => .pure ?_)
    exact linked (.single found) (fun _ => rfl) (fun _ => rfl) fun _ => trivial
  · refine .descend_bind ((sound.arguments stream).bind fun k values _ ⟨_, row⟩ => .pure ?_)
    exact linked row (fun _ => rfl) (fun _ => rfl) fun _ => trivial
  · rename_i raw
    refine .descend_bind (.take (reaches_advance stream here (by simp)) fun inner spans => .pure ?_)
    have quoted : Found ls j (j + 1) (.expr (.literal inner (.template raw))) :=
      .of_row stream spans (.nil (Nat.le_succ j)) trivial
    exact linked (.single quoted) (fun _ => rfl) (fun _ => rfl) fun _ => trivial
  · exact .pure found

theorem chainRule : Parses ls g.chainRule .expr := fun i => by
  refine .look reaches_currentSpan fun start starts => .levelled ?_
  refine .look reaches_peek fun token _ => .ite_bind
    ((sound.constructRule stream).ite _ (sound.value stream) i) fun j base _ found => ?_
  refine .loop (I := fun k e => Found ls i k (.expr e)) (fun k base _ found => ?_) g.limit base found
  refine (sound.link stream found).bind fun m r _ post => ?_
  cases r with
  | none => exact .pure post
  | some build =>
    exact .look (reaches_finish stream starts post.1) fun span spans => .pure (post.2 span spans)

end Grammar.Sound

end CodeCompletion.Parser
