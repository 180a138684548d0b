import CodeCompletion.Proofs.Analysis.Invariant
import CodeCompletion.Proofs.Shape.Merge

/-! Every shape is well-formed, however it came about: by operations on shapes, each of them made
anywhere inside a shape, or by the analysis of a tree. -/
namespace CodeCompletion

namespace Shape

variable {s t child : Shape}

inductive Edit where
  | addType (type : Facet)
  | addProperty (name : String) (type : Option Facet) (weight : Nat)
  | addPath (path : List String) (weight : Nat)
  | addSource (index : Nat)
  | merge (other : Shape)

namespace Edit

def apply : Edit → Shape → Shape
  | addType type => (·.withType type)
  | addProperty name type weight => (·.declareTyped name type weight)
  | addPath path weight => declarePath weight id path
  | addSource index => (·.changeSource index id)
  | merge other => (Shape.merge · other)

def Sound : Edit → Prop
  | merge other => other.WellFormed
  | _ => True

theorem apply_wellFormed {edit : Edit} (sound : edit.Sound) (valid : s.WellFormed) :
    (edit.apply s).WellFormed := by
  cases edit with
  | addType type => exact valid.withType type
  | addProperty name type weight => exact valid.declareTyped
  | addPath path weight => exact valid.declarePath (fun _ => id) path
  | addSource index => exact valid.changeSource fun _ => id
  | merge other => exact valid.merge sound

end Edit

/-- The shapes that operations lead to, each at the end of some steps from the root. -/
inductive Built : Shape → Prop where
  | empty : Built .empty
  | ofWeight (weight : Nat) : Built (.ofWeight weight)
  | function (weight : Nat) : Built (.function weight)
  | edit {s t : Shape} {edit : Edit} {steps : List Step} (built : Built s) (sound : edit.Sound)
      (edited : modifyAt? edit.apply steps s = some t) : Built t

theorem WellFormed.setStep {step : Step} {old : Shape} (valid : s.WellFormed)
    (found : s.step? step = some old) (inner : child.WellFormed) :
    (s.setStep step child).WellFormed := by
  have regular := valid.here
  cases step with
  | property name =>
    refine of_parts ⟨nodup_upsert name _ regular.names, regular.types, regular.function,
      regular.slots⟩ ?_ ?_
    · intro other given found
      rcases property?_upsert found with before | rfl
      · exact valid.property before
      · exact inner
    · intro index given found
      exact valid.source found
  | source index =>
    obtain ⟨sources, known, -⟩ := Option.bind_eq_some_iff.mp found
    have changed : (s.setStep (.source index) child).sources = some (sources.set index child) := by
      simp [Shape.setStep,known]
    have function : s.isFunction = true := regular.function.mp (by simp [known])
    refine of_parts ⟨regular.names, regular.types, ?_, ?_⟩ ?_ ?_
    · rw [changed]
      exact ⟨fun _ => function, fun _ => rfl⟩
    · intro held same
      cases changed.symm.trans same
      rw [List.length_set]
      exact regular.slots sources known
    · intro name given found
      exact valid.property found
    · intro place given found
      rw [source?,changed,Option.bind_some] at found
      rcases List.mem_or_eq_of_mem_set (List.mem_of_getElem? found) with before | rfl
      · obtain ⟨place', held⟩ := List.mem_iff_getElem?.mp before
        have found' : s.source? place' = some given := by simp [source?,known,held]
        exact valid.source found'
      · exact inner

theorem WellFormed.modifyAt? {change : Shape → Shape} {steps : List Step}
    (keeps : ∀ child, child.WellFormed → (change child).WellFormed) (valid : s.WellFormed)
    (edited : Shape.modifyAt? change steps s = some t) : t.WellFormed := by
  induction steps generalizing s t with
  | nil =>
    cases edited
    exact keeps s valid
  | cons step rest ih =>
    obtain ⟨child, found, edited⟩ := Option.bind_eq_some_iff.mp edited
    obtain ⟨child', inner, same⟩ := Option.bind_eq_some_iff.mp edited
    cases same
    exact valid.setStep found (ih (valid.step found) inner)

theorem Built.wellFormed (built : s.Built) : s.WellFormed := by
  induction built with
  | empty => exact .empty
  | ofWeight weight => exact .ofWeight weight
  | function weight => exact .function weight
  | edit _ sound edited ih => exact ih.modifyAt? (fun _ => Edit.apply_wellFormed sound) edited

theorem closed_wellFormed : Closed (fun _ => True) WellFormed where
  implied _ _ := trivial
  ofWeight := .ofWeight
  withType f valid := valid.withType f
  declare _ valid keeps := valid.declare keeps
  changeSource valid keeps := valid.changeSource keeps
  merge ours theirs := ours.merge theirs
  property valid found := valid.property found
  source valid found := valid.source found

end Shape

open Shape

/-- All shapes are well-formed: those built by operations, and those of an analysis and of the
functions, classes and values in it, for every tree, caret and limits and in every state. -/
theorem shapes_wellFormed :
    (∀ s : Shape, s.Built → s.WellFormed) ∧
    (∀ body caret limits, (visibleAt body caret limits).WellFormed) ∧
    ∀ (limits : Limits) (budget : Budget),
      (∀ function, (shapeOfFunction limits function budget).1.WellFormed) ∧
      (∀ definition, (shapeOfClass limits.shaping definition budget).1.WellFormed) ∧
      ∀ weight depth value,
        (shapeOfValue limits.shaping weight depth value budget).1.WellFormed := by
  refine ⟨fun s => Built.wellFormed, ?_, ?_⟩
  · intro body caret limits
    exact visibleAt_keeps closed_wellFormed (fun s _ => .trivial _) caret limits
  · intro limits budget
    have functions : Shaping.Shapes limits.shaping (fun _ => True) WellFormed :=
      shapes_shapeOfFunction closed_wellFormed limits
    refine ⟨fun function => functions (.trivial _) budget, ?_, ?_⟩
    · intro definition
      exact gives_shapeOfClass closed_wellFormed functions definition (.trivial _) budget
    · intro weight depth value
      exact gives_shapeOfValue closed_wellFormed functions weight depth value (.trivial _) budget

/-- A source that is asked for below a name makes a function of the name. -/
theorem shapes_wellFormed_source_below : ∃ s : Shape, s.Built ∧
    (s.at? [.property "x", .source 3]).isSome = true ∧ s.WellFormed := by
  let name : Edit := .addProperty "x" none 1
  let call : Edit := .addSource 3
  have named : Built (name.apply .empty) := by
    have edited : modifyAt? name.apply [] .empty = some (name.apply .empty) := rfl
    have sound : name.Sound := trivial
    exact .edit .empty sound edited
  obtain ⟨s, edited⟩ : ∃ s, modifyAt? call.apply [.property "x"] (name.apply .empty) = some s :=
    ⟨_, rfl⟩
  have sound : call.Sound := trivial
  have built : s.Built := .edit named sound edited
  refine ⟨s, built, ?_, shapes_wellFormed.1 s built⟩
  cases edited
  rfl

end CodeCompletion
