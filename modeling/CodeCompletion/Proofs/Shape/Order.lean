import CodeCompletion.Proofs.Shape.Merge
import Mathlib.Order.Defs.PartialOrder

/-! How much is known of a value. A shape is below another one if each of its steps is a step of
the other, to a shape below, and neither types nor weight are lost. Merging two well-formed shapes
gives the least one above both, and nothing that is done to shapes takes anything away. -/
namespace CodeCompletion.Shape

variable {a b c s t : Shape} {f : Facet} {name : String} {child : Shape} {weight : Nat}
  {change change' : Shape → Shape}

/-- All that is known by the first shape is known by the second one. -/
inductive Le : Shape → Shape → Prop where
  | intro {a b : Shape} (weight : a.weight ≤ b.weight)
      (types : ∀ f ∈ a.types.toList, f ∈ b.types.toList)
      (steps : ∀ step, (a.step? step).isSome = true → (b.step? step).isSome = true)
      (below : ∀ step child other, a.step? step = some child → b.step? step = some other →
        Le child other) : Le a b

/-- A shape is larger than those it holds. -/
theorem sizeOf_step? {step : Step} (found : s.step? step = some child) :
    sizeOf child < sizeOf s := by
  obtain ⟨properties, types, weight, sources⟩ := s
  rw [Shape.mk.sizeOf_spec]
  cases step with
  | property name =>
    obtain ⟨before, after, split, -⟩ := List.lookup_eq_some_iff.mp found
    have listed : (name, child) ∈ properties := by
      rw [show properties = before ++ (name, child) :: after from split]
      simp
    have smaller := List.sizeOf_lt_of_mem listed
    rw [Prod.mk.sizeOf_spec] at smaller
    omega
  | source index =>
    obtain ⟨held, present, found⟩ := Option.bind_eq_some_iff.mp found
    cases present
    have smaller := List.sizeOf_lt_of_mem (List.mem_of_getElem? found)
    rw [Option.some.sizeOf_spec]
    omega

theorem Le.refl (a : Shape) : Le a a := by
  refine .intro (Nat.le_refl _) (fun _ => id) (fun _ => id) ?_
  intro step child other found same
  have := sizeOf_step? found
  cases found.symm.trans same
  exact Le.refl child
termination_by sizeOf a

theorem Le.trans {a b c : Shape} (first : Le a b) (second : Le b c) : Le a c := by
  induction first generalizing c with
  | @intro a b weight types steps below ih =>
    cases second with
    | intro weight' types' steps' below' =>
      refine .intro (Nat.le_trans weight weight') (fun f held => types' f (types f held))
        (fun step some => steps' step (steps step some)) ?_
      intro step child other found found'
      obtain ⟨middle, between⟩ := Option.isSome_iff_exists.mp (steps step (by simp [found]))
      exact ih step child middle found between (below' step middle other between found')

instance : Preorder Shape where
  le := Le
  le_refl := Le.refl
  le_trans _ _ _ := Le.trans

section Steps

theorem weight_le (le : a ≤ b) : a.weight ≤ b.weight := by
  cases le with
  | intro weight _ _ _ => exact weight

theorem types_le (le : a ≤ b) : ∀ f ∈ a.types.toList, f ∈ b.types.toList := by
  cases le with
  | intro _ types _ _ => exact types

theorem step_le {step : Step} (le : a ≤ b) (found : a.step? step = some child) :
    ∃ other, b.step? step = some other ∧ child ≤ other := by
  cases le with
  | intro _ _ steps below =>
    obtain ⟨other, found'⟩ := Option.isSome_iff_exists.mp (steps step (by simp [found]))
    exact ⟨other, found', below step child other found found'⟩

theorem property_le (le : a ≤ b) (found : a.property? name = some child) :
    ∃ other, b.property? name = some other ∧ child ≤ other := by
  have held : a.step? (.property name) = some child := found
  exact step_le le held

theorem names_le (le : a ≤ b) (member : name ∈ a.names) : name ∈ b.names := by
  obtain ⟨child, found⟩ := mem_names_iff.mp member
  obtain ⟨other, found', -⟩ := property_le le found
  exact mem_names_iff.mpr ⟨other, found'⟩

theorem source_le {index : Nat} (le : a ≤ b) (found : a.source? index = some child) :
    ∃ other, b.source? index = some other ∧ child ≤ other := by
  have held : a.step? (.source index) = some child := found
  exact step_le le held

/-- What is at the end of some steps stays there and grows. -/
theorem at_le {steps : List Step} (le : a ≤ b) (found : a.at? steps = some child) :
    ∃ other, b.at? steps = some other ∧ child ≤ other := by
  induction steps generalizing a b with
  | nil =>
    cases found
    exact ⟨b, rfl, le⟩
  | cons step rest ih =>
    obtain ⟨first, here, later⟩ := Option.bind_eq_some_iff.mp found
    obtain ⟨other, here', le'⟩ := step_le le here
    obtain ⟨last, found', above⟩ := ih le' later
    exact ⟨last, by rw [at?,here']; exact found', above⟩

theorem le_of_parts (weight : a.weight ≤ b.weight)
    (types : ∀ f ∈ a.types.toList, f ∈ b.types.toList)
    (properties : ∀ name child, a.property? name = some child →
      ∃ other, b.property? name = some other ∧ child ≤ other)
    (sources : ∀ index child, a.source? index = some child →
      ∃ other, b.source? index = some other ∧ child ≤ other) : a ≤ b := by
  have steps : ∀ step child, a.step? step = some child →
      ∃ other, b.step? step = some other ∧ child ≤ other := by
    intro step child found
    cases step with
    | property name => exact properties name child found
    | source index => exact sources index child found
  refine .intro weight types ?_ ?_
  · intro step some
    obtain ⟨child, found⟩ := Option.isSome_iff_exists.mp some
    obtain ⟨other, found', -⟩ := steps step child found
    simp [found']
  · intro step child other found found'
    obtain ⟨given, same, le⟩ := steps step child found
    cases found'.symm.trans same
    exact le

theorem ofWeight_le (heavier : weight ≤ b.weight) : ofWeight weight ≤ b :=
  le_of_parts heavier nofun nofun nofun

theorem empty_le (b : Shape) : empty ≤ b := ofWeight_le (Nat.zero_le _)

/-- What is above a function is one. -/
theorem isSome_sources_le (regular : a.Regular) (le : a ≤ b) (function : a.sources.isSome = true) :
    b.sources.isSome = true := by
  obtain ⟨sources, known⟩ := Option.isSome_iff_exists.mp function
  have slots := regular.slots sources known
  obtain ⟨first, found⟩ : ∃ first, a.source? 0 = some first :=
    ⟨sources[0], by simp [source?,known]⟩
  obtain ⟨other, found', -⟩ := source_le le found
  obtain ⟨slots, given, -⟩ := Option.bind_eq_some_iff.mp found'
  simp [given]

end Steps

section Join

theorem le_merge_left (ours : a.WellFormed) (theirs : b.WellFormed) : a ≤ a.merge b := by
  induction theirs generalizing a with
  | @intro b regular below ih =>
    apply le_of_parts
    · rw [weight_merge]
      exact Nat.le_max_left _ _
    · intro f held
      exact (mem_types_merge regular).mpr (Or.inl held)
    · intro name child found
      rw [property?_merge regular,found]
      cases their : b.property? name with
      | none => exact ⟨child, rfl, le_refl child⟩
      | some given => exact ⟨_, rfl, ih (.property name) given their (ours.property found)⟩
    · intro index child found
      rw [source?_merge ours.here regular,found]
      cases their : b.source? index with
      | none => exact ⟨child, rfl, le_refl child⟩
      | some given => exact ⟨_, rfl, ih (.source index) given their (ours.source found)⟩

theorem le_merge_right (ours : a.WellFormed) (theirs : b.WellFormed) : b ≤ a.merge b := by
  induction theirs generalizing a with
  | @intro b regular below ih =>
    apply le_of_parts
    · rw [weight_merge]
      exact Nat.le_max_right _ _
    · intro f held
      exact (mem_types_merge regular).mpr (Or.inr held)
    · intro name child found
      rw [property?_merge regular,found]
      cases our : a.property? name with
      | none => exact ⟨child, rfl, le_refl child⟩
      | some mine => exact ⟨_, rfl, ih (.property name) child found (ours.property our)⟩
    · intro index child found
      rw [source?_merge ours.here regular,found]
      refine ⟨_, rfl, ih (.source index) child found ?_⟩
      cases our : a.source? index with
      | none => exact .empty
      | some mine => exact ours.source our

theorem merge_le (ours : a.WellFormed) (theirs : b.WellFormed) (left : a ≤ c) (right : b ≤ c) :
    a.merge b ≤ c := by
  induction theirs generalizing a c with
  | @intro b regular below ih =>
    apply le_of_parts
    · rw [weight_merge]
      exact Nat.max_le.mpr ⟨weight_le left, weight_le right⟩
    · intro f held
      rcases (mem_types_merge regular).mp held with mine | given
      · exact types_le left f mine
      · exact types_le right f given
    · intro name child found
      rw [property?_merge regular] at found
      cases their : b.property? name with
      | none =>
        rw [their] at found
        exact property_le left found
      | some given =>
        obtain ⟨other, found', above⟩ := property_le right their
        rw [their] at found
        cases our : a.property? name with
        | none =>
          rw [our] at found
          cases found
          exact ⟨other, found', above⟩
        | some mine =>
          rw [our] at found
          cases found
          obtain ⟨same, again, above'⟩ := property_le left our
          cases found'.symm.trans again
          exact ⟨other, found', ih (.property name) given their (ours.property our) above' above⟩
    · intro index child found
      rw [source?_merge ours.here regular] at found
      cases their : b.source? index with
      | none =>
        rw [their] at found
        exact source_le left found
      | some given =>
        obtain ⟨other, found', above⟩ := source_le right their
        rw [their] at found
        cases found
        refine ⟨other, found', ?_⟩
        cases our : a.source? index with
        | none => exact ih (.source index) given their .empty (empty_le other) above
        | some mine =>
          obtain ⟨same, again, above'⟩ := source_le left our
          cases found'.symm.trans again
          exact ih (.source index) given their (ours.source our) above' above

end Join

structure Rises (s t : Shape) : Prop where
  first : s.WellFormed
  second : t.WellFormed
  le : s ≤ t

/-- Wherever a change is made, the result of the second one knows no less. -/
def Lifts (change change' : Shape → Shape) : Prop :=
  ∀ s t, Rises s t → Rises (change s) (change' t)

namespace Rises

theorem refl (valid : s.WellFormed) : Rises s s := ⟨valid, valid, le_refl s⟩

theorem trans (first : Rises a b) (second : Rises b c) : Rises a c :=
  ⟨first.first, second.second, first.le.trans second.le⟩

theorem property (rises : Rises s t) (found : s.property? name = some child) :
    ∃ other, t.property? name = some other ∧ Rises child other := by
  obtain ⟨other, found', le⟩ := property_le rises.le found
  exact ⟨other, found', rises.first.property found, rises.second.property found', le⟩

theorem source {index : Nat} (rises : Rises s t) (found : s.source? index = some child) :
    ∃ other, t.source? index = some other ∧ Rises child other := by
  obtain ⟨other, found', le⟩ := source_le rises.le found
  exact ⟨other, found', rises.first.source found, rises.second.source found', le⟩

theorem merge_left (ours : a.WellFormed) (theirs : b.WellFormed) : Rises a (a.merge b) :=
  ⟨ours, ours.merge theirs, le_merge_left ours theirs⟩

theorem merge (ours : Rises a b) (theirs : Rises s t) : Rises (a.merge s) (b.merge t) := by
  refine ⟨ours.first.merge theirs.first, ours.second.merge theirs.second, ?_⟩
  apply merge_le ours.first theirs.first
  · exact ours.le.trans (le_merge_left ours.second theirs.second)
  · exact theirs.le.trans (le_merge_right ours.second theirs.second)

end Rises

section Types

theorem le_withType (s : Shape) (f : Facet) : s ≤ s.withType f := by
  apply le_of_parts
  · exact Nat.le_of_eq (weight_withType s f).symm
  · intro g held
    rw [types_withType]
    exact Facets.mem_insert.mpr (Or.inr held)
  · intro name child found
    rw [property?,properties_withType]
    exact ⟨child, found, le_refl child⟩
  · intro index child found
    have kept : (s.withType f).sources = s.sources := by
      obtain ⟨sources, known, -⟩ := Option.bind_eq_some_iff.mp found
      rw [sources_withType,if_neg (by simp [known])]
    rw [source?,kept]
    exact ⟨child, found, le_refl child⟩

/-- Adding a type to what is below a shape that has it leads no further up. -/
theorem withType_le (regular : t.Regular) (le : s ≤ t) (held : f ∈ t.types.toList) :
    s.withType f ≤ t := by
  apply le_of_parts
  · rw [weight_withType]
    exact weight_le le
  · intro g given
    rw [types_withType] at given
    rcases Facets.mem_insert.mp given with rfl | old
    · exact held
    · exact types_le le g old
  · intro name child found
    rw [property?,properties_withType] at found
    exact property_le le found
  · intro index child found
    rw [source?,sources_withType] at found
    split at found
    next becomes =>
      have function : t.isFunction = true :=
        regular.types.hasOrigin_iff_mem.mpr ⟨f, held, becomes.1⟩
      obtain ⟨sources, known⟩ := Option.isSome_iff_exists.mp (regular.function.mpr function)
      have slots := regular.slots sources known
      have place : index < 2 := by
        have := (List.getElem?_eq_some_iff.mp (Option.bind_some _ _ ▸ found)).1
        simpa using this
      have blank : child = empty := by
        have := List.mem_of_getElem? (Option.bind_some _ _ ▸ found)
        simpa using this
      refine ⟨sources[index], ?_, blank ▸ empty_le _⟩
      simp [source?,known]
    next => exact source_le le found

theorem Rises.withType (rises : Rises s t) (f : Facet) : Rises (s.withType f) (t.withType f) := by
  have valid := rises.second.withType f
  refine ⟨rises.first.withType f, valid, ?_⟩
  apply withType_le valid.here (rises.le.trans (le_withType t f))
  rw [types_withType]
  exact Facets.mem_insert.mpr (Or.inl rfl)

theorem Rises.withType_right (valid : s.WellFormed) (f : Facet) : Rises s (s.withType f) :=
  ⟨valid, valid.withType f, le_withType s f⟩

end Types

section Properties

theorem redeclaredWeight_mono {previous previous' : Nat} (le : previous ≤ previous') :
    redeclaredWeight previous weight ≤ redeclaredWeight previous' weight := by
  simp only [redeclaredWeight]
  split <;> split <;> omega

theorem reweigh_le {weight weight' : Nat} (le : s ≤ t) (heavier : weight ≤ weight') :
    { s with weight } ≤ { t with weight := weight' } := by
  apply le_of_parts
  · exact heavier
  · exact (types_le le :)
  · intro name child found
    exact (property_le le found :)
  · intro index child found
    exact (source_le le found :)

theorem redeclared_le {known known' : Option Shape}
    (le : ∀ child ∈ known, ∃ other ∈ known', child ≤ other) :
    redeclared weight known ≤ redeclared weight known' := by
  cases known with
  | none =>
    apply ofWeight_le
    cases known' with
    | none => exact Nat.le_refl _
    | some other => exact Nat.le_max_right _ _
  | some child =>
    obtain ⟨other, same, below⟩ := le child rfl
    cases same
    exact reweigh_le below (redeclaredWeight_mono (weight_le below))

theorem le_redeclared (child : Shape) (weight : Nat) : child ≤ redeclared weight (some child) := by
  obtain ⟨properties, types, previous, sources⟩ := child
  have same : (⟨properties, types, previous, sources⟩ : Shape) ≤ ⟨properties, types, previous, sources⟩ :=
    le_refl _
  exact (reweigh_le same (le_redeclaredWeight previous weight) :)

theorem Rises.declare (rises : Rises s t) (lifts : Lifts change change') :
    Rises (s.declare name weight change) (t.declare name weight change') := by
  refine ⟨rises.first.declare fun child valid => (lifts child child (.refl valid)).first,
    rises.second.declare fun child valid => (lifts child child (.refl valid)).second, ?_⟩
  apply le_of_parts
  · exact (weight_le rises.le :)
  · exact (types_le rises.le :)
  · intro other child found
    by_cases same : other = name
    · subst same
      rw [property?_declare] at found ⊢
      cases found
      refine ⟨_, rfl, (lifts _ _ ⟨?_, ?_, redeclared_le ?_⟩).le⟩
      · exact .redeclared (fun _ known => rises.first.property known) weight
      · exact .redeclared (fun _ known => rises.second.property known) weight
      · intro child known
        exact property_le rises.le known
    · rw [property?_declare_of_ne same] at found ⊢
      exact property_le rises.le found
  · intro index child found
    exact (source_le rises.le found :)

/-- A declaration takes nothing away if what is done to the name does not. -/
theorem Rises.declare_right (valid : s.WellFormed)
    (grows : ∀ child, child.WellFormed → Rises child (change child)) :
    Rises s (s.declare name weight change) := by
  refine ⟨valid, valid.declare fun child inner => (grows child inner).second, ?_⟩
  apply le_of_parts
  · exact Nat.le_refl _
  · exact fun _ => id
  · intro other child found
    by_cases same : other = name
    · subst same
      rw [property?_declare,found]
      refine ⟨_, rfl, (le_redeclared child weight).trans (grows _ ?_).le⟩
      exact (valid.property found).reweigh _
    · rw [property?_declare_of_ne same]
      exact ⟨child, found, le_refl child⟩
  · intro index child found
    exact ⟨child, found, le_refl child⟩

theorem Lifts.path (lifts : Lifts change change') (path : List String) :
    Lifts (declarePath weight change path) (declarePath weight change' path) := by
  induction path with
  | nil => exact lifts
  | cons name rest ih => exact fun s t rises => rises.declare ih

end Properties

section Sources

theorem types_growSources {count : Nat} (function : s.sources.isSome = true) :
    (s.growSources count).types = s.types := by
  obtain ⟨sources, known⟩ := Option.isSome_iff_exists.mp function
  rw [growSources_of_some known]

/-- Only what is a function already is asked for its sources here: a shape that has to become one
gets a type with its sources, which another one that is a function need not have. -/
theorem Rises.changeSource {index : Nat} (rises : Rises s t) (function : s.sources.isSome = true)
    (lifts : Lifts change change') :
    Rises (s.changeSource index change) (t.changeSource index change') := by
  have function' := isSome_sources_le rises.first.here rises.le function
  refine ⟨rises.first.changeSource fun child valid => (lifts child child (.refl valid)).first,
    rises.second.changeSource fun child valid => (lifts child child (.refl valid)).second, ?_⟩
  apply le_of_parts
  · simpa [Shape.changeSource] using weight_le rises.le
  · simpa [Shape.changeSource,types_growSources function,types_growSources function'] using
      types_le rises.le
  · intro name child found
    simp only [Shape.changeSource,property?,properties_growSources] at found ⊢
    exact property_le rises.le found
  · intro place child found
    rw [source?_changeSource rises.first.here] at found
    rw [source?_changeSource rises.second.here]
    by_cases same : index = place
    · rw [if_pos same] at found ⊢
      cases found
      refine ⟨_, rfl, (lifts _ _ ?_).le⟩
      cases known : s.source? index with
      | none =>
        refine ⟨.empty, ?_, empty_le _⟩
        cases known' : t.source? index with
        | none => exact .empty
        | some other => exact rises.second.source known'
      | some child =>
        obtain ⟨other, known', above⟩ := rises.source known
        rw [known']
        exact above
    · rw [if_neg same] at found ⊢
      rw [source?_growSources rises.first.here] at found
      rw [source?_growSources rises.second.here]
      rcases Option.or_eq_some_iff.mp found with old | ⟨-, new⟩
      · obtain ⟨other, known', above⟩ := source_le rises.le old
        exact ⟨other, by rw [known',Option.some_or], above⟩
      · split at new
        next added =>
          cases new
          cases t.source? place with
          | none => exact ⟨.empty, by rw [Option.none_or,if_pos added], le_refl _⟩
          | some other => exact ⟨other, rfl, empty_le other⟩
        next => cases new

theorem Rises.changeSource_right {index : Nat} (valid : s.WellFormed)
    (function : s.sources.isSome = true)
    (grows : ∀ child, child.WellFormed → Rises child (change child)) :
    Rises s (s.changeSource index change) := by
  refine ⟨valid, valid.changeSource fun child inner => (grows child inner).second, ?_⟩
  apply le_of_parts
  · simp [Shape.changeSource]
  · simp [Shape.changeSource,types_growSources function]
  · intro name child found
    simp only [Shape.changeSource,property?,properties_growSources]
    exact ⟨child, found, le_refl child⟩
  · intro place child found
    rw [source?_changeSource valid.here]
    by_cases same : index = place
    · subst same
      rw [if_pos rfl,found]
      exact ⟨_, rfl, (grows child (valid.source found)).le⟩
    · rw [if_neg same,source?_growSources valid.here,found]
      exact ⟨child, rfl, le_refl child⟩

end Sources

end CodeCompletion.Shape
