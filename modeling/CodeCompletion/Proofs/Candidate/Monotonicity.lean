import CodeCompletion.Proofs.Candidate.Lookup
import CodeCompletion.Proofs.Shape.Order

/-! More knowledge offers more. The types that a larger shape has in addition change which types a
look-up follows first, and from which place; what was within reach before is within reach still,
in a shape that knows no less. -/
namespace CodeCompletion

theorem Shape.get_le {a b child : Shape} {path : List String} (le : a ≤ b)
    (found : a.get? path = some child) : ∃ other, b.get? path = some other ∧ child ≤ other := by
  induction path generalizing a b with
  | nil =>
    cases found
    exact ⟨b, rfl, le⟩
  | cons name rest ih =>
    obtain ⟨first, here, later⟩ := Option.bind_eq_some_iff.mp found
    obtain ⟨other, here', le'⟩ := Shape.property_le le here
    obtain ⟨last, found', above⟩ := ih le' later
    exact ⟨last, by rw [Shape.get?,here']; exact found', above⟩

/-- The second place is a shape that knows no less, or the same live object. -/
inductive Provider.Le : Provider → Provider → Prop where
  | shape {s t : Shape} (le : s ≤ t) : Le (.shape s) (.shape t)
  | object {id : ObjectId} : Le (.object id) (.object id)

namespace Surroundings

variable {root root' : Shape} {realm : Option Realm} {limits : Limits} {p p' q : Provider}
  {level level' : List Provider} {typed name : String}

def Covers (level level' : List Provider) : Prop := ∀ p ∈ level, ∃ q ∈ level', p.Le q

theorem Covers.append {more more' : List Provider} (first : Covers level level')
    (second : Covers more more') : Covers (level ++ more) (level' ++ more') := by
  intro p member
  rcases List.mem_append.mp member with early | late
  · obtain ⟨q, found, le⟩ := first p early
    exact ⟨q, List.mem_append_left _ found, le⟩
  · obtain ⟨q, found, le⟩ := second p late
    exact ⟨q, List.mem_append_right _ found, le⟩

theorem covers_objects (found : Option ObjectId) :
    Covers (found.map Provider.object).toList (found.map Provider.object).toList := by
  intro p member
  obtain ⟨id, -, rfl⟩ := Option.map_eq_some_iff.mp (Option.mem_toList.mp member)
  exact ⟨_, member, .object⟩

/-- A shape that may be found, and a larger one that is found whenever it is. -/
theorem covers_shapes {found found' : Option Shape}
    (le : ∀ s, found = some s → ∃ t, found' = some t ∧ s ≤ t) :
    Covers (found.map Provider.shape).toList (found'.map Provider.shape).toList := by
  intro p member
  obtain ⟨s, present, rfl⟩ := Option.map_eq_some_iff.mp (Option.mem_toList.mp member)
  obtain ⟨t, present', above⟩ := le s present
  exact ⟨.shape t, by simp [present'], .shape above⟩

theorem typesOf_le (le : p.Le q) : ∀ type ∈ typesOf p, type ∈ typesOf q := by
  cases le with
  | shape le => exact Shape.types_le le
  | object => exact fun _ => id

section Larger

variable (le : root ≤ root')

include le

theorem covers_providersOf (type : Facet) : Covers (providersOf ⟨root, realm, limits⟩ type)
    (providersOf ⟨root', realm, limits⟩ type) := by
  -- the same step from the function at the origin of the type, in both shapes
  have held (step : Shape.Step) :
      Covers (((root.get? type.path).bind (·.step? step)).map Provider.shape).toList
        (((root'.get? type.path).bind (·.step? step)).map Provider.shape).toList := by
    apply covers_shapes
    intro s found
    obtain ⟨origin, first, found⟩ := Option.bind_eq_some_iff.mp found
    obtain ⟨origin', first', above⟩ := Shape.get_le le first
    obtain ⟨t, found', above⟩ := Shape.step_le above found
    exact ⟨t, by rw [first']; exact found', above⟩
  have source := held (.source type.index)
  have shared := held (.property "prototype")
  simp only [providersOf]
  split
  · exact (source.append shared).append (covers_objects _)
  · exact source

/-- A way from one place to another one is a way of the larger shape too, of the same length. -/
theorem Reaches.larger {n : Nat} (way : Reaches ⟨root, realm, limits⟩ n p q) (start : p.Le p') :
    ∃ q', Reaches ⟨root', realm, limits⟩ n p' q' ∧ q.Le q' := by
  induction way generalizing p' with
  | here => exact ⟨p', .here, start⟩
  | step leads _ ih =>
    obtain ⟨type, held, given⟩ := leads
    obtain ⟨next, given', above⟩ := covers_providersOf le type _ given
    obtain ⟨q', way', above⟩ := ih above
    exact ⟨q', .step ⟨type, typesOf_le start type held, given'⟩ way', above⟩

/-- Which types are followed first does not count: `mem_reach` knows the places that are found
from the ways to them alone. -/
theorem Covers.reach (covers : Covers level level') :
    Covers (Surroundings.reach ⟨root, realm, limits⟩ level)
      (Surroundings.reach ⟨root', realm, limits⟩ level') := by
  intro q member
  obtain ⟨p, first, way⟩ := mem_reach.mp member
  obtain ⟨p', first', above⟩ := covers p first
  obtain ⟨q', way', above⟩ := way.larger le above
  exact ⟨q', mem_reach.mpr ⟨p', first', way'⟩, above⟩

omit le in
theorem child_le (root' : Shape) (start : p.Le p')
    (found : child? ⟨root, realm, limits⟩ name p = some q) :
    ∃ q', child? ⟨root', realm, limits⟩ name p' = some q' ∧ q.Le q' := by
  cases start with
  | shape le =>
    obtain ⟨child, held, rfl⟩ := Option.map_eq_some_iff.mp found
    obtain ⟨other, held', above⟩ := Shape.property_le le held
    exact ⟨.shape other, by simp [child?,held'], .shape above⟩
  | object =>
    -- live objects know nothing of the root
    have same : ∃ id, q = .object id := by
      obtain ⟨realm, -, found⟩ := Option.bind_eq_some_iff.mp found
      obtain ⟨id, -, here⟩ := Option.bind_eq_some_iff.mp found
      cases here
      exact ⟨id, rfl⟩
    obtain ⟨id, rfl⟩ := same
    exact ⟨.object id, found, .object⟩

theorem Covers.followPath (covers : Covers level level') (path : List String) :
    Covers (Surroundings.followPath ⟨root, realm, limits⟩ path level)
      (Surroundings.followPath ⟨root', realm, limits⟩ path level') := by
  induction path generalizing level level' with
  | nil => exact covers
  | cons name rest ih =>
    apply ih
    intro q member
    obtain ⟨p, near, found⟩ := List.mem_filterMap.mp member
    obtain ⟨p', near', above⟩ := covers.reach le p near
    obtain ⟨q', found', above⟩ := child_le root' above found
    exact ⟨q', List.mem_filterMap.mpr ⟨p', near', found'⟩, above⟩

theorem covers_startOf (kind : IntentKind) : Covers (startOf ⟨root, realm, limits⟩ kind)
    (startOf ⟨root', realm, limits⟩ kind) := by
  have start : Covers [.shape root] [.shape root'] := by
    intro p member
    cases List.mem_singleton.mp member
    exact ⟨.shape root', List.mem_singleton_self _, .shape le⟩
  cases kind with
  | identifier => exact start
  | property => exact start
  | string => exact covers_providersOf le (.instanceOf "String")
  | regex => exact covers_providersOf le (.instanceOf "RegExp")

/-- Where the names come from that are offered for an intent. -/
theorem covers_places (intent : Intent) :
    Covers (reach ⟨root, realm, limits⟩ (followPath ⟨root, realm, limits⟩ intent.parents
        (startOf ⟨root, realm, limits⟩ intent.kind)))
      (reach ⟨root', realm, limits⟩ (followPath ⟨root', realm, limits⟩ intent.parents
        (startOf ⟨root', realm, limits⟩ intent.kind))) := by
  apply Covers.reach le
  apply Covers.followPath le
  exact covers_startOf le intent.kind

end Larger

/-- What a place offers, a place that knows no less offers too. -/
theorem offers_le (le : p.Le q)
    (offered : (∃ c ∈ shapeCandidates typed p, c.display = name) ∨
      ∃ c ∈ objectCandidates ⟨root, realm, limits⟩ typed p, c.display = name) :
    (∃ c ∈ shapeCandidates typed q, c.display = name) ∨
      ∃ c ∈ objectCandidates ⟨root', realm, limits⟩ typed q, c.display = name := by
  cases le with
  | object => exact offered
  | @shape s t le =>
    rcases offered with known | ⟨c, none, -⟩
    · obtain ⟨held, eligible⟩ := mem_shapeCandidates.mp known
      exact Or.inl (mem_shapeCandidates.mpr ⟨Shape.names_le le held, eligible⟩)
    · cases none

end Surroundings

open Surroundings

/-- Every name that a look-up offers is offered when more is known, whatever the intent, the live
objects and the limits are, and however types lead into each other. -/
theorem completions_monotone (root root' : Shape) (le : root ≤ root') (realm : Option Realm)
    (limits : Limits) (intent : Intent) (name : String)
    (offered : name ∈ (completions ⟨root, realm, limits⟩ intent).displays) :
    name ∈ (completions ⟨root', realm, limits⟩ intent).displays := by
  obtain ⟨p, near, offered⟩ := mem_displays_completions_iff.mp offered
  obtain ⟨q, near', above⟩ := covers_places le intent p near
  exact mem_displays_completions_iff.mpr ⟨q, near', offers_le above offered⟩

/-- The larger shape has another type for `v`, which comes first and leads to `a` by itself. -/
theorem completions_monotone_two_types : ∃ root root' : Shape, root.WellFormed ∧ root'.WellFormed ∧
    root ≤ root' ∧ ¬ root' ≤ root ∧
    (completions ⟨root, none, {}⟩ ⟨.property, ["v"]⟩).candidates = [⟨"a", "", 1⟩] ∧
    "a" ∈ (completions ⟨root', none, {}⟩ ⟨.property, ["v"]⟩).displays ∧
    (completions ⟨root', none, {}⟩ ⟨.property, ["v"]⟩).candidates = [⟨"a", "", 2⟩] := by
  let known (type : String) (weight : Nat) : Shape :=
    (Shape.empty.declareTyped "v" (some (.instanceOf type)) 0).declare type 0
      (·.changeSource Facet.ofInstance (·.declareTyped "a" none weight))
  have valid (type : String) (weight : Nat) : (known type weight).WellFormed :=
    Shape.WellFormed.empty.declareTyped.declare fun _ inner =>
      inner.changeSource fun _ inner => inner.declareTyped
  have le : known "F" 1 ≤ (known "G" 2).merge (known "F" 1) :=
    Shape.le_merge_right (valid "G" 2) (valid "F" 1)
  have offered : (completions ⟨known "F" 1, none, {}⟩ ⟨.property, ["v"]⟩).candidates =
      [⟨"a", "", 1⟩] := by decide +kernel
  have added : (((known "G" 2).merge (known "F" 1)).property? "G").isSome = true := by decide +kernel
  refine ⟨_, _, valid "F" 1, (valid "G" 2).merge (valid "F" 1), le, ?_, offered, ?_, by decide +kernel⟩
  · intro ge
    obtain ⟨child, found⟩ := Option.isSome_iff_exists.mp added
    obtain ⟨other, found', -⟩ := Shape.property_le ge found
    have absent : (known "F" 1).property? "G" = none := by decide +kernel
    cases absent.symm.trans found'
  · exact completions_monotone _ _ le none {} ⟨.property, ["v"]⟩ "a"
      (Completions.mem_displays.mpr ⟨_, by rw [offered]; exact List.mem_singleton_self _, rfl⟩)

end CodeCompletion
