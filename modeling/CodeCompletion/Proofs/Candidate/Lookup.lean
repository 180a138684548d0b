import CodeCompletion.Candidate.Lookup
import CodeCompletion.Proofs.Candidate.Completions
import Mathlib.Data.Set.Basic

/-! What a look-up finds. Types lead from one shape to others, in cycles if the program is
written so; following each type once misses nothing that a bounded number of steps can reach.
`completions_exact` says which names are offered, without a word on the order of the search. -/
namespace CodeCompletion

namespace Surroundings

variable {s : Surroundings} {p q r : Provider} {seen types : List Facet}

def Leads (s : Surroundings) (p q : Provider) : Prop :=
  ∃ type ∈ typesOf p, q ∈ s.providersOf type

/-- The second place is at most `n` types away from the first one. -/
inductive Reaches (s : Surroundings) : Nat → Provider → Provider → Prop where
  | here {n : Nat} {p : Provider} : Reaches s n p p
  | step {n : Nat} {p q r : Provider} : s.Leads p q → Reaches s n q r → Reaches s (n + 1) p r

theorem mem_followTypes : q ∈ (s.followTypes types seen).1 ↔
    ∃ type ∈ types, type ∉ seen ∧ q ∈ s.providersOf type := by
  fun_induction followTypes s types seen with
  | case1 => simp
  | case2 type rest seen old ih =>
    have old : type ∈ seen := by simpa using old
    rw [ih]
    simp [old]
  | case3 type rest seen new found seen' rest_eq ih =>
    have new : type ∉ seen := by simpa using new
    simp only [rest_eq] at ih
    rw [List.mem_append,ih]
    constructor
    · rintro (here | ⟨other, member, fresh, later⟩)
      · exact ⟨type, List.mem_cons_self, new, here⟩
      · exact ⟨other, List.mem_cons_of_mem _ member, fun old => fresh (List.mem_cons_of_mem _ old),
          later⟩
    · rintro ⟨other, member, fresh, later⟩
      by_cases same : other = type
      · exact Or.inl (same ▸ later)
      · refine Or.inr ⟨other, (List.mem_cons.mp member).resolve_left same, ?_, later⟩
        simp [same,fresh]

theorem mem_seen_followTypes {type : Facet} :
    type ∈ (s.followTypes types seen).2 ↔ type ∈ seen ∨ type ∈ types := by
  fun_induction followTypes s types seen with
  | case1 => simp
  | case2 other rest seen old ih =>
    have old : other ∈ seen := by simpa using old
    rw [ih]
    grind
  | case3 other rest seen new found seen' rest_eq ih =>
    simp only [rest_eq] at ih
    rw [ih]
    grind

theorem reachFrom_sound {steps : Nat} {level : List Provider}
    (found : q ∈ s.reachFrom steps seen level) : ∃ p ∈ level, s.Reaches steps p q := by
  fun_induction reachFrom s steps seen level with
  | case1 => cases found
  | case2 => exact ⟨q, found, .here⟩
  | case3 steps seen level nonempty next seen' next_eq ih =>
    rcases List.mem_append.mp found with here | later
    · exact ⟨q, here, .here⟩
    obtain ⟨p', member, way⟩ := ih later
    have member : p' ∈ (s.followTypes (level.flatMap typesOf) seen).1 := by rwa [next_eq]
    obtain ⟨type, held, -, given⟩ := mem_followTypes.mp member
    obtain ⟨p, place, held⟩ := List.mem_flatMap.mp held
    exact ⟨p, place, .step ⟨type, held, given⟩ way⟩

/-- What the search has found so far: the types of all places before the current level have
been followed, and where followed types lead has been found, at the current level at the
latest. -/
structure Explored (s : Surroundings) (seen : List Facet) (before level : List Provider) :
    Prop where
  followed : ∀ p ∈ before, ∀ type ∈ typesOf p, type ∈ seen
  found : ∀ type ∈ seen, ∀ q ∈ s.providersOf type, q ∈ before ++ level

theorem Explored.next {before level : List Provider} (explored : s.Explored seen before level) :
    s.Explored (s.followTypes (level.flatMap typesOf) seen).2 (before ++ level)
      (s.followTypes (level.flatMap typesOf) seen).1 where
  followed := by
    intro p member type held
    rw [mem_seen_followTypes]
    rcases List.mem_append.mp member with old | new
    · exact Or.inl (explored.followed p old type held)
    · exact Or.inr (List.mem_flatMap.mpr ⟨p, new, held⟩)
  found := by
    intro type member q given
    by_cases old : type ∈ seen
    · exact List.mem_append_left _ (explored.found type old q given)
    · have new := (mem_seen_followTypes.mp member).resolve_left old
      exact List.mem_append_right _ (mem_followTypes.mpr ⟨type, new, old, given⟩)

/-- Nothing new can be reached once a level is empty. -/
theorem Explored.closed {before : List Provider} {n : Nat} (explored : s.Explored seen before [])
    (way : s.Reaches n p q) (member : p ∈ before) : q ∈ before := by
  induction way with
  | here => exact member
  | step leads _ ih =>
    obtain ⟨type, held, given⟩ := leads
    exact ih (by simpa using explored.found type (explored.followed _ member type held) _ given)

/-- A type that was followed on the way to an earlier level is not followed again, so the
induction has to speak of the places found earlier too, and not of the current level alone. -/
theorem reachFrom_complete {steps : Nat} {before level : List Provider}
    (explored : s.Explored seen before level) (member : p ∈ before ++ level)
    (way : s.Reaches steps p q) : q ∈ before ++ s.reachFrom steps seen level := by
  induction steps generalizing seen before level p with
  | zero =>
    cases way
    cases level <;> simpa [reachFrom] using member
  | succ steps ih =>
    cases level with
    | nil =>
      simp only [List.append_nil] at member
      simpa [reachFrom] using explored.closed way member
    | cons first others =>
      have goesOn : before ++ s.reachFrom (steps + 1) seen (first :: others) =
          before ++ (first :: others) ++ s.reachFrom steps
            (s.followTypes ((first :: others).flatMap typesOf) seen).2
            (s.followTypes ((first :: others).flatMap typesOf) seen).1 := by
        simp [reachFrom]
      rw [goesOn]
      cases way with
      | here => exact List.mem_append_left _ member
      | step leads way =>
        obtain ⟨type, held, given⟩ := leads
        have next := explored.next
        exact ih next (next.found type (next.followed _ member type held) _ given) way

/-- The search finds what is within reach, and no more. -/
theorem mem_reach {level : List Provider} :
    q ∈ s.reach level ↔ ∃ p ∈ level, s.Reaches s.limits.shapeDepth p q := by
  constructor
  · exact reachFrom_sound
  · rintro ⟨p, member, way⟩
    have start : s.Explored [] [] level := ⟨by simp, by simp⟩
    exact reachFrom_complete start member way

end Surroundings

namespace Shape

/-- Where a value of a type has its properties: in a source of the function at the origin
of the type, and, if it is an instance, in the `prototype` of that function. -/
def Along (root : Shape) (type : Facet) : Set Shape :=
  {t | ∃ origin, root.get? type.path = some origin ∧
    (origin.source? type.index = some t ∨
      type.index = Facet.ofInstance ∧ origin.property? "prototype" = some t)}

def TypeStep (root s t : Shape) : Prop := ∃ type ∈ s.types.toList, t ∈ root.Along type

inductive Within (root : Shape) : Nat → Shape → Shape → Prop where
  | here {n : Nat} {s : Shape} : Within root n s s
  | step {n : Nat} {s t u : Shape} : root.TypeStep s t → Within root n t u → Within root (n + 1) s u

def Near (root : Shape) (depth : Nat) (shapes : Set Shape) : Set Shape :=
  {t | ∃ s ∈ shapes, root.Within depth s t}

/-- The shapes at the end of a path of names, each taken from near the shapes before it. -/
def Frontier (root : Shape) (depth : Nat) (shapes : Set Shape) : List String → Set Shape
  | [] => shapes
  | name :: rest =>
    Frontier root depth {t | ∃ s ∈ root.Near depth shapes, s.property? name = some t} rest

def startsOf (root : Shape) : IntentKind → Set Shape
  | .identifier | .property => {t | t = root}
  | .string => root.Along (.instanceOf "String")
  | .regex => root.Along (.instanceOf "RegExp")

end Shape

namespace Surroundings

variable {root t : Shape} {limits : Limits} {q : Provider} {level : List Provider}
  {shapes : Set Shape}

def Lists (level : List Provider) (shapes : Set Shape) : Prop :=
  ∀ q, q ∈ level ↔ ∃ t ∈ shapes, q = .shape t

theorem lists_providersOf (type : Facet) :
    Lists (providersOf ⟨root, none, limits⟩ type) (root.Along type) := by
  intro q
  cases found : root.get? type.path with
  | none => simp [providersOf,found,Shape.Along]
  | some origin =>
    have givenBy (given : Option Shape) :
        q ∈ (given.map Provider.shape).toList ↔ ∃ t, given = some t ∧ q = .shape t := by
      cases given <;> simp
    by_cases isInstance : type.index = Facet.ofInstance
    · simp [providersOf,found,isInstance,Shape.Along,-Option.mem_toList,givenBy,or_and_right,
        exists_or]
    · simp [providersOf,found,isInstance,Shape.Along,-Option.mem_toList,givenBy]

theorem lists_startOf (kind : IntentKind) :
    Lists (startOf ⟨root, none, limits⟩ kind) (root.startsOf kind) := by
  cases kind with
  | identifier | property => simp [Lists,startOf,Shape.startsOf]
  | string => exact lists_providersOf (.instanceOf "String")
  | regex => exact lists_providersOf (.instanceOf "RegExp")

/-- Without live objects, types lead from shapes to shapes. -/
theorem reaches_shape_iff {n : Nat} {s : Shape} :
    Reaches ⟨root, none, limits⟩ n (.shape s) q ↔ ∃ t, root.Within n s t ∧ q = .shape t := by
  constructor
  · generalize start : Provider.shape s = p
    intro way
    induction way generalizing s with
    | here => exact ⟨s, .here, start.symm⟩
    | step leads _ ih =>
      subst start
      obtain ⟨type, held, given⟩ := leads
      obtain ⟨t, along, rfl⟩ := (lists_providersOf type _).mp given
      obtain ⟨u, within, last⟩ := ih rfl
      exact ⟨u, .step ⟨type, held, along⟩ within, last⟩
  · rintro ⟨t, within, rfl⟩
    induction within with
    | here => exact .here
    | step steps _ ih =>
      obtain ⟨type, held, along⟩ := steps
      exact .step ⟨type, held, (lists_providersOf type _).mpr ⟨_, along, rfl⟩⟩ ih

theorem Lists.reach (lists : Lists level shapes) :
    Lists (reach ⟨root, none, limits⟩ level) (root.Near limits.shapeDepth shapes) := by
  intro q
  rw [mem_reach]
  constructor
  · rintro ⟨p, member, way⟩
    obtain ⟨s, held, rfl⟩ := (lists p).mp member
    obtain ⟨t, within, last⟩ := reaches_shape_iff.mp way
    exact ⟨t, ⟨s, held, within⟩, last⟩
  · rintro ⟨t, ⟨s, held, within⟩, last⟩
    exact ⟨.shape s, (lists _).mpr ⟨s, held, rfl⟩, reaches_shape_iff.mpr ⟨t, within, last⟩⟩

theorem Lists.followPath (lists : Lists level shapes) (path : List String) :
    Lists (followPath ⟨root, none, limits⟩ path level)
      (root.Frontier limits.shapeDepth shapes path) := by
  induction path generalizing level shapes with
  | nil => exact lists
  | cons name rest ih =>
    apply ih
    intro q
    rw [List.mem_filterMap]
    constructor
    · rintro ⟨p, member, given⟩
      obtain ⟨s, near, rfl⟩ := (lists.reach p).mp member
      obtain ⟨t, held, rfl⟩ := Option.map_eq_some_iff.mp given
      exact ⟨t, ⟨s, near, held⟩, rfl⟩
    · rintro ⟨t, ⟨s, near, held⟩, rfl⟩
      refine ⟨.shape s, (lists.reach _).mpr ⟨s, near, rfl⟩, ?_⟩
      simp [child?,held]

/-- Where the names come from that are offered for an intent. -/
theorem lists_places (root : Shape) (limits : Limits) (intent : Intent) :
    Lists (Surroundings.reach ⟨root, none, limits⟩
      (Surroundings.followPath ⟨root, none, limits⟩ intent.parents
        (startOf ⟨root, none, limits⟩ intent.kind)))
      (root.Near limits.shapeDepth
        (root.Frontier limits.shapeDepth (root.startsOf intent.kind) intent.parents)) :=
  ((lists_startOf intent.kind).followPath intent.parents).reach

/-- A name is offered for a shape if it is one of its properties and may be offered at all. -/
theorem mem_shapeCandidates {typed name : String} :
    (∃ c ∈ shapeCandidates typed (.shape t), c.display = name) ↔
      name ∈ t.names ∧ isEligible typed name = true := by
  simp only [shapeCandidates,List.mem_filterMap,Shape.names,List.mem_map]
  constructor
  · rintro ⟨c, ⟨⟨other, child⟩, member, offered⟩, rfl⟩
    simp only at offered
    split at offered
    next eligible =>
      cases offered
      exact ⟨⟨_, member, rfl⟩, eligible⟩
    next => cases offered
  · rintro ⟨⟨⟨other, child⟩, member, rfl⟩, eligible⟩
    exact ⟨_, ⟨(other, child), member, if_pos eligible⟩, rfl⟩

/-- A name is offered if one of the places has it, in the text or among the live objects. -/
theorem mem_displays_completions_iff {s : Surroundings} {intent : Intent} {name : String} :
    name ∈ (s.completions intent).displays ↔
      ∃ p ∈ s.reach (s.followPath intent.parents (s.startOf intent.kind)),
        (∃ c ∈ shapeCandidates intent.typed p, c.display = name) ∨
        ∃ c ∈ s.objectCandidates intent.typed p, c.display = name := by
  rw [← Completions.get?_isSome_iff,completions,Completions.get?_insertAll,Option.isSome_or,
    Bool.or_eq_true,Completions.get?_isSome_iff,Completions.mem_displays_ofList]
  simp only [List.find?_isSome,List.mem_flatMap,decide_eq_true_eq]
  grind

end Surroundings

open Surroundings

/-- Without live objects, a look-up offers the names of the properties near the end of the
path before the caret, and no others, however types lead into each other. -/
theorem completions_exact (root : Shape) (limits : Limits) (intent : Intent) (name : String) :
    name ∈ (completions ⟨root, none, limits⟩ intent).displays ↔
      (∃ s ∈ root.Near limits.shapeDepth
          (root.Frontier limits.shapeDepth (root.startsOf intent.kind) intent.parents),
        name ∈ s.names) ∧
      isEligible intent.typed name = true := by
  have places := lists_places root limits intent
  have noObjects (level : List Provider) :
      level.flatMap (objectCandidates ⟨root, none, limits⟩ intent.typed) = [] := by
    rw [List.flatMap_eq_nil_iff]
    rintro (shape | id) _ <;> rfl
  rw [completions,noObjects,Completions.insertAll,List.foldl_nil,Completions.mem_displays_ofList]
  constructor
  · rintro ⟨c, member, shown⟩
    obtain ⟨place, found, offered⟩ := List.mem_flatMap.mp member
    obtain ⟨s, near, rfl⟩ := (places place).mp found
    obtain ⟨held, eligible⟩ := mem_shapeCandidates.mp ⟨c, offered, shown⟩
    exact ⟨⟨s, near, held⟩, eligible⟩
  · rintro ⟨⟨s, near, held⟩, eligible⟩
    obtain ⟨c, offered, shown⟩ := mem_shapeCandidates.mpr ⟨held, eligible⟩
    exact ⟨c, List.mem_flatMap.mpr ⟨.shape s, (places _).mpr ⟨s, near, rfl⟩, offered⟩, shown⟩

end CodeCompletion
