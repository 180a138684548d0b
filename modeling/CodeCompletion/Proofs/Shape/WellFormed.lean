import CodeCompletion.Proofs.Shape.Declaration
import Mathlib.Data.List.Nodup

/-! Well-formed shapes: names, origins and indices occur once, and exactly the functions have
sources, two of them at least. Look-ups rely on this when they take a source by its index. What
is done to shapes is described by where each step leads afterwards; that well-formed shapes stay
so follows. -/
namespace CodeCompletion

namespace Facets

variable {s : Facets} {f g : Facet} {origin : String} {entries : List (String × List Nat)}
  {entry : String × List Nat}

/-- Each origin has one entry, which is not empty and has no index twice. -/
structure WellFormed (s : Facets) : Prop where
  origins : (s.entries.map (·.1)).Nodup
  inhabited : ∀ entry ∈ s.entries, entry.2 ≠ []
  indices : ∀ entry ∈ s.entries, entry.2.Nodup

theorem mem_toList : f ∈ s.toList ↔ ∃ entry ∈ s.entries, entry.1 = f.origin ∧ f.index ∈ entry.2 := by
  obtain ⟨origin, index⟩ := f
  simp only [toList,List.mem_flatMap,List.mem_map,Facet.mk.injEq]
  constructor
  · rintro ⟨entry, member, index, held, rfl, rfl⟩
    exact ⟨entry, member, rfl, held⟩
  · rintro ⟨entry, member, same, held⟩
    exact ⟨entry, member, index, held, same, rfl⟩

/-- An entry is an old one, a new one, or an old one with the index added. -/
theorem mem_insertEntry (member : entry ∈ insertEntry f entries) : entry ∈ entries ∨
    entry = (f.origin, [f.index]) ∨ ∃ indices, (f.origin, indices) ∈ entries ∧
      f.index ∉ indices ∧ entry = (f.origin, indices ++ [f.index]) := by
  induction entries with
  | nil => exact Or.inr (Or.inl (List.mem_singleton.mp member))
  | cons first rest ih =>
    obtain ⟨origin, indices⟩ := first
    rw [insertEntry] at member
    by_cases same : origin = f.origin
    · subst same
      rw [if_pos rfl] at member
      rcases List.mem_cons.mp member with rfl | later
      · by_cases held : f.index ∈ indices
        · simp [held]
        · exact Or.inr (Or.inr ⟨indices, List.mem_cons_self, held, by simp [held]⟩)
      · exact Or.inl (List.mem_cons_of_mem _ later)
    · rw [if_neg same] at member
      rcases List.mem_cons.mp member with rfl | later
      · exact Or.inl List.mem_cons_self
      · rcases ih later with old | new | ⟨indices, old, fresh, grown⟩
        · exact Or.inl (List.mem_cons_of_mem _ old)
        · exact Or.inr (Or.inl new)
        · exact Or.inr (Or.inr ⟨indices, List.mem_cons_of_mem _ old, fresh, grown⟩)

theorem origins_insertEntry (f : Facet) (entries : List (String × List Nat)) :
    (insertEntry f entries).map (·.1) =
      if f.origin ∈ entries.map (·.1) then entries.map (·.1) else entries.map (·.1) ++ [f.origin] := by
  induction entries with
  | nil => rfl
  | cons first rest ih =>
    obtain ⟨origin, indices⟩ := first
    rw [insertEntry]
    by_cases same : origin = f.origin
    · simp [same]
    · rw [if_neg same,List.map_cons,ih]
      have differs : f.origin ≠ origin := fun h => same h.symm
      by_cases known : f.origin ∈ rest.map (·.1) <;> simp [known,differs]

theorem insertEntry_holds (f : Facet) (entries : List (String × List Nat)) :
    ∃ entry ∈ insertEntry f entries, entry.1 = f.origin ∧ f.index ∈ entry.2 := by
  induction entries with
  | nil => exact ⟨_, List.mem_cons_self, rfl, List.mem_cons_self⟩
  | cons first rest ih =>
    obtain ⟨origin, indices⟩ := first
    rw [insertEntry]
    by_cases same : origin = f.origin
    · rw [if_pos same]
      refine ⟨_, List.mem_cons_self, same, ?_⟩
      by_cases held : f.index ∈ indices <;> simp [held]
    · rw [if_neg same]
      obtain ⟨entry, member, found⟩ := ih
      exact ⟨entry, List.mem_cons_of_mem _ member, found⟩

theorem insertEntry_keeps (member : entry ∈ entries) :
    ∃ kept ∈ insertEntry f entries, kept.1 = entry.1 ∧ entry.2 ⊆ kept.2 := by
  induction entries with
  | nil => cases member
  | cons first rest ih =>
    obtain ⟨origin, indices⟩ := first
    rw [insertEntry]
    by_cases same : origin = f.origin
    · rw [if_pos same]
      rcases List.mem_cons.mp member with rfl | later
      · refine ⟨_, List.mem_cons_self, rfl, ?_⟩
        by_cases held : f.index ∈ indices <;> simp [held]
      · exact ⟨entry, List.mem_cons_of_mem _ later, rfl, List.Subset.refl _⟩
    · rw [if_neg same]
      rcases List.mem_cons.mp member with rfl | later
      · exact ⟨_, List.mem_cons_self, rfl, List.Subset.refl _⟩
      · obtain ⟨kept, listed, found⟩ := ih later
        exact ⟨kept, List.mem_cons_of_mem _ listed, found⟩

theorem mem_insert : g ∈ (s.insert f).toList ↔ g = f ∨ g ∈ s.toList := by
  obtain ⟨origin, index⟩ := g
  rw [mem_toList,mem_toList]
  constructor
  · rintro ⟨entry, member, same, held⟩
    rcases mem_insertEntry member with old | rfl | ⟨indices, old, -, rfl⟩
    · exact Or.inr ⟨entry, old, same, held⟩
    · cases List.mem_singleton.mp held
      cases same
      exact Or.inl rfl
    · rcases List.mem_append.mp held with earlier | added
      · exact Or.inr ⟨_, old, same, earlier⟩
      · cases List.mem_singleton.mp added
        cases same
        exact Or.inl rfl
  · rintro (rfl | ⟨entry, member, same, held⟩)
    · exact insertEntry_holds _ s.entries
    · obtain ⟨kept, listed, origin, indices⟩ := insertEntry_keeps member
      exact ⟨kept, listed, origin.trans same, indices held⟩

theorem hasOrigin_iff : s.hasOrigin origin = true ↔ origin ∈ s.entries.map (·.1) := by
  simp [hasOrigin]

theorem hasOrigin_insert :
    (s.insert f).hasOrigin origin = true ↔ origin = f.origin ∨ s.hasOrigin origin = true := by
  rw [hasOrigin_iff,hasOrigin_iff,insert,origins_insertEntry]
  by_cases known : f.origin ∈ s.entries.map (·.1)
  · rw [if_pos known]
    constructor
    · exact Or.inr
    · rintro (rfl | old)
      · exact known
      · exact old
  · rw [if_neg known,List.mem_append,List.mem_singleton]
    exact or_comm

theorem wellFormed_empty : empty.WellFormed := ⟨List.nodup_nil, nofun, nofun⟩

namespace WellFormed

theorem insert (valid : s.WellFormed) (f : Facet) : (s.insert f).WellFormed where
  origins := by
    rw [Facets.insert,origins_insertEntry]
    by_cases known : f.origin ∈ s.entries.map (·.1)
    · rw [if_pos known]
      exact valid.origins
    · rw [if_neg known]
      exact List.nodup_append.mpr ⟨valid.origins, List.nodup_singleton _, by grind⟩
  inhabited := by
    intro entry member
    rcases mem_insertEntry member with old | rfl | ⟨indices, -, -, rfl⟩
    · exact valid.inhabited entry old
    · exact List.cons_ne_nil _ _
    · exact List.append_ne_nil_of_right_ne_nil _ (List.cons_ne_nil _ _)
  indices := by
    intro entry member
    rcases mem_insertEntry member with old | rfl | ⟨indices, old, fresh, rfl⟩
    · exact valid.indices entry old
    · exact List.nodup_singleton _
    · exact List.nodup_append.mpr ⟨valid.indices _ old, List.nodup_singleton _, by grind⟩

/-- No origin is there without an index. -/
theorem hasOrigin_iff_mem (valid : s.WellFormed) :
    s.hasOrigin origin = true ↔ ∃ f ∈ s.toList, f.origin = origin := by
  rw [hasOrigin_iff,List.mem_map]
  constructor
  · rintro ⟨entry, member, rfl⟩
    obtain ⟨index, held⟩ := List.exists_mem_of_ne_nil _ (valid.inhabited entry member)
    exact ⟨⟨entry.1, index⟩, mem_toList.mpr ⟨entry, member, rfl, held⟩, rfl⟩
  · rintro ⟨f, member, rfl⟩
    obtain ⟨entry, listed, same, -⟩ := mem_toList.mp member
    exact ⟨entry, listed, same⟩

end WellFormed

end Facets

namespace Shape

variable {s t : Shape} {f : Facet} {name : String} {index count : Nat} {child : Shape}
  {weight : Nat} {change : Shape → Shape}

structure Regular (s : Shape) : Prop where
  names : s.names.Nodup
  types : s.types.WellFormed
  function : s.sources.isSome = true ↔ s.isFunction = true
  slots : ∀ sources ∈ s.sources, 2 ≤ sources.length

/-- A shape is well-formed if it is regular, and so is every shape that steps lead to from it. -/
inductive WellFormed : Shape → Prop where
  | intro {s : Shape} (here : s.Regular)
      (below : ∀ step child, s.step? step = some child → WellFormed child) : WellFormed s

namespace WellFormed

theorem here (valid : s.WellFormed) : s.Regular := by
  cases valid with
  | intro here _ => exact here

theorem step {step : Step} (valid : s.WellFormed) (found : s.step? step = some child) :
    child.WellFormed := by
  cases valid with
  | intro _ below => exact below step child found

theorem property (valid : s.WellFormed) (found : s.property? name = some child) :
    child.WellFormed := by
  have held : s.step? (.property name) = some child := found
  exact valid.step held

theorem source (valid : s.WellFormed) (found : s.source? index = some child) :
    child.WellFormed := by
  have held : s.step? (.source index) = some child := found
  exact valid.step held

/-- Properties and sources apart. -/
theorem of_parts (here : s.Regular)
    (properties : ∀ name child, s.property? name = some child → child.WellFormed)
    (sources : ∀ index child, s.source? index = some child → child.WellFormed) : s.WellFormed := by
  refine .intro here ?_
  intro step child found
  cases step with
  | property name => exact properties name child found
  | source index => exact sources index child found

/-- The weight has no part in it. -/
theorem reweigh (valid : s.WellFormed) (weight : Nat) : { s with weight }.WellFormed := by
  have regular := valid.here
  refine of_parts ⟨regular.names, regular.types, regular.function, regular.slots⟩ ?_ ?_
  · intro name child found
    exact valid.property found
  · intro index child found
    exact valid.source found

theorem ofWeight (weight : Nat) : (Shape.ofWeight weight).WellFormed :=
  of_parts ⟨List.nodup_nil, Facets.wellFormed_empty, by simp [Shape.ofWeight,isFunction,
    Facets.hasOrigin,Facets.empty], nofun⟩ nofun nofun

theorem empty : Shape.empty.WellFormed := ofWeight 0

end WellFormed

section Types

@[simp] theorem types_withType (s : Shape) (f : Facet) : (s.withType f).types = s.types.insert f := by
  rw [withType]
  split <;> rfl

@[simp] theorem properties_withType (s : Shape) (f : Facet) :
    (s.withType f).properties = s.properties := by
  rw [withType]
  split <;> rfl

theorem sources_withType (s : Shape) (f : Facet) : (s.withType f).sources =
    if f.origin = Facet.functionOrigin ∧ s.sources = none then some [empty, empty]
    else s.sources := by
  rw [withType]
  by_cases becomes : f.origin = Facet.functionOrigin ∧ s.sources = none
  · rw [if_pos becomes,if_pos (by simp [becomes])]
  · rw [if_neg becomes,if_neg (by simpa using becomes)]

theorem isFunction_withType :
    (s.withType f).isFunction = true ↔ f.origin = Facet.functionOrigin ∨ s.isFunction = true := by
  rw [isFunction,types_withType,Facets.hasOrigin_insert,eq_comm]
  rfl

/-- A source that comes with a type is empty. -/
theorem source?_withType (found : (s.withType f).source? index = some child) :
    s.source? index = some child ∨ child = empty := by
  rw [source?,sources_withType] at found
  by_cases becomes : f.origin = Facet.functionOrigin ∧ s.sources = none
  · rw [if_pos becomes] at found
    have listed := List.mem_of_getElem? (Option.bind_some _ _ ▸ found)
    exact Or.inr (by simpa using listed)
  · rw [if_neg becomes] at found
    exact Or.inl found

theorem Regular.withType (regular : s.Regular) (f : Facet) : (s.withType f).Regular where
  names := by
    rw [Shape.names,properties_withType]
    exact regular.names
  types := by
    rw [types_withType]
    exact regular.types.insert f
  function := by
    rw [isFunction_withType,sources_withType,← regular.function]
    by_cases becomes : f.origin = Facet.functionOrigin ∧ s.sources = none
    · simp [becomes]
    · rw [if_neg becomes]
      constructor
      · exact Or.inr
      · rintro (same | known)
        · exact Option.isSome_iff_ne_none.mpr fun none => becomes ⟨same, none⟩
        · exact known
  slots := by
    intro sources held
    rw [sources_withType] at held
    split at held
    · cases held
      exact Nat.le_refl _
    · exact regular.slots sources held

theorem WellFormed.withType (valid : s.WellFormed) (f : Facet) : (s.withType f).WellFormed := by
  refine of_parts (valid.here.withType f) ?_ ?_
  · intro name child found
    rw [property?,properties_withType] at found
    exact valid.property found
  · intro index child found
    rcases source?_withType found with old | rfl
    · exact valid.source old
    · exact empty

theorem WellFormed.function (weight : Nat) : (Shape.function weight).WellFormed :=
  (ofWeight weight).withType Facet.function

end Types

section Properties

theorem nodup_upsert (name : String) (update : Option Shape → Shape) {ps : List (String × Shape)}
    (distinct : (ps.map (·.1)).Nodup) : ((upsert name update ps).map (·.1)).Nodup := by
  induction ps with
  | nil => exact List.nodup_singleton _
  | cons entry rest ih =>
    obtain ⟨known, child⟩ := entry
    obtain ⟨fresh, others⟩ := List.nodup_cons.mp distinct
    rw [upsert]
    by_cases same : known = name
    · rw [if_pos same]
      exact distinct
    · rw [if_neg same,List.map_cons]
      refine List.nodup_cons.mpr ⟨?_, ih others⟩
      rw [map_upsert]
      rintro (here | later)
      · exact same here
      · exact fresh later

/-- All look-ups are as before, but for one name. -/
theorem property?_upsert {update : Option Shape → Shape} {other : String}
    {properties : List (String × Shape)} (found : (upsert name update properties).lookup other =
      some child) : properties.lookup other = some child ∨
      child = update (properties.lookup name) := by
  by_cases same : other = name
  · subst same
    rw [lookup_upsert_self] at found
    exact Or.inr (Option.some.inj found).symm
  · rw [lookup_upsert_of_ne _ _ same] at found
    exact Or.inl found

theorem WellFormed.redeclared {known : Option Shape} (valid : ∀ child ∈ known, child.WellFormed)
    (weight : Nat) : (redeclared weight known).WellFormed := by
  cases known with
  | none => exact ofWeight weight
  | some child => exact (valid child rfl).reweigh _

theorem WellFormed.declare (valid : s.WellFormed)
    (keeps : ∀ child, child.WellFormed → (change child).WellFormed) :
    (s.declare name weight change).WellFormed := by
  have regular := valid.here
  refine of_parts ⟨nodup_upsert name _ regular.names, regular.types, regular.function,
    regular.slots⟩ ?_ ?_
  · intro other child found
    by_cases same : other = name
    · subst same
      rw [property?_declare] at found
      cases found
      exact keeps _ (redeclared (fun child known => valid.property known) weight)
    · rw [property?_declare_of_ne same] at found
      exact valid.property found
  · intro index child found
    exact valid.source found

theorem WellFormed.declareTyped (valid : s.WellFormed) {type : Option Facet} :
    (s.declareTyped name type weight).WellFormed := by
  refine valid.declare ?_
  intro child inner
  cases type with
  | none => exact inner
  | some type => exact inner.withType type

theorem WellFormed.declarePath (valid : s.WellFormed)
    (keeps : ∀ child, child.WellFormed → (change child).WellFormed) (path : List String) :
    (Shape.declarePath weight change path s).WellFormed := by
  induction path generalizing s with
  | nil => exact keeps s valid
  | cons name rest ih => exact valid.declare fun child inner => ih inner

end Properties

section Sources

theorem growSources_of_some {sources : List Shape} (known : s.sources = some sources) :
    s.growSources count =
      { s with sources := some (sources ++ List.replicate (count - sources.length) .empty) } := by
  simp [growSources,known]

theorem sources_of_function (known : s.sources = none) :
    (s.withType .function).sources = some [empty, empty] := by
  rw [sources_withType,if_pos ⟨rfl, known⟩]

/-- What is no function becomes one first. -/
theorem growSources_of_none (known : s.sources = none) :
    s.growSources count = (s.withType .function).growSources count := by
  rw [growSources_of_some (sources_of_function known)]
  simp [growSources,known,sources_of_function known]

theorem sources_growSources (regular : s.Regular) (count : Nat) : (s.growSources count).sources =
    some (s.sources.getD [] ++
      List.replicate (max 2 count - (s.sources.getD []).length) .empty) := by
  cases known : s.sources with
  | none =>
    have split : max 2 count = 2 + (count - 2) := by omega
    rw [growSources_of_none known,growSources_of_some (sources_of_function known)]
    simp [split,List.replicate_add]
  | some sources =>
    have slots := regular.slots sources known
    have same : max 2 count - sources.length = count - sources.length := by omega
    rw [growSources_of_some known]
    simp [same]

/-- Old sources stay, and the ones that are added are empty. -/
theorem source?_growSources (regular : s.Regular) (count index : Nat) :
    (s.growSources count).source? index =
      (s.source? index).or (if index < max 2 count then some .empty else none) := by
  rw [source?,sources_growSources regular,Option.bind_some,List.getElem?_append,
    List.getElem?_replicate,source?]
  cases known : s.sources with
  | none => simp
  | some sources =>
    by_cases old : index < sources.length
    · simp [old]
    · have added : index - sources.length < max 2 count - sources.length ↔ index < max 2 count := by
        omega
      simp [old,added]

theorem Regular.growSources (regular : s.Regular) (count : Nat) : (s.growSources count).Regular := by
  have grown {s : Shape} {sources : List Shape} (regular : s.Regular)
      (known : s.sources = some sources) : (s.growSources count).Regular := by
    have slots := regular.slots sources known
    have function : s.isFunction = true := regular.function.mp (by simp [known])
    rw [growSources_of_some known]
    refine ⟨regular.names, regular.types, ⟨fun _ => function, fun _ => rfl⟩, ?_⟩
    intro held same
    cases same
    rw [List.length_append]
    omega
  cases known : s.sources with
  | none =>
    rw [growSources_of_none known]
    exact grown (regular.withType _) (sources_of_function known)
  | some sources => exact grown regular known

@[simp] theorem properties_growSources (s : Shape) (count : Nat) :
    (s.growSources count).properties = s.properties := by
  rw [Shape.growSources]
  split <;> simp

theorem WellFormed.growSources (valid : s.WellFormed) (count : Nat) :
    (s.growSources count).WellFormed := by
  refine of_parts (valid.here.growSources count) ?_ ?_
  · intro name child found
    rw [property?,properties_growSources] at found
    exact valid.property found
  · intro index child found
    rw [source?_growSources valid.here] at found
    rcases Option.or_eq_some_iff.mp found with old | ⟨-, new⟩
    · exact valid.source old
    · split at new
      · cases new
        exact empty
      · cases new

theorem source?_changeSource (regular : s.Regular) (index : Nat) (change : Shape → Shape)
    (place : Nat) : (s.changeSource index change).source? place =
      if index = place then some (change ((s.source? index).getD .empty))
      else (s.growSources (index + 1)).source? place := by
  have grown := source?_growSources regular (index + 1) place
  have slots := sources_growSources regular (index + 1)
  simp only [source?,changeSource,slots,Option.map_some,Option.bind_some,List.getElem?_modify] at grown ⊢
  by_cases same : index = place
  · subst same
    rw [grown,if_pos (by omega : index < max 2 (index + 1)),if_pos rfl]
    cases s.sources.bind (·[index]?) <;> simp
  · simp [same]

theorem Regular.changeSource (regular : s.Regular) (index : Nat) (change : Shape → Shape) :
    (s.changeSource index change).Regular := by
  have grown := regular.growSources (index + 1)
  have held : (s.changeSource index change).sources =
    (s.growSources (index + 1)).sources.map (·.modify index change) := rfl
  refine ⟨grown.names, grown.types, ?_, ?_⟩
  · rw [held,Option.isSome_map]
    exact grown.function
  · intro sources same
    rw [held] at same
    obtain ⟨old, known, rfl⟩ := Option.map_eq_some_iff.mp same
    rw [List.length_modify]
    exact grown.slots old known

theorem WellFormed.changeSource (valid : s.WellFormed)
    (keeps : ∀ child, child.WellFormed → (change child).WellFormed) :
    (s.changeSource index change).WellFormed := by
  have grown := valid.growSources (index + 1)
  refine of_parts (valid.here.changeSource index change) ?_ ?_
  · intro name child found
    exact grown.property found
  · intro place child found
    rw [source?_changeSource valid.here] at found
    split at found
    · cases found
      refine keeps _ ?_
      cases known : s.source? index with
      | none => exact empty
      | some child => exact valid.source known
    · exact grown.source found

end Sources

end Shape

end CodeCompletion
