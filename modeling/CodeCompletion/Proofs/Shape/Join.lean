import CodeCompletion.Proofs.Shape.Order
import CodeCompletion.Shape.Equality
import Mathlib.Data.List.Perm.Subperm

/-! Merging as a join. Two well-formed shapes that are below each other are equal, whatever the
order of their declarations, so that all laws of a join hold of merging. -/
namespace CodeCompletion

namespace Facets

variable {s t : Facets} {f : Facet}

theorem nodup_toList (valid : s.WellFormed) : s.toList.Nodup := by
  rw [toList,List.nodup_flatMap]
  constructor
  · intro entry member
    refine (valid.indices entry member).map ?_
    intro i j same
    cases same
    rfl
  · refine (List.pairwise_map.mp valid.origins).imp ?_
    intro entry entry' differs f member member'
    obtain ⟨index, -, rfl⟩ := List.mem_map.mp member
    obtain ⟨index', -, same⟩ := List.mem_map.mp member'
    exact differs (congrArg Facet.origin same).symm

theorem contains_iff : s.contains f = true ↔ f ∈ s.toList := by
  rw [mem_toList]
  simp [contains]

theorem sameAs_iff (ours : s.WellFormed) (theirs : t.WellFormed) :
    s.sameAs t = true ↔ ∀ f, f ∈ s.toList ↔ f ∈ t.toList := by
  have subset : s.toList.all t.contains = true ↔ s.toList ⊆ t.toList := by
    simp only [List.all_eq_true,contains_iff]
    rfl
  rw [sameAs,Bool.and_eq_true,subset,decide_eq_true_iff]
  constructor
  · rintro ⟨length, sub⟩ f
    have perm := (List.subperm_of_subset (nodup_toList ours) sub).perm_of_length_le
      (Nat.le_of_eq length.symm)
    exact perm.mem_iff
  · intro same
    have sub := List.subperm_of_subset (nodup_toList ours) fun f => (same f).mp
    have sub' := List.subperm_of_subset (nodup_toList theirs) fun f => (same f).mpr
    exact ⟨(sub.antisymm sub').length_eq, fun f => (same f).mp⟩

end Facets

namespace Shape

variable {a b c : Shape} {name : String}

/-- The order, with properties and sources apart: there are at least as many sources, and those
of one slot are in order. -/
theorem le_iff (regular : a.Regular) : a ≤ b ↔ a.weight ≤ b.weight ∧
    (∀ f ∈ a.types.toList, f ∈ b.types.toList) ∧
    (∀ name child, a.property? name = some child →
      ∃ other, b.property? name = some other ∧ child ≤ other) ∧
    ∀ ours, a.sources = some ours → ∃ theirs, b.sources = some theirs ∧
      ours.length ≤ theirs.length ∧ ∀ (index : Nat) (our their : Shape),
        ours[index]? = some our → theirs[index]? = some their → our ≤ their := by
  constructor
  · intro le
    refine ⟨weight_le le, types_le le, fun name child => property_le le, ?_⟩
    intro ours known
    obtain ⟨theirs, known'⟩ := Option.isSome_iff_exists.mp
      (isSome_sources_le regular le (by simp [known]))
    have slot {index : Nat} {our : Shape} (held : ours[index]? = some our) :
        ∃ their, theirs[index]? = some their ∧ our ≤ their := by
      have found : a.source? index = some our := by simp [source?,known,held]
      obtain ⟨their, found', below⟩ := source_le le found
      exact ⟨their, by simpa [source?,known'] using found', below⟩
    refine ⟨theirs, known', ?_, ?_⟩
    · by_contra short
      have inside : theirs.length < ours.length := Nat.lt_of_not_le short
      obtain ⟨their, beyond, -⟩ := slot (List.getElem?_eq_getElem inside)
      simp at beyond
    · intro index our their held held'
      obtain ⟨same, found, below⟩ := slot held
      cases held'.symm.trans found
      exact below
  · rintro ⟨weight, types, properties, sources⟩
    refine le_of_parts weight types properties ?_
    intro index our found
    obtain ⟨ours, known, held⟩ := Option.bind_eq_some_iff.mp found
    obtain ⟨theirs, known', length, slots⟩ := sources ours known
    have inside : index < theirs.length :=
      Nat.lt_of_lt_of_le (List.getElem?_eq_some_iff.mp held).1 length
    refine ⟨theirs[index], by simp [source?,known'], ?_⟩
    exact slots index our _ held (List.getElem?_eq_getElem inside)

theorem property?_of_mem (distinct : a.names.Nodup) {entry : String × Shape}
    (member : entry ∈ a.properties) : a.property? entry.1 = some entry.2 := by
  obtain ⟨before, after, split⟩ := List.append_of_mem member
  refine List.lookup_eq_some_iff.mpr ⟨before, after, split, ?_⟩
  intro other earlier
  rw [names,split,List.map_append,List.nodup_append] at distinct
  have differs := distinct.2.2 other.1 (List.mem_map_of_mem earlier) entry.1 (by simp)
  exact bne_iff_ne.mpr (Ne.symm differs)

theorem sameProperties_iff {properties : List (String × Shape)} :
    sameProperties properties b = true ↔
      ∀ entry ∈ properties, ∃ other, b.property? entry.1 = some other ∧
        entry.2.sameAs other = true := by
  induction properties with
  | nil => simp [sameProperties]
  | cons entry rest ih =>
    rw [sameProperties,Bool.and_eq_true,ih,Option.any_eq_true,List.forall_mem_cons]

theorem sameSlots_iff {ours theirs : List Shape} : sameSlots ours theirs = true ↔
    ours.length = theirs.length ∧ ∀ (index : Nat) (our their : Shape), ours[index]? = some our →
      theirs[index]? = some their → our.sameAs their = true := by
  induction ours generalizing theirs with
  | nil => cases theirs <;> simp [sameSlots]
  | cons our rest ih =>
    cases theirs with
    | nil => simp [sameSlots]
    | cons their others =>
      rw [sameSlots,Bool.and_eq_true,ih]
      constructor
      · rintro ⟨first, length, slots⟩
        refine ⟨by simp [length], ?_⟩
        intro index mine given held held'
        cases index with
        | zero =>
          cases held
          cases held'
          exact first
        | succ index => exact slots index mine given held held'
      · rintro ⟨length, slots⟩
        refine ⟨slots 0 our their rfl rfl, by simpa using length, ?_⟩
        intro index mine given held held'
        exact slots (index + 1) mine given held held'

theorem sameAs_iff : a.sameAs b = true ↔ a.properties.length = b.properties.length ∧
    sameProperties a.properties b = true ∧ a.types.sameAs b.types = true ∧ a.weight = b.weight ∧
    sameSources a.sources b.sources = true := by
  cases a
  rw [sameAs.eq_def]
  simp [and_assoc]

theorem sameProperties_of_le (distinct : a.names.Nodup) (le : a ≤ b)
    (children : ∀ name child other, a.property? name = some child → b.property? name = some other →
      child.sameAs other = true) : sameProperties a.properties b = true := by
  rw [sameProperties_iff]
  intro entry member
  have found := property?_of_mem distinct member
  obtain ⟨other, found', -⟩ := property_le le found
  exact ⟨other, found', children _ _ other found found'⟩

theorem sameSources_of_le (ours : a.Regular) (theirs : b.Regular) (le : a ≤ b) (ge : b ≤ a)
    (slots : ∀ index our their, a.source? index = some our → b.source? index = some their →
      our.sameAs their = true) : sameSources a.sources b.sources = true := by
  obtain ⟨-, -, -, upwards⟩ := (le_iff ours).mp le
  obtain ⟨-, -, -, downwards⟩ := (le_iff theirs).mp ge
  cases known : a.sources with
  | none =>
    cases known' : b.sources with
    | none => rw [sameSources]
    | some given =>
      obtain ⟨mine, held, -⟩ := downwards given known'
      cases known.symm.trans held
  | some mine =>
    obtain ⟨given, known', length, -⟩ := upwards mine known
    obtain ⟨again, held, length', -⟩ := downwards given known'
    cases known.symm.trans held
    rw [known',sameSources,sameSlots_iff]
    refine ⟨Nat.le_antisymm length length', ?_⟩
    intro index our their found found'
    exact slots index our their (by simp [source?,known,found]) (by simp [source?,known',found'])

/-- Shapes that are below each other differ in the order of their declarations at most. -/
theorem sameAs_of_le (ours : a.WellFormed) (theirs : b.WellFormed) (le : a ≤ b) (ge : b ≤ a) :
    a.sameAs b = true := by
  induction ours generalizing b with
  | @intro a regular below ih =>
    have regular' := theirs.here
    have children : ∀ step child other, a.step? step = some child → b.step? step = some other →
        child.sameAs other = true := by
      intro step child other found found'
      obtain ⟨above, same, up⟩ := step_le le found
      cases found'.symm.trans same
      obtain ⟨under, same, down⟩ := step_le ge found'
      cases found.symm.trans same
      exact ih step child found (theirs.step found') up down
    have names : a.names.length = b.names.length :=
      ((List.subperm_of_subset regular.names fun name => names_le le).antisymm
        (List.subperm_of_subset regular'.names fun name => names_le ge)).length_eq
    rw [Shape.names,Shape.names,List.length_map,List.length_map] at names
    refine sameAs_iff.mpr ⟨names, ?_, ?_, Nat.le_antisymm (weight_le le) (weight_le ge), ?_⟩
    · exact sameProperties_of_le regular.names le fun name => children (.property name)
    · exact (Facets.sameAs_iff regular.types regular'.types).mpr fun f =>
        ⟨types_le le f, types_le ge f⟩
    · exact sameSources_of_le regular regular' le ge fun index => children (.source index)

section Laws

variable (ha : a.WellFormed) (hb : b.WellFormed) (hc : c.WellFormed)

include ha hb

theorem merge_swap_le : a.merge b ≤ b.merge a :=
  merge_le ha hb (le_merge_right hb ha) (le_merge_left hb ha)

include hc

theorem merge_regroup_right_le : (a.merge b).merge c ≤ a.merge (b.merge c) := by
  have inner := hb.merge hc
  have rest : b.merge c ≤ a.merge (b.merge c) := le_merge_right ha inner
  refine merge_le (ha.merge hb) hc (merge_le ha hb (le_merge_left ha inner) ?_) ?_
  · exact (le_merge_left hb hc).trans rest
  · exact (le_merge_right hb hc).trans rest

theorem merge_regroup_left_le : a.merge (b.merge c) ≤ (a.merge b).merge c := by
  have inner := ha.merge hb
  have rest : a.merge b ≤ (a.merge b).merge c := le_merge_left inner hc
  refine merge_le ha (hb.merge hc) ?_ (merge_le hb hc ?_ (le_merge_right inner hc))
  · exact (le_merge_left ha hb).trans rest
  · exact (le_merge_right ha hb).trans rest

end Laws

/-- Merging two shapes gives the least shape above both. Up to the order of declarations it is
therefore associative, commutative and idempotent, and nothing is added by the empty shape. -/
theorem merge_least_upper_bound (a b c : Shape) (ha : a.WellFormed) (hb : b.WellFormed)
    (hc : c.WellFormed) :
    (a.merge b).WellFormed ∧ a ≤ a.merge b ∧ b ≤ a.merge b ∧
    (a ≤ c → b ≤ c → a.merge b ≤ c) ∧
    ((a.merge b).merge c).sameAs (a.merge (b.merge c)) = true ∧
    (a.merge b).sameAs (b.merge a) = true ∧ (a.merge a).sameAs a = true ∧
    (a.merge .empty).sameAs a = true ∧ (Shape.empty.merge a).sameAs a = true := by
  have ab := ha.merge hb
  have blank : Shape.empty.WellFormed := .empty
  refine ⟨ab, le_merge_left ha hb, le_merge_right ha hb, merge_le ha hb, ?_, ?_, ?_, ?_, ?_⟩
  · exact sameAs_of_le (ab.merge hc) (ha.merge (hb.merge hc)) (merge_regroup_right_le ha hb hc)
      (merge_regroup_left_le ha hb hc)
  · exact sameAs_of_le ab (hb.merge ha) (merge_swap_le ha hb) (merge_swap_le hb ha)
  · exact sameAs_of_le (ha.merge ha) ha (merge_le ha ha (le_refl a) (le_refl a))
      (le_merge_left ha ha)
  · exact sameAs_of_le (ha.merge blank) ha (merge_le ha blank (le_refl a) (empty_le a))
      (le_merge_left ha blank)
  · exact sameAs_of_le (blank.merge ha) ha (merge_le blank ha (empty_le a) (le_refl a))
      (le_merge_right blank ha)

/-- A function and a value with a property, neither of which is below the other. -/
theorem merge_least_upper_bound_unrelated : ∃ a b : Shape, a.WellFormed ∧ b.WellFormed ∧
    ¬ a ≤ b ∧ ¬ b ≤ a ∧ (a.merge b).WellFormed ∧ a ≤ a.merge b ∧ b ≤ a.merge b ∧
    (a.merge b).sameAs (b.merge a) = true := by
  have ha : (Shape.function 1).WellFormed := .function 1
  have hb : ((Shape.ofWeight 2).declareTyped "x" (some (.instanceOf "F")) 0).WellFormed :=
    (WellFormed.ofWeight 2).declareTyped
  obtain ⟨valid, left, right, -, -, swap, -⟩ := merge_least_upper_bound _ _ _ ha hb (ha.merge hb)
  refine ⟨_, _, ha, hb, ?_, ?_, valid, left, right, swap⟩
  · intro le
    have typed := types_le le .function (by decide)
    exact absurd typed (by decide)
  · intro le
    exact absurd (weight_le le) (by decide)

end Shape

end CodeCompletion
