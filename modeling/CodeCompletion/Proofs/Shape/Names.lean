import CodeCompletion.Proofs.Analysis.Invariant

/-! The names that a shape holds, at any depth. Nothing that an analysis does with shapes brings
in a name but the ones it declares. -/
namespace CodeCompletion.Shape

inductive NamedBy (Q : String → Prop) : Shape → Prop where
  | intro {s : Shape} (names : ∀ entry ∈ s.properties, Q entry.1)
      (properties : ∀ entry ∈ s.properties, NamedBy Q entry.2)
      (sources : ∀ source ∈ s.sources.getD [], NamedBy Q source) : NamedBy Q s

variable {Q : String → Prop} {s other : Shape} {name : String}

/-- An entry changes or is added, and no other does. -/
theorem forall_upsert {P : String × Shape → Prop} {update : Option Shape → Shape}
    {ps : List (String × Shape)} (entries : ∀ entry ∈ ps, P entry) (added : P (name, update none))
    (changed : ∀ child, P (name, child) → P (name, update (some child))) :
    ∀ entry ∈ upsert name update ps, P entry := by
  induction ps with
  | nil => simpa [upsert] using added
  | cons entry rest ih =>
    obtain ⟨known, child⟩ := entry
    obtain ⟨first, others⟩ := List.forall_mem_cons.mp entries
    rw [upsert]
    split
    · rename_i same
      subst same
      exact List.forall_mem_cons.mpr ⟨changed child first, others⟩
    · exact List.forall_mem_cons.mpr ⟨first, ih others⟩

namespace NamedBy

theorem names (named : s.NamedBy Q) : ∀ entry ∈ s.properties, Q entry.1 := by
  cases named with
  | intro names _ _ => exact names

theorem properties (named : s.NamedBy Q) : ∀ entry ∈ s.properties, entry.2.NamedBy Q := by
  cases named with
  | intro _ properties _ => exact properties

theorem sources (named : s.NamedBy Q) : ∀ source ∈ s.sources.getD [], source.NamedBy Q := by
  cases named with
  | intro _ _ sources => exact sources

/-- Types and weights have no part in it. -/
theorem same (named : s.NamedBy Q) (properties : other.properties = s.properties)
    (sources : other.sources = s.sources) : other.NamedBy Q :=
  .intro (properties ▸ named.names) (properties ▸ named.properties) (sources ▸ named.sources)

theorem ofWeight (weight : Nat) : (Shape.ofWeight weight).NamedBy Q := .intro nofun nofun nofun

theorem empty : Shape.empty.NamedBy Q := ofWeight 0

theorem withType (named : s.NamedBy Q) (f : Facet) : (s.withType f).NamedBy Q := by
  rw [Shape.withType]
  split
  · refine .intro named.names named.properties fun source member => ?_
    have blank : source = .empty := by simpa using member
    exact blank ▸ empty
  · exact named.same rfl rfl

theorem growSources (named : s.NamedBy Q) (count : Nat) : (s.growSources count).NamedBy Q := by
  have function : NamedBy Q (if s.sources.isNone then s.withType Facet.function else s) := by
    split
    · exact named.withType _
    · exact named
  refine .intro function.names function.properties fun source member => ?_
  rcases List.mem_append.mp member with old | new
  · exact function.sources source old
  · exact List.eq_of_mem_replicate new ▸ empty

theorem declare {weight : Nat} {change : Shape → Shape} (known : Q name) (named : s.NamedBy Q)
    (keeps : ∀ child, child.NamedBy Q → (change child).NamedBy Q) :
    (s.declare name weight change).NamedBy Q := by
  refine .intro (forall_upsert named.names known fun _ => id) ?_ named.sources
  refine forall_upsert named.properties (keeps _ (ofWeight weight)) fun child inner => ?_
  exact keeps _ (inner.same rfl rfl)

theorem changeSource {index : Nat} {change : Shape → Shape} (named : s.NamedBy Q)
    (keeps : ∀ child, child.NamedBy Q → (change child).NamedBy Q) :
    (s.changeSource index change).NamedBy Q := by
  have grown := named.growSources (index + 1)
  refine .intro grown.names grown.properties fun source member => ?_
  have member : source ∈ ((s.growSources (index + 1)).sources.getD []).modify index change := by
    simpa [Shape.changeSource,Shape.growSources] using member
  rw [List.modify_eq_take_drop] at member
  rcases List.mem_append.mp member with before | rest
  · exact grown.sources source (List.mem_of_mem_take before)
  · cases after : ((s.growSources (index + 1)).sources.getD []).drop index with
    | nil => simp [after] at rest
    | cons first others =>
      have old : ∀ t ∈ first :: others, t.NamedBy Q :=
        fun t member => grown.sources t (List.mem_of_mem_drop (after ▸ member))
      rw [after,List.modifyHead_cons] at rest
      rcases List.mem_cons.mp rest with rfl | rest
      · exact keeps first (old first List.mem_cons_self)
      · exact old source (List.mem_cons_of_mem _ rest)

theorem foldl_withType (named : s.NamedBy Q) (fs : List Facet) :
    (fs.foldl Shape.withType s).NamedBy Q := by
  induction fs generalizing s with
  | nil => exact named
  | cons f fs ih => exact ih (named.withType f)

theorem combine (named : s.NamedBy Q) (other : Shape) : (s.combine other).NamedBy Q := by
  have heavier : NamedBy Q { s with weight := max s.weight other.weight } := named.same rfl rfl
  have typed := heavier.foldl_withType other.types.toList
  rw [Shape.combine]
  split
  · exact typed
  · exact typed
  · exact typed.growSources _

mutual

theorem merge (s other : Shape) (ours : s.NamedBy Q) (theirs : other.NamedBy Q) :
    (s.merge other).NamedBy Q := by
  match other, theirs with
  | ⟨properties, types, weight, sources⟩, theirs =>
    have base := ours.combine ⟨properties, types, weight, sources⟩
    have merged := mergeProperties _ properties (fun entry member =>
      ⟨base.names entry member, base.properties entry member⟩) fun entry member =>
      ⟨theirs.names entry member, theirs.properties entry member⟩
    rw [merge.eq_def]
    refine .intro (fun entry member => (merged entry member).1)
      (fun entry member => (merged entry member).2) ?_
    match sources, theirs.sources with
    | none, _ => exact base.sources
    | some held, theirs =>
      have slots := mergeSources _ held base.sources theirs
      show ∀ source ∈ ((s.combine ⟨properties, types, weight, some held⟩).sources.map
        (Shape.mergeSources · held)).getD [], NamedBy Q source
      cases kept : (s.combine ⟨properties, types, weight, some held⟩).sources with
      | none => simp
      | some _ => simpa [kept] using slots
termination_by sizeOf other

theorem mergeProperties (ours theirs : List (String × Shape))
    (named : ∀ entry ∈ ours, Q entry.1 ∧ entry.2.NamedBy Q)
    (added : ∀ entry ∈ theirs, Q entry.1 ∧ entry.2.NamedBy Q) :
    ∀ entry ∈ Shape.mergeProperties ours theirs, Q entry.1 ∧ entry.2.NamedBy Q := by
  match theirs, added with
  | [], _ => simpa [Shape.mergeProperties] using named
  | (name, child) :: rest, added =>
    obtain ⟨first, others⟩ := List.forall_mem_cons.mp added
    rw [Shape.mergeProperties.eq_def]
    refine mergeProperties _ rest (forall_upsert named first fun mine known => ?_) others
    exact ⟨known.1, merge mine child known.2 first.2⟩
termination_by sizeOf theirs

theorem mergeSources (ours theirs : List Shape) (named : ∀ source ∈ ours, source.NamedBy Q)
    (added : ∀ source ∈ theirs, source.NamedBy Q) :
    ∀ source ∈ Shape.mergeSources ours theirs, source.NamedBy Q := by
  match theirs, ours, added, named with
  | [], ours, _, named => simpa [Shape.mergeSources] using named
  | _ :: _, [], _, _ => simp [Shape.mergeSources]
  | their :: theirRest, our :: ourRest, added, named =>
    obtain ⟨theirFirst, theirOthers⟩ := List.forall_mem_cons.mp added
    obtain ⟨ourFirst, ourOthers⟩ := List.forall_mem_cons.mp named
    rw [Shape.mergeSources.eq_def]
    exact List.forall_mem_cons.mpr ⟨merge our their ourFirst theirFirst,
      mergeSources ourRest theirRest ourOthers theirOthers⟩
termination_by sizeOf theirs

end

theorem property {child : Shape} (named : s.NamedBy Q) (found : s.property? name = some child) :
    child.NamedBy Q := by
  obtain ⟨before, after, split, -⟩ := List.lookup_eq_some_iff.mp found
  exact named.properties (name, child) (by simp [split])

theorem source {child : Shape} {index : Nat} (named : s.NamedBy Q)
    (found : s.source? index = some child) : child.NamedBy Q := by
  obtain ⟨held, present, found⟩ := Option.bind_eq_some_iff.mp found
  exact named.sources child (by simpa [present] using List.mem_of_getElem? found)

end NamedBy

theorem closed_namedBy (implied : ∀ name ∈ impliedNames, Q name) : Closed Q (NamedBy Q) where
  implied := implied
  ofWeight := .ofWeight
  withType f named := named.withType f
  declare known named keeps := named.declare known keeps
  changeSource named keeps := named.changeSource keeps
  merge ours theirs := .merge _ _ ours theirs
  property named found := named.property found
  source named found := named.source found

end CodeCompletion.Shape
