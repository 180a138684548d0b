import CodeCompletion.Proofs.Shape.Merge

/-! What merging gives, written down in the order in which it stands there. `joined` goes through
the first shape and looks up what the second one has to add; merging goes through the second one and
changes the first. On well-formed shapes the results are equal, down to the place of every
declaration. -/
namespace CodeCompletion

section New

variable {α : Type} [DecidableEq α]

def addNew (xs : List α) (x : α) : List α := if x ∈ xs then xs else xs ++ [x]

theorem foldl_addNew {new : List α} (distinct : new.Nodup) (xs : List α) :
    new.foldl addNew xs = xs ++ new.filter (· ∉ xs) := by
  induction new generalizing xs with
  | nil => simp
  | cons x rest ih =>
    obtain ⟨fresh, distinct⟩ := List.nodup_cons.mp distinct
    rw [List.foldl_cons,ih distinct,addNew]
    by_cases known : x ∈ xs
    · rw [if_pos known,List.filter_cons_of_neg (by simpa using known)]
    · have later : rest.filter (· ∉ xs ++ [x]) = rest.filter (· ∉ xs) := by
        refine List.filter_congr fun y member => ?_
        have differs : y ≠ x := fun same => fresh (same ▸ member)
        simp [differs]
      rw [if_neg known,List.filter_cons_of_pos (by simpa using known),later,List.append_assoc,
        List.singleton_append]

end New

section Overlay

variable {β : Type} {both : β → β → β} {ours theirs : List (String × β)} {key : String}

/-- Ours in their order, each together with what they have for the name, then what is new with them,
in their order and as it is. -/
def overlay (both : β → β → β) (ours theirs : List (String × β)) : List (String × β) :=
  ours.map (fun entry => (entry.1, (theirs.lookup entry.1).elim entry.2 (both entry.2))) ++
    theirs.filter (·.1 ∉ ours.map (·.1))

theorem lookup_cons_same (entry : String × β) (rest : List (String × β)) :
    (entry :: rest).lookup entry.1 = some entry.2 := by
  obtain ⟨known, value⟩ := entry
  exact List.lookup_cons_self

theorem lookup_cons_of_ne {entry : String × β} (rest : List (String × β)) (differs : key ≠ entry.1) :
    (entry :: rest).lookup key = rest.lookup key := by
  obtain ⟨known, value⟩ := entry
  rw [List.lookup_cons,beq_eq_false_iff_ne.mpr differs]

theorem lookup_eq_none_iff_not_mem : ours.lookup key = none ↔ key ∉ ours.map (·.1) := by
  rw [List.lookup_eq_none_iff]
  simp only [bne_iff_ne,List.mem_map,not_exists,not_and]
  constructor
  · intro differs entry member same
    exact differs entry member same.symm
  · intro absent entry member same
    exact absent entry member same.symm

theorem keys_overlay : (overlay both ours theirs).map (·.1) =
    ours.map (·.1) ++ (theirs.map (·.1)).filter (· ∉ ours.map (·.1)) := by
  rw [overlay,List.map_append,List.map_map,List.filter_map]
  rfl

theorem lookup_filter_new {names : List String} (new : key ∉ names) :
    (theirs.filter (·.1 ∉ names)).lookup key = theirs.lookup key := by
  induction theirs with
  | nil => rfl
  | cons entry rest ih =>
    by_cases same : key = entry.1
    · subst same
      rw [List.filter_cons_of_pos (by simpa using new),lookup_cons_same,lookup_cons_same]
    · rw [lookup_cons_of_ne _ same,List.filter_cons]
      split
      · rw [lookup_cons_of_ne _ same,ih]
      · exact ih

theorem lookup_overlay : (overlay both ours theirs).lookup key =
    (ours.lookup key).elim (theirs.lookup key) fun mine =>
      some ((theirs.lookup key).elim mine (both mine)) := by
  have changed (entries : List (String × β)) :
      (entries.map fun entry => (entry.1, (theirs.lookup entry.1).elim entry.2 (both entry.2))).lookup
        key = (entries.lookup key).map fun mine => (theirs.lookup key).elim mine (both mine) := by
    induction entries with
    | nil => rfl
    | cons entry rest ih =>
      by_cases same : key = entry.1
      · subst same
        rw [lookup_cons_same,Option.map_some,List.map_cons]
        exact List.lookup_cons_self
      · rw [lookup_cons_of_ne _ same,← ih]
        exact lookup_cons_of_ne _ same
  rw [overlay,List.lookup_append,changed]
  cases found : ours.lookup key with
  | some mine => simp
  | none => simpa using lookup_filter_new (lookup_eq_none_iff_not_mem.mp found)

/-- Lists with the same names in the same order, none of them twice, are equal if they have the same
for each name. -/
theorem eq_of_lookup_eq {xs ys : List (String × β)} (keys : xs.map (·.1) = ys.map (·.1))
    (distinct : (xs.map (·.1)).Nodup) (same : ∀ key, xs.lookup key = ys.lookup key) : xs = ys := by
  induction xs generalizing ys with
  | nil => simpa using keys.symm
  | cons x xs ih =>
    obtain ⟨fresh, distinct⟩ := List.nodup_cons.mp distinct
    cases ys with
    | nil => cases keys
    | cons y ys =>
      obtain ⟨first, rest⟩ := List.cons.inj keys
      have first : x.1 = y.1 := first
      have value : x.2 = y.2 := by
        have here := same x.1
        rwa [lookup_cons_same,first,lookup_cons_same,Option.some_inj] at here
      have others : xs = ys := by
        refine ih rest distinct fun key => ?_
        by_cases head : key = x.1
        · have absent : key ∉ xs.map (·.1) := head ▸ fresh
          rw [lookup_eq_none_iff_not_mem.mpr absent,lookup_eq_none_iff_not_mem.mpr (rest ▸ absent)]
        · have later := same key
          rwa [lookup_cons_of_ne _ head,lookup_cons_of_ne _ (first ▸ head)] at later
      rw [Prod.ext first value,others]

end Overlay

namespace Facets

variable {s t : Facets} {f : Facet} {origin : String} {indices : List Nat}

/-- The types of both sides: new indices come behind ours of the same origin, new origins at the
end. -/
def joined (s t : Facets) : Facets :=
  ⟨overlay (fun ours theirs => ours ++ theirs.filter (· ∉ ours)) s.entries t.entries⟩

def indicesOf (s : Facets) (origin : String) : List Nat := (s.entries.lookup origin).getD []

theorem indicesOf_insert : (s.insert f).indicesOf origin =
    if origin = f.origin then addNew (s.indicesOf origin) f.index else s.indicesOf origin := by
  obtain ⟨entries⟩ := s
  induction entries with
  | nil =>
    by_cases same : origin = f.origin
    · simp [indicesOf,insert,insertEntry,addNew,same]
    · simp [indicesOf,insert,insertEntry,same,lookup_cons_of_ne]
  | cons entry rest ih =>
    have here : indicesOf ⟨entry :: rest⟩ entry.1 = entry.2 := by
      rw [indicesOf,lookup_cons_same,Option.getD_some]
    have later (differs : origin ≠ entry.1) :
        indicesOf ⟨entry :: rest⟩ origin = indicesOf ⟨rest⟩ origin := by
      rw [indicesOf,lookup_cons_of_ne _ differs,indicesOf]
    by_cases known : entry.1 = f.origin
    · by_cases same : origin = f.origin
      · rw [same,← known,here]
        by_cases held : f.index ∈ entry.2 <;> simp [insert,insertEntry,indicesOf,addNew,known,held]
      · rw [later (known ▸ same)]
        simp [insert,insertEntry,indicesOf,known,same,lookup_cons_of_ne]
    · by_cases same : origin = entry.1
      · have kept : (insert ⟨entry :: rest⟩ f).entries = entry :: insertEntry f rest := by
          simp [insert,insertEntry,known]
        rw [same,here,if_neg known,indicesOf,kept,lookup_cons_same,Option.getD_some]
      · rw [later same,← ih]
        simp [insert,insertEntry,indicesOf,known,same,lookup_cons_of_ne]

def insertAll (s : Facets) (origin : String) (indices : List Nat) : Facets :=
  (indices.map (⟨origin, ·⟩)).foldl insert s

theorem origins_insertAll (held : indices ≠ []) :
    (s.insertAll origin indices).entries.map (·.1) = addNew (s.entries.map (·.1)) origin := by
  have known (s : Facets) (known : origin ∈ s.entries.map (·.1)) (indices : List Nat) :
      (s.insertAll origin indices).entries.map (·.1) = s.entries.map (·.1) := by
    induction indices generalizing s with
    | nil => rfl
    | cons index rest ih =>
      have same : (s.insert ⟨origin, index⟩).entries.map (·.1) = s.entries.map (·.1) := by
        rw [insert,origins_insertEntry,if_pos known]
      rw [← same] at known ⊢
      exact ih _ known
  obtain ⟨index, rest, rfl⟩ := List.exists_cons_of_ne_nil held
  have first : (s.insert ⟨origin, index⟩).entries.map (·.1) = addNew (s.entries.map (·.1)) origin :=
    origins_insertEntry _ _
  have there : origin ∈ (s.insert ⟨origin, index⟩).entries.map (·.1) := by
    rw [first,addNew]
    by_cases old : origin ∈ s.entries.map (·.1) <;> simp [old]
  exact (known _ there rest).trans first

theorem indicesOf_insertAll (other : String) : (s.insertAll origin indices).indicesOf other =
    if other = origin then indices.foldl addNew (s.indicesOf other) else s.indicesOf other := by
  induction indices generalizing s with
  | nil => simp [insertAll]
  | cons index rest ih =>
    have step : s.insertAll origin (index :: rest) = (s.insert ⟨origin, index⟩).insertAll origin rest :=
      rfl
    rw [step,ih,indicesOf_insert]
    by_cases same : other = origin <;> simp [same]

theorem union_cons {rest : List (String × List Nat)} :
    s.union ⟨(origin, indices) :: rest⟩ = (s.insertAll origin indices).union ⟨rest⟩ := by
  simp [union,toList,insertAll,List.foldl_append]

theorem origins_union (valid : t.WellFormed) :
    (s.union t).entries.map (·.1) = (t.entries.map (·.1)).foldl addNew (s.entries.map (·.1)) := by
  obtain ⟨entries⟩ := t
  induction entries generalizing s with
  | nil => rfl
  | cons entry rest ih =>
    obtain ⟨origin, indices⟩ := entry
    obtain ⟨held, inhabited⟩ := List.forall_mem_cons.mp valid.inhabited
    obtain ⟨-, distinct⟩ := List.forall_mem_cons.mp valid.indices
    rw [union_cons,ih ⟨(List.nodup_cons.mp valid.origins).2, inhabited, distinct⟩,
      origins_insertAll held,List.map_cons,List.foldl_cons]

theorem indicesOf_union (valid : t.WellFormed) (other : String) :
    (s.union t).indicesOf other = (t.indicesOf other).foldl addNew (s.indicesOf other) := by
  obtain ⟨entries⟩ := t
  induction entries generalizing s with
  | nil => rfl
  | cons entry rest ih =>
    obtain ⟨origin, indices⟩ := entry
    obtain ⟨fresh, origins⟩ := List.nodup_cons.mp valid.origins
    obtain ⟨-, inhabited⟩ := List.forall_mem_cons.mp valid.inhabited
    obtain ⟨-, distinct⟩ := List.forall_mem_cons.mp valid.indices
    rw [union_cons,ih ⟨origins, inhabited, distinct⟩,indicesOf_insertAll]
    by_cases same : other = origin
    · subst same
      have absent : indicesOf ⟨rest⟩ other = [] := by
        rw [indicesOf,lookup_eq_none_iff_not_mem.mpr fresh,Option.getD_none]
      have here : indicesOf ⟨(other, indices) :: rest⟩ other = indices := by
        rw [indicesOf,List.lookup_cons_self,Option.getD_some]
      rw [if_pos rfl,absent,here,List.foldl_nil]
    · rw [if_neg same,indicesOf,indicesOf,indicesOf,lookup_cons_of_ne _ same]

theorem lookup_entries : s.entries.lookup origin =
    if origin ∈ s.entries.map (·.1) then some (s.indicesOf origin) else none := by
  cases found : s.entries.lookup origin with
  | none => rw [if_neg (lookup_eq_none_iff_not_mem.mp found)]
  | some held =>
    have known : origin ∈ s.entries.map (·.1) := by
      by_contra absent
      cases found.symm.trans (lookup_eq_none_iff_not_mem.mpr absent)
    rw [if_pos known,indicesOf,found,Option.getD_some]

/-- Adding types one by one gives the types of both sides. -/
theorem union_eq_joined (ours : s.WellFormed) (theirs : t.WellFormed) : s.union t = s.joined t := by
  have origins := origins_union (s := s) theirs
  rw [foldl_addNew theirs.origins] at origins
  have keys : (s.union t).entries.map (·.1) = (s.joined t).entries.map (·.1) := by
    rw [origins,joined,keys_overlay]
  have distinct : ((s.union t).entries.map (·.1)).Nodup := by
    rw [origins]
    refine ours.origins.append (theirs.origins.filter _) ?_
    intro origin old new
    simpa [old] using (List.mem_filter.mp new).2
  have indices (origin : String) : (t.indicesOf origin).Nodup := by
    rw [indicesOf]
    cases found : t.entries.lookup origin with
    | none => exact List.nodup_nil
    | some held =>
      obtain ⟨before, after, split, -⟩ := List.lookup_eq_some_iff.mp found
      exact theirs.indices (origin, held) (by simp [split])
  have entries : (s.union t).entries = (s.joined t).entries := by
    refine eq_of_lookup_eq keys distinct fun origin => ?_
    rw [lookup_entries,origins,indicesOf_union theirs,foldl_addNew (indices origin),joined,
      lookup_overlay,lookup_entries,lookup_entries]
    by_cases old : origin ∈ s.entries.map (·.1)
    · by_cases new : origin ∈ t.entries.map (·.1)
      · simp [old,new]
      · have none : t.indicesOf origin = [] := by
          rw [indicesOf,lookup_eq_none_iff_not_mem.mpr new,Option.getD_none]
        simp [old,new,none]
    · have none : s.indicesOf origin = [] := by
        rw [indicesOf,lookup_eq_none_iff_not_mem.mpr old,Option.getD_none]
      by_cases new : origin ∈ t.entries.map (·.1) <;> simp [old,new,none]
  exact congrArg Facets.mk entries

end Facets

namespace Shape

variable {a b s t : Shape} {name : String}

mutual

/-- What is known by both shapes together. -/
def joined (s other : Shape) : Shape :=
  match s with
  | ⟨properties, types, weight, sources⟩ =>
    { properties := joinedProperties properties other.properties ++
        other.properties.filter (·.1 ∉ properties.map (·.1))
      types := types.joined other.types
      weight := max weight other.weight
      sources := joinedSources sources other.sources }

/-- Our properties, each joined with theirs of that name, if they have one. -/
def joinedProperties (ours theirs : List (String × Shape)) : List (String × Shape) :=
  match ours with
  | [] => []
  | (name, child) :: rest =>
    let joint :=
      match theirs.lookup name with
      | none => child
      | some other => child.joined other
    (name, joint) :: joinedProperties rest theirs

def joinedSources (ours theirs : Option (List Shape)) : Option (List Shape) :=
  match ours, theirs with
  | none, theirs => theirs
  | some ours, none => some ours
  | some ours, some theirs => some (joinedSlots ours theirs)

def joinedSlots (ours theirs : List Shape) : List Shape :=
  match ours, theirs with
  | [], theirs => theirs
  | ours, [] => ours
  | our :: rest, their :: others => our.joined their :: joinedSlots rest others

end

theorem properties_joined (s other : Shape) :
    (s.joined other).properties = overlay joined s.properties other.properties := by
  have ours (entries : List (String × Shape)) : joinedProperties entries other.properties =
      entries.map fun entry =>
        (entry.1, (other.properties.lookup entry.1).elim entry.2 entry.2.joined) := by
    induction entries with
    | nil => rw [joinedProperties,List.map_nil]
    | cons entry rest ih =>
      rw [joinedProperties,ih,List.map_cons]
      cases other.properties.lookup entry.1 <;> rfl
  cases s
  rw [joined.eq_def,overlay,← ours]

theorem types_joined (s other : Shape) : (s.joined other).types = s.types.joined other.types := by
  cases s
  rw [joined.eq_def]

theorem weight_joined (s other : Shape) :
    (s.joined other).weight = max s.weight other.weight := by
  cases s
  rw [joined.eq_def]

theorem sources_joined (s other : Shape) :
    (s.joined other).sources = joinedSources s.sources other.sources := by
  cases s
  rw [joined.eq_def]

theorem getElem?_joinedSlots (ours theirs : List Shape) (index : Nat) :
    (joinedSlots ours theirs)[index]? = ours[index]?.elim theirs[index]? fun our =>
      some (theirs[index]?.elim our our.joined) := by
  induction ours generalizing theirs index with
  | nil => simp [joinedSlots]
  | cons our rest ih =>
    cases theirs with
    | nil => cases found : (our :: rest)[index]? <;> simp [joinedSlots,found]
    | cons their others =>
      cases index with
      | zero => simp [joinedSlots]
      | succ index => simpa [joinedSlots] using ih others index

theorem source?_joined (s other : Shape) (index : Nat) :
    (s.joined other).source? index = (s.source? index).elim (other.source? index) fun our =>
      some ((other.source? index).elim our our.joined) := by
  simp only [source?,sources_joined]
  cases s.sources with
  | none => simp [joinedSources]
  | some ours =>
    cases other.sources with
    | none => cases found : ours[index]? <;> simp [joinedSources,found]
    | some theirs => simpa [joinedSources] using getElem?_joinedSlots ours theirs index

/-- Shapes are equal if all that can be asked of them is, in the same order. -/
theorem eq_of_parts (weight : s.weight = t.weight) (types : s.types = t.types)
    (names : s.names = t.names) (distinct : s.names.Nodup)
    (properties : ∀ name, s.property? name = t.property? name)
    (function : s.sources.isSome = t.sources.isSome)
    (sources : ∀ index, s.source? index = t.source? index) : s = t := by
  have properties := eq_of_lookup_eq names distinct properties
  have slots : s.sources = t.sources := by
    cases known : s.sources with
    | none =>
      rw [known] at function
      exact (Option.isNone_iff_eq_none.mp (by simpa using function.symm)).symm
    | some ours =>
      rw [known] at function
      obtain ⟨theirs, known'⟩ := Option.isSome_iff_exists.mp function.symm
      have same : ours = theirs := by
        refine List.ext_getElem? fun index => ?_
        simpa [source?,known,known'] using sources index
      rw [known',same]
  cases s
  cases t
  simp_all

theorem joined_empty_left (s : Shape) : Shape.empty.joined s = s := by
  obtain ⟨properties, types, weight, sources⟩ := s
  rw [joined.eq_def]
  simp [Shape.empty,joinedProperties,joinedSources,Facets.joined,Facets.empty,overlay]

theorem keys_upsert (name : String) (change : Option Shape → Shape) (ps : List (String × Shape)) :
    (upsert name change ps).map (·.1) = addNew (ps.map (·.1)) name := by
  induction ps with
  | nil => rfl
  | cons entry rest ih =>
    rw [upsert]
    by_cases same : entry.1 = name
    · simp [same,addNew]
    · have differs : name ≠ entry.1 := Ne.symm same
      rw [if_neg same,List.map_cons,ih,addNew,addNew]
      by_cases known : name ∈ rest.map (·.1) <;> simp [known,differs]

/-- The names of a merge: ours, then those that only they have, in their order. -/
theorem names_merge (theirs : b.Regular) :
    (a.merge b).names = a.names ++ b.names.filter (· ∉ a.names) := by
  have folded (given ours : List (String × Shape)) : (mergeProperties ours given).map (·.1) =
      (given.map (·.1)).foldl addNew (ours.map (·.1)) := by
    induction given generalizing ours with
    | nil => simp [mergeProperties]
    | cons entry rest ih => rw [mergeProperties,ih,keys_upsert,List.map_cons,List.foldl_cons]
  rw [names,properties_merge,folded]
  exact foldl_addNew theirs.names a.names

theorem isSome_sources_merge (ours : a.Regular) (theirs : b.Regular) :
    (a.merge b).sources.isSome = (a.sources.isSome || b.sources.isSome) := by
  rw [Bool.eq_iff_iff,Bool.or_eq_true,(ours.merge theirs).function,ours.function,theirs.function,
    isFunction,isFunction,isFunction,(ours.merge theirs).types.hasOrigin_iff_mem,
    ours.types.hasOrigin_iff_mem,theirs.types.hasOrigin_iff_mem]
  simp only [mem_types_merge theirs,or_and_right,exists_or]

/-- Merging changes our shape place by place and still gives what both know together, each
declaration where it belongs. -/
theorem merge_eq_joined (ours : a.WellFormed) (theirs : b.WellFormed) : a.merge b = a.joined b := by
  induction theirs generalizing a with
  | @intro b regular below ih =>
    have names : (a.merge b).names = (a.joined b).names := by
      rw [names_merge regular,Shape.names,Shape.names,Shape.names,properties_joined,keys_overlay]
    refine eq_of_parts ?_ ?_ names (ours.here.merge regular).names ?_ ?_ ?_
    · rw [weight_merge,weight_joined]
    · rw [types_merge,types_combine regular,types_joined]
      exact Facets.union_eq_joined ours.here.types regular.types
    · intro name
      rw [property?_merge regular,property?,property?,property?,properties_joined,lookup_overlay]
      cases mine : a.properties.lookup name with
      | none => cases b.properties.lookup name <;> rfl
      | some our =>
        cases given : b.properties.lookup name with
        | none => rfl
        | some their => exact congrArg some (ih (.property name) their given (ours.property mine))
    · rw [isSome_sources_merge ours.here regular,sources_joined]
      cases a.sources <;> cases b.sources <;> simp [joinedSources]
    · intro index
      rw [source?_merge ours.here regular,source?_joined]
      cases mine : a.source? index with
      | none =>
        cases given : b.source? index with
        | none => rfl
        | some their =>
          have whole : Shape.empty.merge their = their :=
            (ih (.source index) their given .empty).trans (joined_empty_left their)
          exact congrArg some whole
      | some our =>
        cases given : b.source? index with
        | none => rfl
        | some their => exact congrArg some (ih (.source index) their given (ours.source mine))

/-- There is nothing to keep of a shape of which nothing is known. -/
theorem empty_merge (valid : s.WellFormed) : Shape.empty.merge s = s :=
  (merge_eq_joined .empty valid).trans (joined_empty_left s)

end Shape

end CodeCompletion
