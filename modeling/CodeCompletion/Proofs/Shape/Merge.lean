import CodeCompletion.Proofs.Shape.WellFormed

/-! What a merge leads to. The merge of two shapes has the steps of both; where both have a step,
it leads to the merge of the two shapes there. -/
namespace CodeCompletion.Shape

variable {a b s : Shape} {f : Facet} {name : String} {fs : List Facet}

section Types

theorem types_foldl (fs : List Facet) (s : Shape) :
    (fs.foldl withType s).types = fs.foldl Facets.insert s.types := by
  induction fs generalizing s with
  | nil => rfl
  | cons f fs ih => rw [List.foldl_cons,ih,types_withType,List.foldl_cons]

theorem properties_foldl (fs : List Facet) (s : Shape) :
    (fs.foldl withType s).properties = s.properties := by
  induction fs generalizing s with
  | nil => rfl
  | cons f fs ih => rw [List.foldl_cons,ih,properties_withType]

/-- Sources come with the first type that makes a function. -/
theorem sources_foldl (fs : List Facet) (s : Shape) : (fs.foldl withType s).sources =
    if (∃ f ∈ fs, f.origin = Facet.functionOrigin) ∧ s.sources = none then some [empty, empty]
    else s.sources := by
  induction fs generalizing s with
  | nil => simp
  | cons f fs ih =>
    rw [List.foldl_cons,ih,sources_withType]
    by_cases function : f.origin = Facet.functionOrigin
    · cases s.sources <;> simp [function]
    · simp [function]

theorem regular_foldl (fs : List Facet) (regular : s.Regular) : (fs.foldl withType s).Regular := by
  induction fs generalizing s with
  | nil => exact regular
  | cons f fs ih => exact ih (regular.withType f)

theorem mem_types_foldl {types : Facets} : f ∈ (fs.foldl Facets.insert types).toList ↔
    f ∈ types.toList ∨ f ∈ fs := by
  induction fs generalizing types with
  | nil => simp
  | cons g fs ih =>
    rw [List.foldl_cons,ih,Facets.mem_insert,List.mem_cons]
    exact or_assoc.trans or_left_comm

end Types

section Combine

/-- The shape with the types taken over, before it gets as many sources. -/
def typedAs (a b : Shape) : Shape :=
  b.types.toList.foldl withType { a with weight := max a.weight b.weight }

theorem combine_of_none (known : b.sources = none) : a.combine b = typedAs a b := by
  simp only [combine,known]
  rfl

theorem combine_of_some {sources : List Shape} (known : b.sources = some sources)
    (held : sources ≠ []) : a.combine b = (typedAs a b).growSources sources.length := by
  cases sources with
  | nil => exact absurd rfl held
  | cons _ _ =>
    simp only [combine,known]
    rfl

theorem properties_typedAs (a b : Shape) : (typedAs a b).properties = a.properties :=
  properties_foldl _ _

theorem types_typedAs (a b : Shape) :
    (typedAs a b).types = b.types.toList.foldl Facets.insert a.types :=
  types_foldl _ _

theorem regular_typedAs (ours : a.Regular) : (typedAs a b).Regular :=
  regular_foldl _ ⟨ours.names, ours.types, ours.function, ours.slots⟩

/-- Whatever becomes a function by its types has sources right away. -/
theorem sources_typedAs (theirs : b.Regular) : (typedAs a b).sources =
    if b.sources.isSome = true ∧ a.sources = none then some [empty, empty] else a.sources := by
  have function : b.sources.isSome = true ↔
      ∃ f ∈ b.types.toList, f.origin = Facet.functionOrigin :=
    theirs.function.trans theirs.types.hasOrigin_iff_mem
  simp only [typedAs,sources_foldl,function]

theorem Regular.ne_nil {sources : List Shape} (regular : s.Regular)
    (known : s.sources = some sources) : sources ≠ [] := by
  have := regular.slots sources known
  exact List.ne_nil_of_length_pos (by omega)

theorem properties_combine (a b : Shape) : (a.combine b).properties = a.properties := by
  rw [combine]
  split
  · exact properties_typedAs a b
  · exact properties_typedAs a b
  · rw [properties_growSources]
    exact properties_typedAs a b

/-- The types are those of both: sources come from a function, so they bring no type of their
own. -/
theorem types_combine (theirs : b.Regular) :
    (a.combine b).types = b.types.toList.foldl Facets.insert a.types := by
  cases known : b.sources with
  | none => rw [combine_of_none known,types_typedAs]
  | some sources =>
    have allocated : ∃ slots, (typedAs a b).sources = some slots := by
      rw [sources_typedAs theirs]
      cases mine : a.sources with
      | none => exact ⟨_, if_pos ⟨by simp [known], rfl⟩⟩
      | some slots => exact ⟨slots, if_neg nofun⟩
    obtain ⟨slots, given⟩ := allocated
    rw [combine_of_some known (theirs.ne_nil known),growSources_of_some given,types_typedAs]

theorem Regular.combine (ours : a.Regular) (theirs : b.Regular) : (a.combine b).Regular := by
  cases known : b.sources with
  | none =>
    rw [combine_of_none known]
    exact regular_typedAs ours
  | some sources =>
    rw [combine_of_some known (theirs.ne_nil known)]
    exact (regular_typedAs ours).growSources _

/-- Our sources stay, and there is an empty one for each source that only they have. -/
theorem source?_combine (ours : a.Regular) (theirs : b.Regular) (index : Nat) :
    (a.combine b).source? index =
      (a.source? index).or ((b.source? index).map fun _ => .empty) := by
  have typed := sources_typedAs (a := a) theirs
  cases known : b.sources with
  | none =>
    rw [combine_of_none known]
    simp [source?,typed,known]
  | some sources =>
    have slots := theirs.slots sources known
    have last : max 2 sources.length = sources.length := by omega
    rw [combine_of_some known (theirs.ne_nil known),source?_growSources (regular_typedAs ours),last]
    simp only [source?,known,Option.bind_some]
    cases mine : a.sources with
    | none =>
      rw [typed,if_pos ⟨by simp [known], mine⟩]
      by_cases held : index < sources.length
      · rcases index with _ | _ | index <;> simp [held]
      · have beyond : ([empty, empty] : List Shape)[index]? = none :=
          List.getElem?_eq_none (Nat.le_trans slots (Nat.le_of_not_lt held))
        simp [held,beyond]
    | some slots =>
      rw [typed,if_neg (by simp [mine]),mine]
      by_cases held : index < sources.length <;> simp [held]

end Combine

section Parts

/-- A property that both sides have is merged, one that only they have is taken over. -/
theorem lookup_mergeProperties {theirs : List (String × Shape)}
    (distinct : (theirs.map (·.1)).Nodup) (ours : List (String × Shape)) (name : String) :
    (mergeProperties ours theirs).lookup name =
      (theirs.lookup name).elim (ours.lookup name) fun child =>
        some ((ours.lookup name).elim child (·.merge child)) := by
  induction theirs generalizing ours with
  | nil => rfl
  | cons entry rest ih =>
    obtain ⟨known, child⟩ := entry
    obtain ⟨fresh, others⟩ := List.nodup_cons.mp distinct
    rw [mergeProperties,ih others]
    by_cases same : name = known
    · subst same
      have absent : rest.lookup name = none := by
        rw [List.lookup_eq_none_iff]
        grind
      rw [absent,lookup_upsert_self]
      cases ours.lookup name <;> simp
    · have differs : (name == known) = false := beq_eq_false_iff_ne.mpr same
      rw [lookup_upsert_of_ne _ _ same,List.lookup_cons,differs]

theorem nodup_mergeProperties {ours : List (String × Shape)} (distinct : (ours.map (·.1)).Nodup)
    (theirs : List (String × Shape)) : ((mergeProperties ours theirs).map (·.1)).Nodup := by
  induction theirs generalizing ours with
  | nil => exact distinct
  | cons entry rest ih =>
    rw [mergeProperties]
    exact ih (nodup_upsert _ _ distinct)

theorem getElem?_mergeSources (ours theirs : List Shape) (index : Nat) :
    (mergeSources ours theirs)[index]? =
      ours[index]?.map fun our => theirs[index]?.elim our our.merge := by
  induction theirs generalizing ours index with
  | nil => simp [mergeSources]
  | cons their rest ih =>
    cases ours with
    | nil => simp [mergeSources]
    | cons our others =>
      cases index with
      | zero => simp [mergeSources]
      | succ index => simp [mergeSources,ih]

theorem length_mergeSources (ours theirs : List Shape) :
    (mergeSources ours theirs).length = ours.length := by
  induction theirs generalizing ours with
  | nil => rw [mergeSources]
  | cons their rest ih =>
    cases ours with
    | nil => rw [mergeSources]
    | cons our others => simp [mergeSources,ih]

end Parts

section Merge

theorem weight_merge (a b : Shape) : (a.merge b).weight = max a.weight b.weight := by
  cases b
  rw [merge.eq_def]
  exact weight_combine

theorem types_merge (a b : Shape) : (a.merge b).types = (a.combine b).types := by
  cases b
  rw [merge.eq_def]

theorem properties_merge (a b : Shape) :
    (a.merge b).properties = mergeProperties a.properties b.properties := by
  cases b
  rw [merge.eq_def]
  exact congrArg (mergeProperties · _) (properties_combine _ _)

theorem sources_merge (a b : Shape) : (a.merge b).sources =
    b.sources.elim (a.combine b).sources fun theirs =>
      (a.combine b).sources.map (mergeSources · theirs) := by
  obtain ⟨properties, types, weight, sources⟩ := b
  rw [merge.eq_def]
  cases sources <;> rfl

theorem mem_types_merge (theirs : b.Regular) :
    f ∈ (a.merge b).types.toList ↔ f ∈ a.types.toList ∨ f ∈ b.types.toList := by
  rw [types_merge,types_combine theirs,mem_types_foldl]

theorem property?_merge (theirs : b.Regular) (a : Shape) (name : String) :
    (a.merge b).property? name = (b.property? name).elim (a.property? name) fun child =>
      some ((a.property? name).elim child (·.merge child)) := by
  rw [property?,properties_merge]
  exact lookup_mergeProperties theirs.names a.properties name

theorem source?_merge (ours : a.Regular) (theirs : b.Regular) (index : Nat) :
    (a.merge b).source? index = (b.source? index).elim (a.source? index) fun child =>
      some (((a.source? index).getD .empty).merge child) := by
  have base := source?_combine ours theirs index
  rw [source?,sources_merge]
  cases known : b.sources with
  | none =>
    rw [Option.elim_none,← source?,base]
    simp [source?,known]
  | some sources =>
    have found : ((a.combine b).sources.map (mergeSources · sources)).bind (·[index]?) =
        ((a.combine b).source? index).map fun our => sources[index]?.elim our our.merge := by
      rw [source?]
      cases (a.combine b).sources with
      | none => rfl
      | some slots => exact getElem?_mergeSources slots sources index
    rw [Option.elim_some,found,base,source?,source?,known,Option.bind_some]
    cases sources[index]? with
    | none => simp
    | some child => cases a.sources.bind (·[index]?) <;> rfl

theorem Regular.merge (ours : a.Regular) (theirs : b.Regular) : (a.merge b).Regular := by
  have base := ours.combine theirs
  have kept : (a.merge b).sources.isSome = (a.combine b).sources.isSome := by
    rw [sources_merge]
    cases b.sources <;> simp
  refine ⟨?_, types_merge a b ▸ base.types, ?_, ?_⟩
  · rw [Shape.names,properties_merge]
    exact nodup_mergeProperties ours.names _
  · rw [kept,isFunction,types_merge]
    exact base.function
  · intro sources held
    rw [sources_merge] at held
    cases known : b.sources with
    | none =>
      rw [known] at held
      exact base.slots sources held
    | some theirs =>
      rw [known] at held
      obtain ⟨slots, given, rfl⟩ := Option.map_eq_some_iff.mp held
      rw [length_mergeSources]
      exact base.slots slots given

theorem WellFormed.merge (ours : a.WellFormed) (theirs : b.WellFormed) :
    (a.merge b).WellFormed := by
  induction theirs generalizing a with
  | @intro b regular below ih =>
    refine of_parts (ours.here.merge regular) ?_ ?_
    · intro name child found
      rw [property?_merge regular] at found
      cases their : b.property? name with
      | none =>
        rw [their] at found
        exact ours.property found
      | some given =>
        rw [their] at found
        cases found
        cases our : a.property? name with
        | none => exact below (.property name) given their
        | some mine => exact ih (.property name) given their (ours.property our)
    · intro index child found
      rw [source?_merge ours.here regular] at found
      cases their : b.source? index with
      | none =>
        rw [their] at found
        exact ours.source found
      | some given =>
        rw [their] at found
        cases found
        refine ih (.source index) given their ?_
        cases our : a.source? index with
        | none => exact empty
        | some mine => exact ours.source our

end Merge

end CodeCompletion.Shape
