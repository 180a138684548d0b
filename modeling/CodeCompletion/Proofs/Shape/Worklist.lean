import CodeCompletion.Proofs.Shape.Joined

/-! Merging as work at one place after the other. A turn takes over what can be taken over at a
place at once, and leaves the shapes that both sides hold there for later turns; what was left last
is done first. When nothing is left, the shape knows what both know together. -/
namespace CodeCompletion.Shape

variable {a b s t child other root root' result : Shape} {step : Step} {place : List Step}
  {change : Shape → Shape} {pairs : List (Step × Shape)}

/-- One turn: the larger weight, all types and as many sources, and what is new of their properties,
as it is and at the end. -/
def takeOver (s other : Shape) : Shape :=
  let base := s.combine other
  { base with properties := base.properties ++ other.properties.filter (·.1 ∉ s.names) }

/-- What a turn leaves to do: the properties that were there before it and that they have too, in
our order, then all of their sources, for which there is a slot by now. -/
def shared (s other : Shape) : List (Step × Shape) :=
  s.names.filterMap (fun name => (other.property? name).map (.property name, ·)) ++
    (other.sources.getD []).mapIdx (.source ·, ·)

structure Pending where
  place : List Step
  other : Shape

/-- The work on a shape, from what is to be done and the shape before it to the shape in the end. -/
inductive Works : List Pending → Shape → Shape → Prop where
  | done {root : Shape} : Works [] root root
  | turn {root root' result s other : Shape} {place : List Step} {rest : List Pending}
      (here : root.at? place = some s)
      (taken : modifyAt? (·.takeOver other) place root = some root')
      (later : Works ((s.shared other).reverse.map (fun pair => ⟨place ++ [pair.1], pair.2⟩) ++ rest)
        root' result) : Works (⟨place, other⟩ :: rest) root result

/-- There is no choice in the work. -/
theorem Works.unique {pending : List Pending} {result' : Shape} (first : Works pending root result)
    (second : Works pending root result') : result = result' := by
  induction first with
  | done =>
    cases second
    rfl
  | turn here taken _ ih =>
    cases second with
    | turn here' taken' later =>
      cases here.symm.trans here'
      cases taken.symm.trans taken'
      exact ih later

section Steps

theorem upsert_upsert (name : String) (change change' : Option Shape → Shape)
    (ps : List (String × Shape)) :
    upsert name change' (upsert name change ps) =
      upsert name (fun known => change' (some (change known))) ps := by
  induction ps with
  | nil => simp [upsert]
  | cons entry rest ih =>
    rw [upsert,upsert]
    by_cases same : entry.1 = name
    · rw [if_pos same,if_pos same,upsert,if_pos same]
    · rw [if_neg same,if_neg same,upsert,if_neg same,ih]

theorem upsert_same {name : String} {ps : List (String × Shape)} (found : ps.lookup name = some child) :
    upsert name (fun _ => child) ps = ps := by
  induction ps with
  | nil => cases found
  | cons entry rest ih =>
    rw [upsert]
    by_cases same : entry.1 = name
    · subst same
      rw [lookup_cons_same,Option.some_inj] at found
      rw [if_pos rfl,← found]
    · rw [lookup_cons_of_ne _ (Ne.symm same)] at found
      rw [if_neg same,ih found]

theorem step?_setStep (found : s.step? step = some other) (child : Shape) :
    (s.setStep step child).step? step = some child := by
  cases step with
  | property name => exact lookup_upsert_self name _ s.properties
  | source index =>
    obtain ⟨sources, known, held⟩ := Option.bind_eq_some_iff.mp found
    have inside := (List.getElem?_eq_some_iff.mp held).1
    simp [step?,setStep,source?,known,inside]

theorem step?_setStep_of_ne {step' : Step} (differs : step' ≠ step) (child : Shape) :
    (s.setStep step child).step? step' = s.step? step' := by
  cases step with
  | property name =>
    cases step' with
    | property name' => exact lookup_upsert_of_ne _ s.properties (by simpa using differs)
    | source index' => rfl
  | source index =>
    cases step' with
    | property name' => rfl
    | source index' =>
      have apart : index ≠ index' := by simpa using Ne.symm differs
      cases known : s.sources <;> simp [step?,setStep,source?,known,apart]

theorem setStep_setStep (s : Shape) (step : Step) (child child' : Shape) :
    (s.setStep step child).setStep step child' = s.setStep step child' := by
  cases step with
  | property name => simp [setStep,upsert_upsert]
  | source index => cases known : s.sources <;> simp [setStep,known]

theorem setStep_same (found : s.step? step = some child) : s.setStep step child = s := by
  cases step with
  | property name =>
    have found : s.properties.lookup name = some child := found
    rw [setStep,upsert_same found]
    cases s
    rfl
  | source index =>
    obtain ⟨sources, known, held⟩ := Option.bind_eq_some_iff.mp found
    obtain ⟨inside, here⟩ := List.getElem?_eq_some_iff.mp held
    rw [setStep,known,Option.map_some,← here,List.set_getElem_self,← known]
    cases s
    rfl

theorem names_setStep (found : s.step? step = some other) (child : Shape) :
    (s.setStep step child).names = s.names := by
  cases step with
  | property name =>
    have known : name ∈ s.properties.map (·.1) := mem_names_iff.mpr ⟨other, found⟩
    rw [setStep,names,names,keys_upsert,addNew,if_pos known]
  | source index => rfl

end Steps

section Places

theorem at?_append : root.at? (place ++ [step]) = (root.at? place).bind (·.step? step) := by
  induction place generalizing root with
  | nil => simp
  | cons first rest ih =>
    rw [List.cons_append,at?,at?,Option.bind_assoc]
    exact Option.bind_congr fun child _ => ih

theorem exists_modifyAt? (here : root.at? place = some s) (change : Shape → Shape) :
    ∃ root', modifyAt? change place root = some root' := by
  induction place generalizing root with
  | nil => exact ⟨_, rfl⟩
  | cons first rest ih =>
    obtain ⟨child, found, here⟩ := Option.bind_eq_some_iff.mp here
    obtain ⟨child', changed⟩ := ih here
    exact ⟨root.setStep first child', by simp [found,changed]⟩

/-- A change at a place is a change of what is found there. -/
theorem modifyAt?_eq (here : root.at? place = some s) :
    modifyAt? change place root = modifyAt? (fun _ => change s) place root := by
  induction place generalizing root with
  | nil =>
    cases here
    rfl
  | cons first rest ih =>
    obtain ⟨child, found, here⟩ := Option.bind_eq_some_iff.mp here
    simp [found,ih here]

theorem at?_of_modifyAt? (here : root.at? place = some s)
    (changed : modifyAt? (fun _ => t) place root = some root') : root'.at? place = some t := by
  induction place generalizing root root' with
  | nil =>
    cases changed
    rfl
  | cons first rest ih =>
    obtain ⟨child, found, here⟩ := Option.bind_eq_some_iff.mp here
    simp only [modifyAt?,found,Option.bind_eq_bind,Option.bind_some] at changed
    obtain ⟨child', inner, same⟩ := Option.bind_eq_some_iff.mp changed
    cases same
    rw [at?,step?_setStep found,Option.bind_some,ih here inner]

/-- Of two changes at a place the second one counts. -/
theorem modifyAt?_twice {t' : Shape} (here : root.at? place = some s)
    (changed : modifyAt? (fun _ => t) place root = some root') :
    modifyAt? (fun _ => t') place root' = modifyAt? (fun _ => t') place root := by
  induction place generalizing root root' with
  | nil => rfl
  | cons first rest ih =>
    obtain ⟨child, found, here⟩ := Option.bind_eq_some_iff.mp here
    simp only [modifyAt?,found,Option.bind_eq_bind,Option.bind_some] at changed ⊢
    obtain ⟨child', inner, same⟩ := Option.bind_eq_some_iff.mp changed
    cases same
    simp [step?_setStep found,ih here inner,setStep_setStep]

theorem modifyAt?_same (here : root.at? place = some s) :
    modifyAt? (fun _ => s) place root = some root := by
  induction place generalizing root with
  | nil =>
    cases here
    rfl
  | cons first rest ih =>
    obtain ⟨child, found, here⟩ := Option.bind_eq_some_iff.mp here
    simp [found,ih here,setStep_same found]

theorem modifyAt?_append (here : root.at? place = some s) (found : s.step? step = some child)
    (change : Shape → Shape) :
    modifyAt? change (place ++ [step]) root =
      modifyAt? (fun _ => s.setStep step (change child)) place root := by
  induction place generalizing root with
  | nil =>
    cases here
    simp [found]
  | cons first rest ih =>
    obtain ⟨child', found', here⟩ := Option.bind_eq_some_iff.mp here
    simp [found',ih here]

end Places

section Pairs

def mergeStep (s : Shape) (pair : Step × Shape) : Shape :=
  (s.step? pair.1).elim s fun child => s.setStep pair.1 (child.merge pair.2)

theorem mergeStep_eq {pair : Step × Shape} (found : s.step? pair.1 = some child) :
    s.mergeStep pair = s.setStep pair.1 (child.merge pair.2) := by
  rw [mergeStep,found,Option.elim_some]

structure Open (s : Shape) (pairs : List (Step × Shape)) : Prop where
  distinct : (pairs.map (·.1)).Nodup
  held : ∀ pair ∈ pairs, ∃ child, s.step? pair.1 = some child ∧ child.WellFormed

/-- What is done at one step leaves the others as they are. -/
theorem Open.next {pair : Step × Shape} (isOpen : s.Open (pair :: pairs)) :
    (s.mergeStep pair).Open pairs := by
  obtain ⟨fresh, distinct⟩ := List.nodup_cons.mp isOpen.distinct
  obtain ⟨child, found, -⟩ := isOpen.held pair List.mem_cons_self
  refine ⟨distinct, fun other member => ?_⟩
  obtain ⟨child', found', valid⟩ := isOpen.held other (List.mem_cons_of_mem _ member)
  have differs : other.1 ≠ pair.1 := fun same =>
    fresh (List.mem_map.mpr ⟨other, member, same⟩)
  rw [mergeStep_eq found,step?_setStep_of_ne differs]
  exact ⟨child', found', valid⟩

structure Merged (s : Shape) (pairs : List (Step × Shape)) (t : Shape) : Prop where
  weight : t.weight = s.weight
  types : t.types = s.types
  names : t.names = s.names
  function : t.sources.isSome = s.sources.isSome
  kept : ∀ step, step ∉ pairs.map (·.1) → t.step? step = s.step? step
  merged : ∀ pair ∈ pairs, t.step? pair.1 = (s.step? pair.1).map (·.merge pair.2)

theorem Open.merged (isOpen : s.Open pairs) : s.Merged pairs (pairs.foldl mergeStep s) := by
  induction pairs generalizing s with
  | nil => exact ⟨rfl, rfl, rfl, rfl, fun _ _ => rfl, nofun⟩
  | cons pair rest ih =>
    have rest := ih isOpen.next
    obtain ⟨fresh, -⟩ := List.nodup_cons.mp isOpen.distinct
    obtain ⟨child, found, -⟩ := isOpen.held pair List.mem_cons_self
    rw [mergeStep_eq found] at rest
    rw [List.foldl_cons,mergeStep_eq found]
    refine ⟨?_, ?_, ?_, ?_, ?_, ?_⟩
    · rw [rest.weight]
      cases pair.1 <;> rfl
    · rw [rest.types]
      cases pair.1 <;> rfl
    · rw [rest.names,names_setStep found]
    · rw [rest.function]
      cases pair.1 <;> simp [setStep]
    · intro step absent
      obtain ⟨differs, absent⟩ := List.ne_and_not_mem_of_not_mem_cons absent
      rw [rest.kept step absent,step?_setStep_of_ne differs]
    · intro other member
      rcases List.mem_cons.mp member with rfl | later
      · rw [rest.kept _ fresh,step?_setStep found,found,Option.map_some]
      · have differs : other.1 ≠ pair.1 := fun same =>
          fresh (List.mem_map.mpr ⟨other, later, same⟩)
        rw [rest.merged other later,step?_setStep_of_ne differs]

end Pairs

section Turn

theorem property_mem_shared {name : String} :
    (.property name, child) ∈ s.shared other ↔ name ∈ s.names ∧ other.property? name = some child := by
  simp [shared,List.mem_mapIdx]

theorem source_mem_shared {index : Nat} :
    (.source index, child) ∈ s.shared other ↔ other.source? index = some child := by
  cases known : other.sources <;> simp [shared,source?,known,List.mem_mapIdx,List.getElem?_eq_some_iff]

theorem nodup_shared (distinct : s.names.Nodup) : ((s.shared other).map (·.1)).Nodup := by
  rw [shared,List.map_append]
  refine List.Nodup.append ?_ ?_ ?_
  · rw [List.map_filterMap]
    refine distinct.filterMap fun name name' step found found' => ?_
    simp only [Option.map_map,Option.mem_def,Option.map_eq_some_iff] at found found'
    obtain ⟨_, -, rfl⟩ := found
    obtain ⟨_, -, same⟩ := found'
    exact (Step.property.inj same).symm
  · exact List.nodup_iff_injective_getElem.mpr fun i j same => by simpa [Fin.ext_iff] using same
  · intro step first second
    obtain ⟨⟨_, given⟩, listed, rfl⟩ := List.mem_map.mp first
    obtain ⟨⟨_, given'⟩, listed', same⟩ := List.mem_map.mp second
    obtain ⟨name, -, found⟩ := List.mem_filterMap.mp listed
    obtain ⟨index, inside, found'⟩ := List.mem_mapIdx.mp listed'
    obtain ⟨_, -, found⟩ := Option.map_eq_some_iff.mp found
    cases found
    cases found'
    cases same

theorem property?_takeOver (s other : Shape) (name : String) :
    (s.takeOver other).property? name = (s.property? name).or (other.property? name) := by
  rw [property?,takeOver,properties_combine,List.lookup_append]
  cases found : s.property? name with
  | none =>
    have new : name ∉ s.names := lookup_eq_none_iff_not_mem.mp found
    rw [← property?,found,lookup_filter_new new]
    rfl
  | some child =>
    rw [← property?,found]
    rfl

theorem source?_takeOver (ours : s.Regular) (theirs : other.Regular) (index : Nat) :
    (s.takeOver other).source? index =
      (s.source? index).or ((other.source? index).map fun _ => .empty) :=
  source?_combine ours theirs index

/-- After a turn all is there into which something is left to be merged. -/
theorem open_takeOver (ours : s.WellFormed) (theirs : other.Regular) :
    (s.takeOver other).Open (s.shared other).reverse := by
  constructor
  · rw [List.map_reverse,List.nodup_reverse]
    exact nodup_shared ours.here.names
  · rintro ⟨step, child⟩ listed
    rw [List.mem_reverse] at listed
    cases step with
    | property name =>
      obtain ⟨known, -⟩ := property_mem_shared.mp listed
      obtain ⟨mine, found⟩ := mem_names_iff.mp known
      refine ⟨mine, ?_, ours.property found⟩
      rw [step?,property?_takeOver,found,Option.some_or]
    | source index =>
      have given := source_mem_shared.mp listed
      rw [step?,source?_takeOver ours.here theirs,given]
      cases found : s.source? index with
      | none => exact ⟨.empty, rfl, .empty⟩
      | some mine => exact ⟨mine, rfl, ours.source found⟩

/-- A turn and all that it leaves to do are the merge. -/
theorem foldl_takeOver (ours : s.WellFormed) (theirs : other.Regular) :
    (s.shared other).reverse.foldl mergeStep (s.takeOver other) = s.merge other := by
  have done := (open_takeOver ours theirs).merged
  have names : ((s.shared other).reverse.foldl mergeStep (s.takeOver other)).names =
      (s.merge other).names := by
    rw [done.names,names_merge theirs,Shape.names,takeOver,properties_combine,List.map_append,
      Shape.names,Shape.names,List.filter_map]
    rfl
  have absent {step : Step} (unshared : ∀ child, (step, child) ∉ s.shared other) :
      step ∉ (s.shared other).reverse.map (·.1) := by
    rw [List.map_reverse,List.mem_reverse]
    intro member
    obtain ⟨⟨step, child⟩, listed, rfl⟩ := List.mem_map.mp member
    exact unshared child listed
  refine eq_of_parts ?_ ?_ names (names ▸ (ours.here.merge theirs).names) ?_ ?_ ?_
  · rw [done.weight,weight_merge,takeOver,weight_combine]
  · rw [done.types,types_merge,takeOver]
  · intro name
    have kept := done.kept (.property name)
    rw [step?,step?,property?_takeOver] at kept
    rw [property?_merge theirs]
    cases given : other.property? name with
    | none =>
      rw [kept (absent fun child listed => by simp [property_mem_shared,given] at listed),given,
        Option.or_none,Option.elim_none]
    | some child =>
      cases found : s.property? name with
      | none =>
        have new : name ∉ s.names := lookup_eq_none_iff_not_mem.mp found
        rw [kept (absent fun child listed => new (property_mem_shared.mp listed).1),found,given]
        rfl
      | some mine =>
        have known : name ∈ s.names := mem_names_iff.mpr ⟨mine, found⟩
        have listed := property_mem_shared.mpr ⟨known, given⟩
        have merged := done.merged _ (List.mem_reverse.mpr listed)
        rw [step?,step?,property?_takeOver,found] at merged
        exact merged
  · rw [done.function,takeOver,sources_merge]
    cases other.sources <;> simp
  · intro index
    have kept := done.kept (.source index)
    rw [step?,step?,source?_takeOver ours.here theirs] at kept
    rw [source?_merge ours.here theirs]
    cases given : other.source? index with
    | none =>
      rw [kept (absent fun child listed => by simp [source_mem_shared,given] at listed),given,
        Option.map_none,Option.or_none,Option.elim_none]
    | some child =>
      have listed : (.source index, child) ∈ s.shared other := source_mem_shared.mpr given
      have merged := done.merged _ (List.mem_reverse.mpr listed)
      rw [step?,step?,source?_takeOver ours.here theirs,given] at merged
      rw [merged]
      cases s.source? index <;> rfl

end Turn

section Work

/-- A shape can be worked off wherever it is met: the work on it is the merge there, and then goes
on with the rest. -/
def WorkedOff (other : Shape) : Prop :=
  ∀ {s root root' result : Shape} {place : List Step} {rest : List Pending},
    root.at? place = some s → s.WellFormed → modifyAt? (·.merge other) place root = some root' →
    Works rest root' result → Works (⟨place, other⟩ :: rest) root result

theorem works_pairs {rest : List Pending} (each : ∀ pair ∈ pairs, WorkedOff pair.2)
    (here : root.at? place = some s) (isOpen : s.Open pairs)
    (changed : modifyAt? (fun _ => pairs.foldl mergeStep s) place root = some root')
    (later : Works rest root' result) :
    Works (pairs.map (fun pair => ⟨place ++ [pair.1], pair.2⟩) ++ rest) root result := by
  induction pairs generalizing root s with
  | nil =>
    rw [List.foldl_nil,modifyAt?_same here,Option.some_inj] at changed
    rw [changed]
    exact later
  | cons pair pairs ih =>
    obtain ⟨child, found, valid⟩ := isOpen.held pair List.mem_cons_self
    have there : root.at? (place ++ [pair.1]) = some child := by
      rw [at?_append,here,Option.bind_some,found]
    obtain ⟨next, merged⟩ := exists_modifyAt? there (·.merge pair.2)
    have put : modifyAt? (fun _ => s.mergeStep pair) place root = some next := by
      rw [mergeStep_eq found,← merged]
      exact (modifyAt?_append here found (·.merge pair.2)).symm
    have here' := at?_of_modifyAt? here put
    have changed' : modifyAt? (fun _ => pairs.foldl mergeStep (s.mergeStep pair)) place next =
        some root' := (modifyAt?_twice here put).trans changed
    exact each pair List.mem_cons_self there valid merged
      (ih (fun pair member => each pair (List.mem_cons_of_mem _ member)) here' isOpen.next changed')

theorem worked_off (theirs : other.WellFormed) : WorkedOff other := by
  induction theirs with
  | @intro other regular below ih =>
    intro s root root' result place rest here ours merged later
    obtain ⟨next, taken⟩ := exists_modifyAt? here (·.takeOver other)
    refine .turn here taken ?_
    rw [modifyAt?_eq here] at taken merged
    refine works_pairs ?_ (at?_of_modifyAt? here taken) (open_takeOver ours regular) ?_ later
    · rintro ⟨step, child⟩ listed
      refine ih step child ?_
      cases step with
      | property name => exact (property_mem_shared.mp (List.mem_reverse.mp listed)).2
      | source index => exact source_mem_shared.mp (List.mem_reverse.mp listed)
    · rw [modifyAt?_twice here taken,foldl_takeOver ours regular,merged]

/-- Merging two shapes gives what both know together: at every place the larger weight and all
types, our names before the new ones, and as many sources as the side with more of them has. Working
off one place after the other comes to an end however deep the shapes are, and with that result. -/
theorem merge_worked_off (a b : Shape) (ours : a.WellFormed) (theirs : b.WellFormed) :
    a.merge b = a.joined b ∧ ∀ result, Works [⟨[], b⟩] a result ↔ result = a.joined b := by
  have joint := merge_eq_joined ours theirs
  have works : Works [⟨[], b⟩] a (a.joined b) :=
    worked_off theirs rfl ours (joint ▸ rfl) .done
  refine ⟨joint, fun result => ⟨fun work => work.unique works, ?_⟩⟩
  rintro rfl
  exact works

/-- Both know `f`, with a property and with other sources, and only the second knows `g`. -/
theorem merge_worked_off_function :
    let ours := Shape.empty.declare "f" 2
      (·.changeSource 1 (·.declareTyped "x" (some (.instanceOf "Array")) 1))
    let theirs := (Shape.empty.declareTyped "g" none 1).declare "f" 5 fun f =>
      (f.changeSource 3 (·.declareTyped "y" none 1)).changeSource 1 (·.declareTyped "x" none 7)
    ours.WellFormed ∧ theirs.WellFormed ∧ (ours.merge theirs).names = ["f", "g"] ∧
      ours.merge theirs = ours.joined theirs ∧
      ∀ result, Works [⟨[], theirs⟩] ours result ↔ result = ours.joined theirs := by
  intro ours theirs
  have left : ours.WellFormed := WellFormed.empty.declare fun _ valid =>
    valid.changeSource fun _ valid => valid.declareTyped
  have right : theirs.WellFormed := WellFormed.empty.declareTyped.declare fun _ valid =>
    (valid.changeSource fun _ valid => valid.declareTyped).changeSource fun _ valid =>
      valid.declareTyped
  have names : (ours.merge theirs).names = ["f", "g"] := by decide +kernel
  exact ⟨left, right, names, merge_worked_off ours theirs left right⟩

end Work

end CodeCompletion.Shape
