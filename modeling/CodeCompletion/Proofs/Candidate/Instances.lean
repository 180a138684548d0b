import CodeCompletion.Proofs.Analysis.Callee
import CodeCompletion.Proofs.Analysis.Parameters
import CodeCompletion.Proofs.Analysis.Steadiness
import CodeCompletion.Proofs.Candidate.Lookup

/-! Fields of instances. What a function assigns to `this`, anywhere in its body but in a function
or class inside it, is offered for a variable that starts as an instance of the function. Nothing
that is said in the rest of the program takes a field away. -/
namespace CodeCompletion

open Shape

namespace TreeNode

variable {n c : TreeNode}

/-- Only operands and bindings are overlooked. -/
theorem isStatement_of_overlooked (member : c ∈ n.overlooked) : c.isStatement = false := by
  have operand {values : List Expr} (given : c ∈ exprs values) : c.isStatement = false := by
    obtain ⟨value, -, rfl⟩ := List.mem_map.mp given
    rfl
  have single {value : Expr} (given : c ∈ [expr value]) : c.isStatement = false :=
    operand (show c ∈ exprs [value] from given)
  have computed {key : PropertyKey} (given : c ∈ ofKey key) : c.isStatement = false := by
    cases key with
    | computed value => exact single given
    | ident | str | num => cases given
  fun_cases overlooked n
  · rcases List.mem_append.mp member with test | update
    · exact operand test
    · exact operand update
  · rename_i start right body ofValues
    rcases List.mem_append.mp member with bound | value
    · cases start with
      | bindings span kind declarators =>
        obtain ⟨d, -, rfl⟩ := List.mem_map.mp bound
        rfl
      | expr value => exact single bound
    · exact single value
  · exact single member
  · exact single member
  · exact single member
  · exact operand member
  · obtain ⟨p, -, given⟩ := List.mem_flatMap.mp member
    exact operand given
  · exact operand member
  · exact computed member
  · exact computed member
  · exact single member
  · exact single member
  · exact single member
  · rename_i name isOptional
    cases name with
    | name part => cases member
    | computed value => exact single member
  · rename_i other
    rw [overlooked] at member <;> try assumption
    cases member

/-- The function body assigns to a field of `this`, or to something below it, in a statement that
is in no function or class of its own. -/
def AssignsField (body : FunctionBody) (field : String) : Prop :=
  ∃ braces span span' op target value rest, body = .block braces ∧
    Enclosed (.block braces) (.stmt (.expr span (.assign span' op target value))) ∧
    target.path? = some ("this" :: field :: rest)

def DeclaresField (statements : List Stmt) (name field : String) : Prop :=
  ∃ span function id, .function span function ∈ statements ∧ function.name = some id ∧
    id.name = name ∧ AssignsField function.body field

def BindsInstance (statements : List Stmt) (bound name : String) : Prop :=
  ∃ span kind declarators d span' span'' arguments, .declare span kind declarators ∈ statements ∧
    d ∈ declarators ∧ d.target.name = bound ∧
    d.init = some (.construct span' (.ident span'' name) arguments)

end TreeNode

namespace Task

open TreeNode

variable {v : Viewpoint} {tasks : List Task} {n m : TreeNode}

/-- A walk that enters every block looks into all statements below those that it looks into. -/
theorem Attended.enclosed (every : v.everyBlock = true) (attended : Attended v tasks n)
    (statement : n.isStatement = true) (path : Enclosed n m) :
    Attended v tasks m ∧ m.isStatement = true := by
  have opens (span : Span) : v.opens span = true := by simp [Viewpoint.opens,every]
  induction path with
  | refl => exact ⟨attended, statement⟩
  | tail _ step ih =>
    refine ⟨ih.1.statement ih.2 step.1 (fun overlooked => ?_) (opens _) (opens _), step.2⟩
    exact absurd step.2 (by simp [isStatement_of_overlooked overlooked])

theorem reached_of_enclosed {braces : Block} {span : Span} {value : Expr}
    (every : v.everyBlock = true) (path : Enclosed (.block braces) (.stmt (.expr span value))) :
    ∃ depth, Reached v (stmts 0 braces.body) ⟨.expr value, depth⟩ := by
  rcases path.cases_head with same | ⟨c, ⟨member, -⟩, path⟩
  · cases same
  · obtain ⟨s, listed, rfl⟩ := List.mem_map.mp member
    have reached : Reached v (stmts 0 braces.body) ⟨.stmt s, 0⟩ :=
      .mem (List.mem_map.mpr ⟨s, listed, rfl⟩)
    obtain ⟨⟨depth, visited, -⟩, -⟩ := reached.attended_stmt.enclosed every rfl path
    exact ⟨depth, (visited _ List.mem_cons_self).part List.mem_cons_self⟩

end Task

namespace Shape

variable {s t child : Shape} {steps : List Step} {name : String} {weight : Nat}

def Knows (s : Shape) (steps : List Step) : Prop := ∃ child, s.at? steps = some child

theorem Knows.le (knows : s.Knows steps) (le : s ≤ t) : t.Knows steps := by
  obtain ⟨child, found⟩ := knows
  obtain ⟨other, found', -⟩ := at_le le found
  exact ⟨other, found'⟩

theorem knows_property : s.Knows (.property name :: steps) ↔
    ∃ child, s.property? name = some child ∧ child.Knows steps := by
  simp only [Knows,at?,step?,Option.bind_eq_some_iff]
  grind

theorem knows_source {index : Nat} : s.Knows (.source index :: steps) ↔
    ∃ child, s.source? index = some child ∧ child.Knows steps := by
  simp only [Knows,at?,step?,Option.bind_eq_some_iff]
  grind

/-- A name is declared with the shape of what it stands for. -/
theorem knows_declare (valid : s.WellFormed) (inner : child.WellFormed) (knows : child.Knows steps) :
    (s.declare name weight (·.merge child)).Knows (.property name :: steps) := by
  have before : (redeclared weight (s.property? name)).WellFormed :=
    .redeclared (fun _ found => valid.property found) weight
  exact knows_property.mpr ⟨_, property?_declare .., knows.le (le_merge_right before inner)⟩

theorem knows_declarePath {first second : String} {rest : List String} {change : Shape → Shape} :
    (declarePath weight change (first :: second :: rest) s).Knows [.property first, .property second] :=
  knows_property.mpr ⟨_, property?_declare .., knows_property.mpr ⟨_, property?_declare .., _, rfl⟩⟩

end Shape

namespace Walk

variable {v : Viewpoint} {shaping : Shaping Budget} {tasks : List Task} {task : Task} {w : Walk Budget}
  {P : Shape → Prop}

/-- What a reached task brings about stays if more knowledge does not end it. The budget was not
used up when the task was done, since it is not used up in the end, and no function was entered that
had not been left. -/
theorem run_brings_lasting (steady : shaping.Steady) (lasting : ∀ s t, s ≤ t → P s → P t)
    {depth : Nat} (level : w.budget.shapeDepth = depth) (valid : w.root.WellFormed)
    (reached : Task.Reached v tasks task)
    (brings : ∀ w, w.budget.shapeDepth = depth → w.root.WellFormed →
      (note v shaping task w).budget.exhausted = false → P (note v shaping task w).root)
    (enough : (run v shaping tasks w).budget.exhausted = false) : P (run v shaping tasks w).root := by
  have rule := Budget.rule_kept shaping.limits
  fun_induction run v shaping tasks w with
  | case1 w =>
    obtain ⟨first, given, -⟩ := reached
    cases given
  | case2 w head rest budget stopped => cases enough.symm.trans (Budget.exhausted_of_visit stopped)
  | case3 w head rest budget visited ih =>
    let before : Walk Budget := { w with budget }
    have next : (note v shaping head before).root.WellFormed :=
      (note_adds steady.valid head (w := before) valid).second
    have here : budget.shapeDepth = depth := (Budget.kept_of_visit_ok visited).depth.trans level
    rcases Task.reached_cons.mp reached with rfl | later
    · have spent := Budget.Kept.goesOn (obeys_run rule steady.keeps v _ _) enough
      exact lasting _ _ (run_adds steady.valid next).le (brings before here valid spent)
    · have noted : budget.Kept (note v shaping head before).budget :=
        (asking_note head w.root).obeys rule steady.keeps budget
      exact ih (noted.depth.trans here) next later enough

end Walk

section Body

open TreeNode

variable {shaping : Shaping Budget} {field : String} {budget : Budget}

/-- All fields are known at the end of the body. -/
theorem knows_scopeOfBody (steady : shaping.Steady) {v : Viewpoint} (every : v.everyBlock = true)
    {params : List Param} {braces : Block} (assigns : AssignsField (.block braces) field)
    (enough : (scopeOfBody shaping v params braces.body budget).2.exhausted = false) :
    (scopeOfBody shaping v params braces.body budget).1.Knows [.property "this", .property field] := by
  obtain ⟨_, span, span', op, target, value, rest, ⟨⟩, assigned, place⟩ := assigns
  obtain ⟨depth, reached⟩ := Task.reached_of_enclosed every assigned
  let start : Walk Budget := Walk.declareParams ⟨.empty, budget⟩ params 0
  have valid : start.root.WellFormed := (Walk.declareParams_adds params .empty).second
  have walked : (Walk.run v shaping (Task.stmts 0 braces.body) start).budget.exhausted = false :=
    Walk.goesOn_of_scopeOfBody enough
  refine Walk.run_brings_lasting (P := (Knows · [.property "this", .property field])) steady
    (fun _ _ le knows => knows.le le) rfl valid reached (fun w _ _ _ => ?_) walked
  simp only [Walk.note,Walk.noteExpr,place,Option.elim_some]
  exact knows_declarePath

theorem addParameters_empty (position : Nat) (params : List Param) (s : Shape) :
    addParameters .empty position params s = s := by
  induction params generalizing position with
  | nil => rfl
  | cons param rest ih => exact ih (position + 1)

/-- Adding what is known of parameters and of the result takes nothing away. -/
theorem bodyShape_adds {scope s : Shape} {result : Option Shape} (known : scope.WellFormed)
    (found : ∀ shape ∈ result, shape.WellFormed) (valid : s.WellFormed)
    (function : s.sources.isSome = true) (params : List Param) :
    s ≤ result.elim (addParameters scope 0 params s) fun shape =>
      (addParameters scope 0 params s).changeSource Facet.ofResult (·.merge shape) := by
  have more : Rises .empty scope := ⟨.empty, known, empty_le scope⟩
  have first := addParameters_rises more 0 params ⟨.refl valid, function⟩
  rw [addParameters_empty] at first
  have may : MayRise none result := ⟨nofun, found⟩
  exact (first.elim may Facet.ofResult).le

/-- The instances of a function have the fields that are assigned in its body. -/
theorem knows_bodyShape (steady : shaping.Steady) {function : Function}
    (assigns : AssignsField function.body field)
    (enough : (bodyShape shaping function budget).2.exhausted = false) :
    (bodyShape shaping function budget).1.Knows [.source Facet.ofInstance, .property field] := by
  obtain ⟨name, params, body, isArrow, span⟩ := function
  have ⟨braces, _, _, _, _, _, _, same, _⟩ := assigns
  cases same
  let walked := scopeOfBody shaping ⟨braces.span.stop.position, true⟩ params braces.body budget
  have valid : walked.1.WellFormed := wellFormed_scopeOfBody steady.valid _ _ _ _
  have results := wellFormed_resultShape? steady.valid params braces.body valid walked.2
  have kept : walked.2.Kept _ :=
    obeys_resultShape? (Budget.rule_kept shaping.limits) steady.keeps params braces.body walked.1 walked.2
  have before : walked.2.exhausted = false := kept.goesOn enough
  obtain ⟨self, found, knows⟩ :
      ∃ self, walked.1.property? "this" = some self ∧ self.Knows [.property field] :=
    knows_property.mp (knows_scopeOfBody steady rfl assigns before)
  have inner : self.WellFormed := valid.property found
  have blank : (Shape.function 0).WellFormed := .function 0
  let start := (walked.1.property? "this").elim (Shape.function 0) fun known =>
    (Shape.function 0).changeSource Facet.ofInstance (·.merge known)
  have made : start = (Shape.function 0).changeSource Facet.ofInstance (·.merge self) := by
    simp only [start,found,Option.elim_some]
  have first : start.Knows [.source Facet.ofInstance, .property field] := by
    rw [made]
    refine knows_source.mpr ⟨_, source?_changeSource blank.here .., knows.le ?_⟩
    exact le_merge_right .empty inner
  have shaped : start.WellFormed := made ▸ blank.changeSource fun _ given => given.merge inner
  have function : start.sources.isSome = true := made ▸ isSome_sources_changeSource blank.here
  exact first.le (bodyShape_adds valid results shaped function params)

/-- A function is declared with its shape, which is found before the budget is used up. -/
theorem knows_note_function {v : Viewpoint} {depth : Nat} {span : Span} {function : Function}
    {id : Ident} {w : Walk Budget} {steps : List Step} (steady : shaping.Steady)
    (named : function.name = some id) (valid : w.root.WellFormed)
    (knows : (shaping.function function w.budget).2.exhausted = false →
      (shaping.function function w.budget).1.Knows steps)
    (enough : (Walk.note v shaping ⟨.stmt (.function span function), depth⟩ w).budget.exhausted = false) :
    (Walk.note v shaping ⟨.stmt (.function span function), depth⟩ w).root.Knows
      (.property id.name :: steps) := by
  have found : (shaping.function function w.budget).1.WellFormed := steady.valid (.trivial _) w.budget
  let declared := w.declareShaped id.name depth (shaping.function function)
  have made : Walk.note v shaping ⟨.stmt (.function span function), depth⟩ w =
      Walk.openFunction v declared function depth := by
    simp only [Walk.note,Walk.noteStmt,named,Option.elim_some,declared]
  rw [made] at enough ⊢
  have before : declared.budget.exhausted = false :=
    Budget.Kept.goesOn ((Walk.asking_openFunction function declared.root).obeys
      (Budget.rule_kept shaping.limits) steady.keeps declared.budget) enough
  have first : declared.root.Knows (.property id.name :: steps) :=
    knows_declare valid found (knows before)
  have inner : declared.root.WellFormed := valid.declare fun _ given => given.merge found
  exact first.le ((Walk.declares_openFunction allows_adds (.trivial _) declared).rises inner).le

end Body

section Program

open TreeNode

variable {body : List Stmt} {caret : Position} {limits : Limits} {name field : String}

/-- The fields of a function are known in the end, below the instances of the function. -/
theorem knows_visibleAt (deep : 1 ≤ limits.shapeDepth) (declares : DeclaresField body name field)
    (enough : (walkAt body caret limits).budget.exhausted = false) :
    (visibleAt body caret limits).Knows
      [.property name, .source Facet.ofInstance, .property field] := by
  obtain ⟨span, function, id, declared, named, rfl, assigns⟩ := declares
  have steady : limits.shaping.Steady := steady_shapeWithin limits limits.shapeDepth
  have shaped (budget : Budget) (level : budget.shapeDepth = 0)
      (enough : (shapeOfFunction limits function budget).2.exhausted = false) :
      (shapeOfFunction limits function budget).1.Knows [.source Facet.ofInstance, .property field] := by
    have entered : ¬ limits.shapeDepth ≤ budget.shapeDepth := by omega
    rw [shapeOfFunction_eq,if_neg entered] at enough ⊢
    exact knows_bodyShape steady assigns enough
  have reached : Task.Reached ⟨caret, false⟩ (Task.stmts 0 body) ⟨.stmt (.function span function), 0⟩ :=
    .mem (List.mem_map.mpr ⟨_, declared, rfl⟩)
  refine Walk.run_brings_lasting (P := (Knows · [_, _, _])) steady (fun _ _ le knows => knows.le le)
    rfl .empty reached (fun w level valid enough => ?_) enough
  exact knows_note_function steady named valid (shaped w.budget level) enough

theorem originOf_singleton (name : String) : Facet.originOf [name] = name := by
  simp [Facet.originOf]

/-- What a `new` expression of a name gives is an instance of what the name stands for. -/
theorem mem_types_construct {shaping : Shaping Budget} {weight : Nat} {span span' : Span} {name : String}
    {arguments : List Expr} {budget : Budget} (deep : 1 ≤ shaping.limits.literalDepth) :
    .instanceOf name ∈ (shapeOfValue shaping weight 0
      (.construct span (.ident span' name) arguments) budget).1.types.toList := by
  unfold shapeOfValue
  rw [if_neg (Nat.not_le.mpr deep)]
  show _ ∈ ((Shape.ofWeight weight).withType (.instanceOf (Facet.originOf [name]))).types.toList
  rw [originOf_singleton,types_withType]
  exact Facets.mem_insert.mpr (Or.inl rfl)

def Shape.HasType (s : Shape) (name : String) (type : Facet) : Prop :=
  ∃ child, s.property? name = some child ∧ type ∈ child.types.toList

theorem Shape.HasType.le {s t : Shape} {name : String} {type : Facet} (typed : s.HasType name type)
    (le : s ≤ t) : t.HasType name type := by
  obtain ⟨child, found, held⟩ := typed
  obtain ⟨other, found', above⟩ := property_le le found
  exact ⟨other, found', types_le above type held⟩

/-- A variable has the types of the value it starts with. -/
theorem hasType_visibleAt {span : Span} {kind : BindingKind} {declarators : List Declarator}
    {d : Declarator} {init : Expr} {type : Facet} (bound : .declare span kind declarators ∈ body)
    (listed : d ∈ declarators) (given : d.init = some init)
    (typed : ∀ budget : Budget, type ∈ (shapeOfValue limits.shaping 0 0 init budget).1.types.toList)
    (enough : (walkAt body caret limits).budget.exhausted = false) :
    (visibleAt body caret limits).HasType d.target.name type := by
  have steady : limits.shaping.Steady := steady_shapeWithin limits limits.shapeDepth
  have reached : Task.Reached ⟨caret, false⟩ (Task.stmts 0 body)
      ⟨.stmt (.declare span kind declarators), 0⟩ := .mem (List.mem_map.mpr ⟨_, bound, rfl⟩)
  refine Walk.run_brings_lasting (P := (HasType · d.target.name type)) steady
    (fun _ _ le typed => typed.le le) rfl .empty reached (fun w _ valid _ => ?_) enough
  obtain ⟨before, after, rfl⟩ := List.append_of_mem listed
  -- The walk up to the variable, the walk with it, and the rest of the declaration.
  let first := Walk.declareBindings limits.shaping w before 0
  let middle := Walk.declareValue limits.shaping first [d.target.name] init 0
  have made : Walk.note ⟨caret, false⟩ limits.shaping ⟨.stmt (.declare span kind (before ++ d :: after)), 0⟩ w =
      Walk.declareBindings limits.shaping middle after 0 := by
    simp only [Walk.note,Walk.noteStmt,Walk.declareBindings,List.foldl_append,List.foldl_cons,given,
      first,middle]
  have sound := sound_of_valid steady.valid
  have adds (w : Walk Budget) (ds : List Declarator) (valid : w.root.WellFormed) :
      Rises w.root (Walk.declareBindings limits.shaping w ds 0).root :=
    (Walk.declares_declareBindings allows_adds sound (fun _ _ => .trivial _) w).rises valid
  have found : (shapeOfValue limits.shaping 0 0 init first.budget).1.WellFormed :=
    sound.value (.trivial _) first.budget
  have here : middle.root.HasType d.target.name type :=
    ⟨_, property?_declare .., (mem_types_merge found.here).mpr (Or.inr (typed first.budget))⟩
  have inner : middle.root.WellFormed :=
    (adds w before valid).second.declare fun _ child => child.merge found
  rw [made]
  exact here.le (adds middle after inner).le

end Program

section Origin

open TreeNode

/-- An origin without dots is the name of its function. -/
theorem path_instanceOf {name : String} (undotted : '.' ∉ name.toList) :
    (Facet.instanceOf name).path = [name] := by
  have decodes := Facet.path_originOf (List.cons_ne_nil name []) (by simpa using undotted) Facet.ofInstance
  rwa [originOf_singleton] at decodes

/-- No function of a program has a dot in its name. -/
theorem undotted_of_parseText {source : String} {program : Program} {function : Function} {id : Ident}
    (parsed : parseText source = .ok program)
    (below : Below (.program program) (.function function)) (named : function.name = some id) :
    '.' ∉ id.name.toList := by
  obtain ⟨-, -, ls, -, lexed, -, tidy⟩ := tidy_of_parseText parsed
  obtain ⟨-, -, -, -, genuine⟩ := tidy.descendant below
  exact undotted_of_occurs lexed (genuine.1 id named)

end Origin

namespace Surroundings

variable {s : Surroundings} {t : Shape} {intent : Intent} {name : String}

/-- What is known from the text is offered, with or without live objects. -/
theorem mem_displays_completions
    (place : Provider.shape t ∈ s.reach (s.followPath intent.parents (s.startOf intent.kind)))
    (held : name ∈ t.names) (eligible : isEligible intent.typed name = true) :
    name ∈ (s.completions intent).displays :=
  mem_displays_completions_iff.mpr ⟨.shape t, place, Or.inl (mem_shapeCandidates.mpr ⟨held, eligible⟩)⟩

/-- A name of a type leads to the instances of the function that the type is of. -/
theorem mem_reach_instance {bound name field : String} (deep : 1 ≤ s.limits.shapeDepth)
    (undotted : '.' ∉ name.toList) (typed : s.root.HasType bound (.instanceOf name))
    (knows : s.root.Knows [.property name, .source Facet.ofInstance, .property field]) :
    ∃ t, Provider.shape t ∈ s.reach (s.followPath [bound] [.shape s.root]) ∧ field ∈ t.names := by
  obtain ⟨origin, here, knows⟩ := knows_property.mp knows
  obtain ⟨t, source, knows⟩ := knows_source.mp knows
  obtain ⟨child, held, -⟩ := knows_property.mp knows
  obtain ⟨start, found, member⟩ := typed
  have leads : s.Leads (.shape start) (.shape t) := by
    have given : s.root.get? (Facet.instanceOf name).path = some origin := by
      rw [path_instanceOf undotted]
      simp [get?,here]
    refine ⟨.instanceOf name, member, ?_⟩
    rw [providersOf,given]
    simp [Facet.instanceOf,source]
  have bounded : Provider.shape start ∈ s.followPath [bound] [.shape s.root] := by
    refine List.mem_filterMap.mpr ⟨.shape s.root, mem_reach.mpr ⟨_, List.mem_cons_self, .here⟩, ?_⟩
    simp [child?,found]
  obtain ⟨depth, more⟩ := Nat.exists_eq_add_one.mpr deep
  refine ⟨t, mem_reach.mpr ⟨_, bounded, ?_⟩, ?_⟩
  · rw [more]
    exact .step leads .here
  · exact mem_names_iff.mpr ⟨child, held⟩

end Surroundings

open TreeNode

/-- The fields that a function assigns to `this` are offered for every variable that starts as an
instance of it, whatever else the program holds, wherever the caret is and whatever live objects
there are, unless the budget runs out. -/
theorem fields_offered_for_instances (source : String) (program : Program) (caret : Position)
    (limits : Limits) (realm : Option Realm) (name bound field : String)
    (parsed : parseText source = .ok program) (shapes : 1 ≤ limits.shapeDepth)
    (literals : 1 ≤ limits.literalDepth)
    (enough : (walkAt program.body caret limits).budget.exhausted = false)
    (declares : DeclaresField program.body name field) (binds : BindsInstance program.body bound name)
    (valid : isName field = true) (genuine : field ≠ placeholder) :
    field ∈ (Surroundings.completions ⟨visibleAt program.body caret limits, realm, limits⟩
      ⟨.property, [bound]⟩).displays := by
  have knows := knows_visibleAt shapes declares enough
  have typed : (visibleAt program.body caret limits).HasType bound (.instanceOf name) := by
    obtain ⟨span, kind, declarators, d, span', span'', arguments, stated, listed, rfl, given⟩ := binds
    exact hasType_visibleAt stated listed given (fun _ => mem_types_construct literals) enough
  have undotted : '.' ∉ name.toList := by
    obtain ⟨span, function, id, declared, named, rfl, -⟩ := declares
    refine undotted_of_parseText parsed (.child (List.mem_map_of_mem declared) ?_) named
    exact .single List.mem_cons_self
  have eligible : Surroundings.isEligible "" field = true := by
    have nonempty : "" ≠ field := by
      rintro rfl
      have blank : isName "" = false := by decide +kernel
      rw [blank] at valid
      cases valid
    simp [Surroundings.isEligible,properlyExtends,nonempty,genuine,valid]
  obtain ⟨t, place, held⟩ := Surroundings.mem_reach_instance
    (s := ⟨visibleAt program.body caret limits, realm, limits⟩) shapes undotted typed knows
  exact Surroundings.mem_displays_completions place held eligible

theorem enclosed_branch {p q r s : Span} {test : Expr} {inner : Stmt} :
    Enclosed (.block ⟨[.ifElse p test (.block q ⟨[inner], r⟩) none], s⟩) (.stmt inner) := by
  refine .head ⟨List.mem_cons_self, rfl⟩ ?_
  refine .head (b := .stmt (.block q ⟨[inner], r⟩)) ⟨by simp [children,ofStmt], rfl⟩ ?_
  refine .head ⟨List.mem_cons_self, rfl⟩ ?_
  exact .single ⟨List.mem_cons_self, rfl⟩

/-- An assignment in a branch, seen from the start of the text. -/
theorem fields_offered_for_instances_branch : ∃ program,
    parseText "function F(o){if(o){this.a=o}}var v=new F" = .ok program ∧
    (walkAt program.body ⟨0, 0⟩ {}).budget.exhausted = false ∧
    DeclaresField program.body "F" "a" ∧ BindsInstance program.body "v" "F" ∧
    "a" ∈ (Surroundings.completions ⟨visibleAt program.body ⟨0, 0⟩ {}, none, {}⟩
      ⟨.property, ["v"]⟩).displays := by
  obtain ⟨program, parsed, enough, declares, binds⟩ : ∃ program,
      parseText "function F(o){if(o){this.a=o}}var v=new F" = .ok program ∧
      (walkAt program.body ⟨0, 0⟩ {}).budget.exhausted = false ∧
      DeclaresField program.body "F" "a" ∧ BindsInstance program.body "v" "F" := by
    have lexed : lexText "function F(o){if(o){this.a=o}}var v=new F" =
        .ok (onFirstLine [(.word "function", 0, 8), (.word "F", 9, 10), (.leftParen, 10, 11),
          (.word "o", 11, 12), (.rightParen, 12, 13), (.leftBrace, 13, 14), (.word "if", 14, 16),
          (.leftParen, 16, 17), (.word "o", 17, 18), (.rightParen, 18, 19), (.leftBrace, 19, 20),
          (.word "this", 20, 24), (.dot, 24, 25), (.word "a", 25, 26), (.op "=", 26, 27),
          (.word "o", 27, 28), (.rightBrace, 28, 29), (.rightBrace, 29, 30), (.word "var", 30, 33),
          (.word "v", 34, 35), (.op "=", 35, 36), (.word "new", 36, 39), (.word "F", 40, 41),
          (.endOfInput, 41, 41)]) := by decide +kernel
    refine ⟨⟨[
      .function (firstLine 0 30) ⟨some ⟨"F", firstLine 9 10⟩, [⟨⟨"o", firstLine 11 12⟩, none, false⟩],
        .block ⟨[.ifElse (firstLine 14 29) (.ident (firstLine 17 18) "o")
          (.block (firstLine 19 29) ⟨[.expr (firstLine 20 28) (.assign (firstLine 20 28) "="
            (.member (firstLine 20 26) (.thisRef (firstLine 20 24)) (.name ⟨"a", firstLine 25 26⟩) false)
            (.ident (firstLine 27 28) "o"))], firstLine 19 29⟩) none], firstLine 13 30⟩,
        false, firstLine 0 30⟩,
      .declare (firstLine 30 41) .varBinding [⟨⟨"v", firstLine 34 35⟩,
        some (.construct (firstLine 36 41) (.ident (firstLine 40 41) "F") []), firstLine 34 41⟩]],
      firstLine 0 41⟩, by rw [parseText,lexed]; cbv, by decide +kernel, ?_, ?_⟩
    · exact ⟨_, _, _, List.mem_cons_self, rfl, rfl, _, _, _, _, _, _, [], rfl, enclosed_branch, rfl⟩
    · exact ⟨_, _, _, _, _, _, _, List.mem_cons_of_mem _ List.mem_cons_self, List.mem_cons_self, rfl, rfl⟩
  have valid : isName "a" = true := by decide +kernel
  refine ⟨program, parsed, enough, declares, binds, ?_⟩
  exact fields_offered_for_instances _ program ⟨0, 0⟩ {} none "F" "v" "a" parsed (by decide) (by decide)
    enough declares binds valid (by decide)

end CodeCompletion
