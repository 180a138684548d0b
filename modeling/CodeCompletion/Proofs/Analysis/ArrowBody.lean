import CodeCompletion.Proofs.Analysis.Parameters
import CodeCompletion.Proofs.Analysis.Steadiness
import CodeCompletion.Proofs.Shape.Joined

/-! Two ways to write a function: with an expression after the arrow, or with a block that returns
the expression. The block is walked before its result is shaped, the expression is not, so what it
does to `this` and to the parameters is known of the second function only. Other than that the
two functions have the same shape. -/
namespace CodeCompletion

namespace Shape

variable {s scope : Shape} {index : Nat} {known : Option Shape}

def slot (s : Shape) (index : Nat) : Shape := (s.source? index).getD .empty

theorem eq_empty_iff {s : Shape} :
    s = .empty ↔ s.names = [] ∧ s.types.entries = [] ∧ s.weight = 0 ∧ s.sources = none := by
  obtain ⟨properties, ⟨entries⟩, weight, sources⟩ := s
  simp [empty,names,Facets.empty]

theorem slot_changeSource (regular : s.Regular) (index : Nat) (change : Shape → Shape) (place : Nat) :
    (s.changeSource index change).slot place =
      if index = place then change (s.slot place) else s.slot place := by
  rw [slot,source?_changeSource regular,slot]
  by_cases same : index = place
  · subst same
    rw [if_pos rfl,if_pos rfl,Option.getD_some]
  · rw [if_neg same,if_neg same,source?_growSources regular]
    cases s.source? place with
    | some child => rfl
    | none =>
      rw [Option.none_or]
      split <;> rfl

theorem slot_function (weight place : Nat) : (Shape.function weight).slot place = .empty := by
  rcases place with _ | _ | place <;> rfl

/-- What may be known is put into a source of which nothing was known before. -/
theorem slot_elim (valid : s.WellFormed) (sound : ∀ child ∈ known, child.WellFormed)
    (blank : s.slot index = .empty) (place : Nat) :
    (known.elim s fun found => s.changeSource index (·.merge found)).slot place =
      if index = place then known.getD .empty else s.slot place := by
  cases known with
  | none =>
    by_cases same : index = place
    · rw [if_pos same,← same]
      exact blank
    · rw [if_neg same,Option.elim_none]
  | some found =>
    rw [Option.elim_some,slot_changeSource valid.here]
    by_cases same : index = place
    · rw [if_pos same,if_pos same,← same,blank,empty_merge (sound found rfl),Option.getD_some]
    · rw [if_neg same,if_neg same]

theorem WellFormed.elim_source (valid : s.WellFormed) (sound : ∀ child ∈ known, child.WellFormed) :
    (known.elim s fun found => s.changeSource index (·.merge found)).WellFormed := by
  cases known with
  | none => exact valid
  | some found => exact valid.changeSource fun _ inner => inner.merge (sound found rfl)

theorem slot_addParameters (known : scope.WellFormed) (params : List Param) (position : Nat)
    (valid : s.WellFormed)
    (blank : ∀ index, Facet.ofParameter position ≤ index → s.slot index = .empty) :
    (addParameters scope position params s).WellFormed ∧
    ∀ place, (addParameters scope position params s).slot place =
      if place < Facet.ofParameter position then s.slot place
      else ((params[place - Facet.ofParameter position]?).bind
        (scope.property? ·.name.name)).getD .empty := by
  induction params generalizing position s with
  | nil =>
    refine ⟨valid, fun place => ?_⟩
    split
    · rfl
    · next beyond => exact blank place (Nat.le_of_not_lt beyond)
  | cons param rest ih =>
    have sound (child : Shape) (found : child ∈ scope.property? param.name.name) : child.WellFormed :=
      known.property found
    have added := slot_elim valid sound (blank (Facet.ofParameter position) (Nat.le_refl _))
    have next : Facet.ofParameter (position + 1) = Facet.ofParameter position + 1 := rfl
    obtain ⟨valid', slots⟩ := ih (position + 1) (valid.elim_source sound) (by
      intro index beyond
      rw [added,if_neg (by omega)]
      exact blank index (by omega))
    refine ⟨valid', fun place => ?_⟩
    rw [addParameters,slots,added,next]
    rcases Nat.lt_trichotomy place (Facet.ofParameter position) with before | rfl | after
    · rw [if_pos (by omega),if_neg (by omega),if_pos before]
    · simp
    · have later : place - Facet.ofParameter position =
          place - (Facet.ofParameter position + 1) + 1 := by omega
      rw [if_neg (by omega),if_neg (by omega),later,List.getElem?_cons_succ]

end Shape

open Shape

section Slots

def told (scope : Shape) (result : Option Shape) (params : List Param) : Nat → Option Shape
  | 0 => scope.property? "this"
  | 1 => result
  | position + 2 => params[position]?.bind (scope.property? ·.name.name)

variable {shaping : Shaping Budget} (functions : shaping.Valid)

include functions

/-- An expression tells of the result only. -/
theorem slot_bodyShape_expr {function : Function} {value : Expr} (body : function.body = .expr value)
    (b : Budget) (place : Nat) : (bodyShape shaping function b).1.slot place =
      if Facet.ofResult = place then (shapeOfValue shaping 0 0 value b).1 else .empty := by
  have valid : (shapeOfValue shaping 0 0 value b).1.WellFormed :=
    (sound_of_valid functions).value (.trivial _) b
  have made : (bodyShape shaping function b).1 = (Shape.function 0).changeSource Facet.ofResult
      (·.merge (shapeOfValue shaping 0 0 value b).1) := by
    rw [bodyShape,body]
    rfl
  rw [made,slot_changeSource (WellFormed.function 0).here,slot_function,empty_merge valid]

theorem slot_bodyShape_block {function : Function} {block : Block}
    (body : function.body = .block block) (b : Budget) (place : Nat) :
    let scope := scopeOfBody shaping ⟨block.span.stop.position, true⟩ function.params block.body b
    let result := resultShape? shaping function.params block.body scope.1 scope.2
    (bodyShape shaping function b).1.slot place =
      (told scope.1 result.1 function.params place).getD .empty := by
  intro scope result
  have known : scope.1.WellFormed := wellFormed_scopeOfBody functions _ _ _ b
  have sound : ∀ child ∈ result.1, child.WellFormed :=
    wellFormed_resultShape? functions function.params block.body known scope.2
  let first := (scope.1.property? "this").elim (Shape.function 0) fun known =>
    (Shape.function 0).changeSource Facet.ofInstance (·.merge known)
  have own (child : Shape) (found : child ∈ scope.1.property? "this") : child.WellFormed :=
    known.property found
  have valid : first.WellFormed := (WellFormed.function 0).elim_source own
  have instances (place : Nat) : first.slot place =
      if Facet.ofInstance = place then (scope.1.property? "this").getD .empty else .empty := by
    have added := slot_elim (WellFormed.function 0) own (slot_function 0 Facet.ofInstance) place
    rwa [slot_function] at added
  obtain ⟨valid', parameters⟩ := slot_addParameters known function.params 0 valid (by
    intro index beyond
    rw [instances,if_neg]
    rintro rfl
    cases beyond)
  let second := addParameters scope.1 0 function.params first
  have made : (bodyShape shaping function b).1 =
      result.1.elim second fun known => second.changeSource Facet.ofResult (·.merge known) := by
    rw [bodyShape,body]
    rfl
  have blank : second.slot Facet.ofResult = .empty := by
    rw [parameters,instances]
    rfl
  rw [made,slot_elim valid' sound blank]
  rcases place with _ | _ | position
  · rw [if_neg (by decide : Facet.ofResult ≠ 0),parameters,instances]
    rfl
  · rfl
  · rw [if_neg (by simp [Facet.ofResult] : Facet.ofResult ≠ position + 2),parameters,
      if_neg (by rw [Facet.ofParameter]; omega)]
    rfl

end Slots

/-- Nothing but its name is known of what has this name in a body: no node that a walk comes to
declares it, and it is at most one parameter, which does not take all remaining arguments. -/
structure Untouched (v : Viewpoint) (params : List Param) (body : List Stmt) (name : String) :
    Prop where
  undeclared : ∀ task, Task.Reached v (Task.stmts 0 body) task → name ∉ (task.declared v).map (·.1)
  once : (params.map (·.name.name)).count name ≤ 1
  plain : ∀ p ∈ params, p.name.name = name → p.isRest = false

section Start

variable {params : List Param} {name : String} {b : Budget} {w : Walk Budget}

theorem declares_params (params : List Param) (w : Walk Budget) : Declares (fun _ => True) Grows
    (Task.paramsDeclared 0 params) w.root (w.declareParams params 0).root :=
  Walk.declares_declareParams allows_grows (fun _ _ => trivial) w

theorem names_paramsDeclared (params : List Param) :
    (Task.paramsDeclared 0 params).map (·.1) = params.map (·.name.name) := by
  rw [Task.paramsDeclared,List.map_map]
  rfl

theorem property?_declareParams (absent : name ∉ params.map (·.name.name)) :
    (w.declareParams params 0).root.property? name = w.root.property? name :=
  (declares_params params w).property?_eq (names_paramsDeclared params ▸ absent)

theorem declareParams_append (front back : List Param) (p : Param) :
    w.declareParams (front ++ p :: back) 0 =
      ((w.declareParams front 0).declare p.name.name
        (if p.isRest then some (.instanceOf "Array") else none) 0).declareParams back 0 := by
  rw [Walk.declareParams,List.foldl_append]
  rfl

theorem mem_names_declareParams (named : name ∈ params.map (·.name.name)) :
    name ∈ (w.declareParams params 0).root.names := by
  obtain ⟨p, member, rfl⟩ := List.mem_map.mp named
  obtain ⟨front, back, rfl⟩ := List.append_of_mem member
  rw [declareParams_append]
  exact (declares_params back _).keeps_name (mem_names_declare.mpr (Or.inl rfl))

/-- A parameter by itself is an unknown value. -/
theorem start_unknown (once : (params.map (·.name.name)).count name ≤ 1)
    (plain : ∀ p ∈ params, p.name.name = name → p.isRest = false) :
    ((Walk.declareParams ⟨.empty, b⟩ params 0).root.property? name).getD .empty = .empty := by
  by_cases named : name ∈ params.map (·.name.name)
  · obtain ⟨p, member, same⟩ := List.mem_map.mp named
    obtain ⟨front, back, rfl⟩ := List.append_of_mem member
    have single := plain p member same
    subst same
    simp only [List.map_append,List.map_cons,List.count_append,List.count_cons_self] at once
    have before : p.name.name ∉ front.map (·.name.name) := List.count_eq_zero.mp (by omega)
    have after : p.name.name ∉ back.map (·.name.name) := List.count_eq_zero.mp (by omega)
    rw [declareParams_append,property?_declareParams after,single,Walk.declare,declareTyped,
      property?_declare,property?_declareParams before]
    rfl
  · rw [property?_declareParams named]
    rfl

theorem weighs_twice {ds : List Declaration} {s s' : Shape}
    (declares : Declares (fun _ => True) Grows ds s s') (twice : 2 ≤ (ds.map (·.1)).count name) :
    s'.Weighs name := by
  induction declares with
  | nil => cases twice
  | @cons s s' first weight ds change _ _ others ih =>
    by_cases same : first = name
    · subst same
      rw [List.map_cons,List.count_cons_self] at twice
      have later : first ∈ ds.map (·.1) := List.count_pos_iff.mp (by omega)
      exact others.weighs_again (mem_names_declare.mpr (Or.inl rfl)) later
    · rw [List.map_cons,List.count_cons_of_ne same] at twice
      exact ih twice

/-- A parameter that takes all remaining arguments is known to be an array. -/
theorem array_declareParams {p : Param} (member : p ∈ params) (rest : p.isRest = true)
    (valid : w.root.WellFormed) :
    ∃ child, (w.declareParams params 0).root.property? p.name.name = some child ∧
      .instanceOf "Array" ∈ child.types.toList := by
  obtain ⟨front, back, rfl⟩ := List.append_of_mem member
  have before : (w.declareParams front 0).root.WellFormed := (Walk.declareParams_adds front valid).second
  rw [declareParams_append,rest]
  let next := (w.declareParams front 0).declare p.name.name (some (.instanceOf "Array")) 0
  have after := Walk.declareParams_adds (w := next) back before.declareTyped
  obtain ⟨child, found, above⟩ := property_le after.le (property?_declare _ _ _ _)
  refine ⟨child, found, types_le above _ ?_⟩
  rw [Option.elim_some,types_withType]
  exact Facets.mem_insert.mpr (Or.inl rfl)

end Start

section Walked

variable {shaping : Shaping Budget} {v : Viewpoint} {params : List Param} {body : List Stmt} {name : String}
  {b : Budget}

/-- Nothing comes to be known of a name that is not touched. -/
theorem Untouched.unknown (untouched : Untouched v params body name) :
    ((scopeOfBody shaping v params body b).1.property? name).getD .empty = .empty := by
  rw [scopeOfBody,Walk.property?_run untouched.undeclared]
  exact start_unknown untouched.once untouched.plain

/-- What is touched is not unknown: it has a type or it weighs something. -/
theorem untouched_of_unknown (functions : shaping.Valid)
    (known : name ∈ params.map (·.name.name) ∨
      ∀ task, Task.Reached v (Task.stmts 0 body) task → name ∉ (task.declared v).map (·.1))
    (enough : (scopeOfBody shaping v params body b).2.exhausted = false)
    (unknown : ((scopeOfBody shaping v params body b).1.property? name).getD .empty = .empty) :
    Untouched v params body name := by
  let start : Walk Budget := Walk.declareParams ⟨.empty, b⟩ params 0
  have walked := Walk.goesOn_of_scopeOfBody enough
  have weightless : ¬ (scopeOfBody shaping v params body b).1.Weighs name := by
    rintro ⟨child, found, heavy⟩
    rw [found,Option.getD_some] at unknown
    rw [unknown] at heavy
    cases heavy
  refine ⟨fun task reached member => ?_, ?_, fun p member same => ?_⟩
  · rcases known with named | undeclared
    · have there : name ∈ start.root.names := mem_names_declareParams named
      exact weightless (Walk.weighs_run_again there reached member walked)
    · exact undeclared task reached member
  · by_contra twice
    have heavy : start.root.Weighs name :=
      weighs_twice (declares_params params _) (by rw [names_paramsDeclared]; omega)
    exact weightless (Walk.run_keeps (P := (·.Weighs name))
      (fun t w _ weighs => (Walk.note_declares_grows t w).weighs_of_weighs weighs) heavy)
  · rw [Bool.eq_false_iff]
    intro rest
    subst same
    obtain ⟨child, found, typed⟩ := array_declareParams (w := ⟨.empty, b⟩) member rest .empty
    have valid : start.root.WellFormed := (Walk.declareParams_adds params .empty).second
    have adds : Rises start.root (Walk.run v shaping (Task.stmts 0 body) start).root :=
      Walk.run_adds functions valid
    obtain ⟨last, found', above⟩ := property_le adds.le found
    have here : (scopeOfBody shaping v params body b).1.property? p.name.name = some last := found'
    rw [here,Option.getD_some] at unknown
    have none := types_le above _ typed
    rw [unknown] at none
    cases none

end Walked

section Arrow

variable {v : Viewpoint} {params : List Param} {statement : Span} {value : Expr} {name : String}

/-- The name that a source of a function depends on, besides the value that is returned. -/
def subject? (params : List Param) (value : Expr) : Nat → Option String
  | 0 => some "this"
  | 1 =>
    match value with
    | .ident _ name => some name
    | .thisRef _ => some "this"
    | _ => none
  | position + 2 => params[position]?.map (·.name.name)

/-- What has no parts and declares nothing can be returned without declaring anything. -/
theorem undeclared_returns (alone : Task.ofExpr v 0 value = [])
    (silent : Task.exprDeclared v 0 value = []) (task : Task)
    (reached : Task.Reached v (Task.stmts 0 [.returns statement (some value)]) task) :
    name ∉ (task.declared v).map (·.1) := by
  rcases Task.reached_cons.mp reached with rfl | reached
  · exact List.not_mem_nil
  · rcases Task.reached_cons.mp reached with rfl | reached
    · intro member
      have member : name ∈ (Task.exprDeclared v 0 value).map (·.1) := member
      rw [silent] at member
      cases member
    · obtain ⟨first, given, -⟩ := reached
      have given : first ∈ Task.ofExpr v 0 value ++ [] := given
      rw [alone] at given
      cases given

/-- Two functions with the same parameters, the first one with an expression for its body and the
second one with a block that returns it. -/
structure SameArrow (short long : Function) (value : Expr) (block statement : Span) : Prop where
  concise : short.body = .expr value
  braced : long.body = .block ⟨[.returns statement (some value)], block⟩
  params : long.params = short.params

/-- How what is known of a source of the first function compares to that of the second one. -/
structure Compares (short long : Shape) (untouched exact : Prop) : Prop where
  le : short ≤ long
  same : untouched → short = long
  only : exact → short = long → untouched

theorem compares_same (s : Shape) {exact : Prop} {untouched : String → Prop} :
    Compares s s (∀ name ∈ (none : Option String), untouched name) exact :=
  ⟨le_refl s, fun _ => rfl, fun _ _ => nofun⟩

theorem compares_named {s : Shape} {exact : Prop} {untouched : String → Prop}
    (same : untouched name → s = .empty) (only : exact → s = .empty → untouched name) :
    Compares .empty s (∀ given ∈ some name, untouched given) exact := by
  refine ⟨empty_le s, fun all => (same (all name rfl)).symm, ?_⟩
  rintro holds equal _ ⟨⟩
  exact only holds equal.symm

section Sources

variable {shaping : Shaping Budget} {short long : Function} {block : Span} {b : Budget}
  (steady : shaping.Steady)

include steady

/-- A name or `this` is looked up in a walk, any other value has the same shape on both sides: the
steps that the walk took before are not needed for it. -/
theorem compares_result (params : List Param) :
    let v : Viewpoint := ⟨block.stop.position, true⟩
    let scope := scopeOfBody shaping v params [.returns statement (some value)] b
    let result := resultShape? shaping params [.returns statement (some value)] scope.1 scope.2
    result.2.exhausted = false → Compares (shapeOfValue shaping 0 0 value b).1 (result.1.getD .empty)
      (∀ name ∈ subject? params value 1, Untouched v params [.returns statement (some value)] name)
      True := by
  intro v scope result enough
  have rule := Budget.rule_kept shaping.limits
  have kept : b.Kept scope.2 := obeys_scopeOfBody rule steady.keeps v params _ b
  have later : scope.2.Kept result.2 := obeys_resultShape? rule steady.keeps params _ scope.1 scope.2
  have walked : scope.2.exhausted = false := later.goesOn enough
  have other := steady.shapeOfValue_eq kept 0 0 value
  simp only [result,resultShape?,firstReturn?] at enough ⊢
  cases value with
  | ident span name =>
    have blank : (shapeOfValue shaping 0 0 (.ident span name) b).1 = .empty := by
      unfold shapeOfValue
      split <;> rfl
    have silent (v : Viewpoint) (task : Task) (reached : Task.Reached v
        (Task.stmts 0 [.returns statement (some (.ident span name))]) task) :
        name ∉ (task.declared v).map (·.1) := undeclared_returns rfl rfl task reached
    rw [blank]
    refine compares_named (fun untouched => ?_) fun _ unknown => ?_
    · exact Untouched.unknown ⟨silent _, untouched.once, untouched.plain⟩
    · have untouched := untouched_of_unknown steady.valid (Or.inr (silent _)) enough unknown
      exact ⟨silent _, untouched.once, untouched.plain⟩
  | thisRef span =>
    have blank : (shapeOfValue shaping 0 0 (.thisRef span) b).1 = .empty := by
      unfold shapeOfValue
      split <;> rfl
    rw [blank]
    refine compares_named (fun untouched => untouched.unknown) fun _ unknown => ?_
    exact untouched_of_unknown steady.valid (Or.inr (undeclared_returns rfl rfl)) walked unknown
  | _ =>
    rw [other enough]
    exact compares_same _

theorem compares_bodyShape (arrow : SameArrow short long value block statement)
    (enough : (bodyShape shaping long b).2.exhausted = false) (place : Nat) :
    Compares ((bodyShape shaping short b).1.slot place) ((bodyShape shaping long b).1.slot place)
      (∀ name ∈ subject? short.params value place, Untouched ⟨block.stop.position, true⟩ short.params
        [.returns statement (some value)] name) (place ≠ Facet.ofInstance) := by
  let body : List Stmt := [.returns statement (some value)]
  let scope := scopeOfBody shaping ⟨block.stop.position, true⟩ short.params body b
  let result := resultShape? shaping short.params body scope.1 scope.2
  have told : (bodyShape shaping long b).1.slot place =
      (told scope.1 result.1 short.params place).getD .empty := by
    have slots := slot_bodyShape_block steady.valid arrow.braced b place
    rwa [arrow.params] at slots
  have enough : result.2.exhausted = false := by
    rw [bodyShape,arrow.braced,arrow.params] at enough
    exact enough
  have walked : scope.2.exhausted = false :=
    Budget.Kept.goesOn (obeys_resultShape? (Budget.rule_kept shaping.limits) steady.keeps
      short.params body scope.1 scope.2) enough
  rw [told,slot_bodyShape_expr steady.valid arrow.concise]
  rcases place with _ | _ | position
  · exact compares_named (fun untouched => untouched.unknown) fun other => absurd rfl other
  · have compares := compares_result steady short.params enough
    exact ⟨compares.le, compares.same, fun _ => compares.only trivial⟩
  · rw [if_neg (by simp [Facet.ofResult] : Facet.ofResult ≠ position + 2)]
    cases given : short.params[position]? with
    | none =>
      simp only [subject?,CodeCompletion.told,given,Option.map_none,Option.bind_none]
      exact compares_same .empty
    | some p =>
      have named : p.name.name ∈ short.params.map (·.name.name) :=
        List.mem_map_of_mem (List.mem_of_getElem? given)
      simp only [subject?,CodeCompletion.told,given,Option.map_some,Option.bind_some]
      exact compares_named (fun untouched => untouched.unknown) fun _ unknown =>
        untouched_of_unknown steady.valid (Or.inl named) walked unknown

end Sources

/-- Nothing is known of a source of the concise function that is not known of the other one. They
agree on the result of any expression but a name or `this`, and on what comes from a name, `this` or
a parameter if the expression does not touch it. For names and parameters there is no other way to
agree. -/
theorem shapeOfFunction_arrow (short long : Function) (value : Expr) (block statement : Span)
    (arrow : SameArrow short long value block statement) (limits : Limits) (b : Budget)
    (enough : (shapeOfFunction limits long b).2.exhausted = false) (place : Nat) :
    let untouched (name : String) := Untouched ⟨block.stop.position, true⟩ short.params
      [.returns statement (some value)] name
    let ours := (shapeOfFunction limits short b).1.slot place
    let theirs := (shapeOfFunction limits long b).1.slot place
    ours ≤ theirs ∧
    ((∀ name ∈ subject? short.params value place, untouched name) → ours = theirs) ∧
    (b.shapeDepth < limits.shapeDepth → place ≠ Facet.ofInstance → ours = theirs →
      ∀ name ∈ subject? short.params value place, untouched name) := by
  intro untouched ours theirs
  by_cases deep : limits.shapeDepth ≤ b.shapeDepth
  · have same : ours = theirs := by
      simp only [ours,theirs,shapeOfFunction_eq,if_pos deep]
    exact ⟨same.le, fun _ => same, fun less => absurd deep (Nat.not_le.mpr less)⟩
  · have steady : limits.shaping.Steady := steady_shapeWithin limits limits.shapeDepth
    rw [shapeOfFunction_eq,if_neg deep] at enough
    have compares := compares_bodyShape steady arrow enough place
    simp only [ours,theirs,shapeOfFunction_eq,if_neg deep]
    exact ⟨compares.le, compares.same, fun _ => compares.only⟩

/-- `(p,q)=>p.a=q` and the same with a block: the results agree, and so does what is known of the
parameter that is only read. -/
theorem shapeOfFunction_arrow_assigned : ∃ short long value block statement,
    SameArrow short long value block statement ∧
    (shapeOfFunction {} long ({} : Budget)).2.exhausted = false ∧
    (shapeOfFunction {} short ({} : Budget)).1.slot Facet.ofResult =
      (shapeOfFunction {} long ({} : Budget)).1.slot Facet.ofResult ∧
    Untouched ⟨block.stop.position, true⟩ short.params [.returns statement (some value)] "q" := by
  let value : Expr := .assign (firstLine 7 12) "="
    (.member (firstLine 7 10) (.ident (firstLine 7 8) "p") (.name ⟨"a", firstLine 9 10⟩) false)
    (.ident (firstLine 11 12) "q")
  let params : List Param :=
    [⟨⟨"p", firstLine 1 2⟩, none, false⟩, ⟨⟨"q", firstLine 3 4⟩, none, false⟩]
  let short : Function := ⟨none, params, .expr value, true, firstLine 0 12⟩
  let long : Function := ⟨none, params,
    .block ⟨[.returns (firstLine 7 12) (some value)], firstLine 6 14⟩, true, firstLine 0 14⟩
  have arrow : SameArrow short long value (firstLine 6 14) (firstLine 7 12) := ⟨rfl, rfl, rfl⟩
  have enough : (shapeOfFunction {} long ({} : Budget)).2.exhausted = false := by decide +kernel
  have result := shapeOfFunction_arrow short long value (firstLine 6 14) (firstLine 7 12) arrow {} {}
    enough Facet.ofResult
  have second := shapeOfFunction_arrow short long value (firstLine 6 14) (firstLine 7 12) arrow {} {}
    enough (Facet.ofParameter 1)
  have agree : (shapeOfFunction {} short ({} : Budget)).1.slot (Facet.ofParameter 1) =
      (shapeOfFunction {} long ({} : Budget)).1.slot (Facet.ofParameter 1) :=
    (eq_empty_iff.mpr (by decide +kernel)).trans (eq_empty_iff.mpr (by decide +kernel)).symm
  have none : ∀ name, name ∉ subject? short.params value Facet.ofResult := by
    simp [value,subject?,Facet.ofResult]
  exact ⟨short, long, value, firstLine 6 14, firstLine 7 12, arrow, enough,
    result.2.1 fun name named => absurd named (none name),
    second.2.2 (by decide) (by decide) agree "q" rfl⟩

/-- What the expression after an arrow does to a parameter is lost. -/
theorem arrow_parameter_lost : ∃ program short long value block statement,
    parseText "o=>o.a=b" = .ok program ∧
    program.body = [.expr (firstLine 0 8) (.function (firstLine 0 8) short)] ∧
    SameArrow short long value block statement ∧
    (shapeOfFunction {} long ({} : Budget)).2.exhausted = false ∧
    ((shapeOfFunction {} short ({} : Budget)).1.slot (Facet.ofParameter 0)).names = [] ∧
    ((shapeOfFunction {} long ({} : Budget)).1.slot (Facet.ofParameter 0)).names = ["a"] := by
  let value : Expr := .assign (firstLine 3 8) "="
    (.member (firstLine 3 6) (.ident (firstLine 3 4) "o") (.name ⟨"a", firstLine 5 6⟩) false)
    (.ident (firstLine 7 8) "b")
  let params : List Param := [⟨⟨"o", firstLine 0 1⟩, none, false⟩]
  let short : Function := ⟨none, params, .expr value, true, firstLine 0 8⟩
  let long : Function := ⟨none, params,
    .block ⟨[.returns (firstLine 3 8) (some value)], firstLine 2 10⟩, true, firstLine 0 10⟩
  have lexed : lexText "o=>o.a=b" = .ok (onFirstLine [(.word "o", 0, 1), (.arrow, 1, 3),
      (.word "o", 3, 4), (.dot, 4, 5), (.word "a", 5, 6), (.op "=", 6, 7), (.word "b", 7, 8),
      (.endOfInput, 8, 8)]) := by decide +kernel
  have parsed : parseText "o=>o.a=b" =
      .ok ⟨[.expr (firstLine 0 8) (.function (firstLine 0 8) short)], firstLine 0 8⟩ := by
    rw [parseText,lexed]
    cbv
  exact ⟨_, short, long, value, firstLine 2 10, firstLine 3 8, parsed, rfl, ⟨rfl, rfl, rfl⟩,
    by decide +kernel, by decide +kernel, by decide +kernel⟩

end Arrow

end CodeCompletion
