import CodeCompletion.Proofs.Analysis.Conduct
import CodeCompletion.Proofs.Analysis.Representation
import CodeCompletion.Proofs.Shape.Order

/-! What more steps bring. Where a walk goes does not depend on what it has found, so two walks with
different limits go the same way until the one with fewer steps has to stop. What it has found is
from there on below what is found with more, and all that is made of it stays below. -/
namespace CodeCompletion

open Shape

variable {α β : Type}

namespace Budget

variable {limits limits' : Limits} {b c b' c' : Budget}

/-- The second budget is the first one, or the first one is exhausted at the same depth. -/
structure Le (b c : Budget) : Prop where
  depth : b.shapeDepth = c.shapeDepth
  same : b.exhausted = true ∨ b = c

theorem Le.refl (b : Budget) : Le b b := ⟨rfl, Or.inr rfl⟩

theorem Le.trans {d : Budget} (first : Le b c) (second : Le c d) : Le b d := by
  refine ⟨first.depth.trans second.depth, ?_⟩
  rcases first.same with spent | rfl
  · exact Or.inl spent
  · exact second.same

instance : Preorder Budget where
  le := Le
  le_refl := Le.refl
  le_trans _ _ _ := Le.trans

theorem absorb_le (le : b ≤ c) (le' : b' ≤ c') : b.absorb b' ≤ c.absorb c' := by
  refine ⟨le.depth, ?_⟩
  rcases le.same with spent | rfl
  · exact Or.inl (exhausted_absorb (Or.inl spent))
  · rcases le'.same with spent | rfl
    · exact Or.inl (exhausted_absorb (Or.inr spent))
    · exact Or.inr rfl

theorem leave_le (le : b ≤ c) : b.leave ≤ c.leave := by
  refine ⟨congrArg (· - 1) le.depth, ?_⟩
  rcases le.same with spent | rfl
  · exact Or.inl spent
  · exact Or.inr rfl

/-- Where one of two budgets lets a function be entered, so does the other. -/
theorem enter?_le (same : limits'.shapeDepth = limits.shapeDepth) (le : b ≤ c) :
    (b.enter? limits = none ∧ c.enter? limits' = none) ∨
    ∃ b' c', b.enter? limits = some b' ∧ c.enter? limits' = some c' ∧ b' ≤ c' := by
  by_cases deep : limits.shapeDepth ≤ b.shapeDepth
  · exact Or.inl ⟨if_pos deep, if_pos (by rw [same,← le.depth]; exact deep)⟩
  · refine Or.inr ⟨_, _, if_neg deep, if_neg (by rw [same,← le.depth]; exact deep), ?_⟩
    refine ⟨congrArg (· + 1) le.depth, ?_⟩
    rcases le.same with spent | rfl
    · exact Or.inl spent
    · exact Or.inr rfl

/-- A visit that fewer steps allow is allowed by more. -/
theorem visit_mono (more : limits.walkSteps ≤ limits'.walkSteps) (visited : b.visit limits = .ok c) :
    b.visit limits' = .ok c := by
  have counted := b.counted limits
  rw [visited] at counted
  cases counted with
  | visited steps goesOn next within =>
    have counted' := b.counted limits'
    generalize b.visit limits' = result at counted'
    cases counted' with
    | spent stopped => cases goesOn.symm.trans stopped
    | overflow _ full =>
      have := steps.toNat_lt_size
      omega
    | limit _ _ _ reached => omega
    | visited steps' _ next' => rw [UInt64.toNat_inj.mp (next'.trans next.symm)]

end Budget

/-- From a larger budget the second way to find something finds no less than the first one and comes
to no smaller budget. -/
structure Gains (R : α → α → Prop) (find find' : StateM Budget α) : Prop where
  value : ∀ b c, b ≤ c → R (find b).1 (find' c).1
  budget : ∀ b c, b ≤ c → (find b).2 ≤ (find' c).2

theorem gains_pure {R : α → α → Prop} {a a' : α} (related : R a a') :
    Gains R (pure a) (pure a') :=
  ⟨fun _ _ _ => related, fun _ _ le => le⟩

theorem Gains.bind {R : α → α → Prop} {S : β → β → Prop} {find find' : StateM Budget α}
    {next next' : α → StateM Budget β} (first : Gains R find find')
    (then_ : ∀ a a', R a a' → Gains S (next a) (next' a')) :
    Gains S (find >>= next) (find' >>= next') where
  value b c le := (then_ _ _ (first.value b c le)).value _ _ (first.budget b c le)
  budget b c le := (then_ _ _ (first.value b c le)).budget _ _ (first.budget b c le)

/-- What may be found: what is found on the first side is found on the second one too, and more is
known of it there. -/
structure MayRise (known known' : Option Shape) : Prop where
  found : ∀ child ∈ known, ∃ other ∈ known', Rises child other
  valid : ∀ other ∈ known', other.WellFormed

theorem Shape.Rises.property? {s t : Shape} (rises : Rises s t) (name : String) :
    MayRise (s.property? name) (t.property? name) :=
  ⟨fun _ found => rises.property found, fun _ found => rises.second.property found⟩

theorem Shape.Rises.source? {s t : Shape} (rises : Rises s t) (index : Nat) :
    MayRise (s.source? index) (t.source? index) :=
  ⟨fun _ found => rises.source found, fun _ found => rises.second.source found⟩

/-- What is done with what may be found. -/
theorem MayRise.elim {known known' : Option Shape} {s t : Shape} {use use' : Shape → Shape}
    (may : MayRise known known') (rises : Rises s t)
    (both : ∀ child other, Rises child other → Rises (use child) (use' other))
    (right : ∀ other, other.WellFormed → Rises t (use' other)) :
    Rises (known.elim s use) (known'.elim t use') := by
  cases known with
  | some child =>
    obtain ⟨other, found, above⟩ := may.found child rfl
    cases found
    exact both child other above
  | none =>
    cases known' with
    | none => exact rises
    | some other => exact rises.trans (right other (may.valid other rfl))

section Changes

variable {found found' : Shape} {name : String} {weight : Nat}

theorem lifts_withType (f : Facet) : Lifts (·.withType f) (·.withType f) :=
  fun _ _ rises => rises.withType f

theorem lifts_merge (rises : Rises found found') : Lifts (·.merge found) (·.merge found') :=
  fun _ _ ours => ours.merge rises

theorem lifts_typed (type : Option Facet) :
    Lifts (fun child => type.elim child child.withType)
      (fun child => type.elim child child.withType) := by
  intro s t rises
  cases type with
  | none => exact rises
  | some type => exact rises.withType type

theorem lifts_declare {change change' : Shape → Shape} (lifts : Lifts change change') :
    Lifts (·.declare name weight change) (·.declare name weight change') :=
  fun _ _ rises => rises.declare lifts

theorem isSome_sources_changeSource {s : Shape} {index : Nat} {change : Shape → Shape}
    (regular : s.Regular) : (s.changeSource index change).sources.isSome = true := by
  simp [changeSource,sources_growSources regular]

end Changes

/-- The first shape is a function, so that there is a place for what comes from calls of it, and the
second one knows no less. -/
structure Shape.RisesAsFunction (s t : Shape) : Prop extends Rises s t where
  function : s.sources.isSome = true

namespace Shape.RisesAsFunction

variable {s t found found' : Shape} {change change' : Shape → Shape}

theorem blank (weight : Nat) : RisesAsFunction (.function weight) (.function weight) :=
  ⟨.refl (.function weight), rfl⟩

theorem declareMember {name : String} (rises : RisesAsFunction s t) (isStatic : Bool)
    (lifts : Lifts change change') : RisesAsFunction (declareMember s isStatic name change)
      (declareMember t isStatic name change') := by
  simp only [CodeCompletion.declareMember]
  split
  · exact ⟨rises.declare lifts, rises.function⟩
  · exact ⟨rises.declare (lifts_declare lifts), rises.function⟩

theorem merge (rises : RisesAsFunction s t) (above : Rises found found') :
    RisesAsFunction (s.merge found) (t.merge found') :=
  ⟨rises.toRises.merge above,
    isSome_sources_le rises.first.here (le_merge_left rises.first above.first) rises.function⟩

theorem changeSource {index : Nat} (rises : RisesAsFunction s t) (lifts : Lifts change change') :
    RisesAsFunction (s.changeSource index change) (t.changeSource index change') :=
  ⟨rises.toRises.changeSource rises.function lifts, isSome_sources_changeSource rises.first.here⟩

/-- What may be found is merged into a source. -/
theorem elim {known known' : Option Shape} (may : MayRise known known')
    (rises : RisesAsFunction s t) (index : Nat) :
    RisesAsFunction (known.elim s fun found => s.changeSource index (·.merge found))
      (known'.elim t fun found => t.changeSource index (·.merge found)) := by
  have function := isSome_sources_le rises.first.here rises.le rises.function
  refine ⟨may.elim rises.toRises (fun _ _ above => ?_) fun other valid => ?_, ?_⟩
  · exact (rises.changeSource (lifts_merge above)).toRises
  · exact .changeSource_right rises.second function fun _ inner => .merge_left inner valid
  · cases known with
    | none => exact rises.function
    | some found => exact isSome_sources_changeSource rises.first.here

end Shape.RisesAsFunction

/-- More steps bring no less for any function, and other than that the limits are the same. -/
structure Shaping.Gaining (shaping shaping' : Shaping Budget) : Prop where
  literalDepth : shaping'.limits.literalDepth = shaping.limits.literalDepth
  walkSteps : shaping.limits.walkSteps ≤ shaping'.limits.walkSteps
  function : ∀ value, Gains Rises (shaping.function value) (shaping'.function value)
  keeps : ∀ value, Obeys (fun _ => Budget.Kept) (sizeOf value) (shaping'.function value)

section Values

variable {shaping shaping' : Shaping Budget}

mutual

theorem gains_shapeOfValue (functions : shaping.Gaining shaping') (weight depth : Nat) (value : Expr) :
    Gains Rises (shapeOfValue shaping weight depth value)
      (shapeOfValue shaping' weight depth value) := by
  have valid : (Shape.ofWeight weight).WellFormed := .ofWeight weight
  have blank : Rises (Shape.ofWeight weight) (Shape.ofWeight weight) := .refl valid
  have typed {β : Type} (known : Option β) (type : β → Facet) : (known.elim (Shape.ofWeight weight)
      fun given => (Shape.ofWeight weight).withType (type given)).WellFormed := by
    cases known with
    | none => exact valid
    | some given => exact valid.withType _
  have merged {find find' : StateM Budget Shape} (gains : Gains Rises find find') :
      Gains Rises (do return (Shape.ofWeight weight).merge (← find))
        (do return (Shape.ofWeight weight).merge (← find')) :=
    gains.bind fun _ _ rises => gains_pure (blank.merge rises)
  have deeper (inner : Expr) (smaller : sizeOf inner < sizeOf value) :
      Gains Rises (shapeOfValue shaping weight (depth + 1) inner)
        (shapeOfValue shaping' weight (depth + 1) inner) :=
    gains_shapeOfValue functions weight (depth + 1) inner
  unfold shapeOfValue
  rw [functions.literalDepth]
  by_cases deep : shaping.limits.literalDepth ≤ depth
  · simp only [if_pos deep]
    exact gains_pure blank
  simp only [if_neg deep]
  match value with
  | .literal _ literal => exact gains_pure (.refl (typed literal.typeName? _))
  | .array _ _ => exact gains_pure (blank.withType _)
  | .object _ properties => exact gains_addProperties functions weight depth properties (blank.withType _)
  | .construct _ callee _ => exact gains_pure (.refl (typed callee.path? _).declareTyped)
  | .call _ callee _ _ =>
    cases callee with
    | function _ function =>
      refine (functions.function function).bind fun shape shape' rises => gains_pure ?_
      exact (rises.source? Facet.ofResult).elim blank (fun _ _ above => blank.merge above)
        fun _ given => .merge_left valid given
    | _ => exact gains_pure (.refl (typed (Expr.path? _) _))
  | .function _ function => exact merged (functions.function function)
  | .classValue _ definition => exact merged (gains_shapeOfClass functions definition)
  | .assign _ _ _ inner => exact merged (deeper inner (by rw [Expr.assign.sizeOf_spec]; omega))
  | .binary _ op left right =>
    by_cases alternative : isAlternative op = true
    · simp only [if_pos alternative]
      refine (deeper left (by rw [Expr.binary.sizeOf_spec]; omega)).bind fun _ _ first => ?_
      refine (deeper right (by rw [Expr.binary.sizeOf_spec]; omega)).bind fun _ _ second => ?_
      exact gains_pure ((blank.merge first).merge second)
    · simp only [if_neg alternative]
      exact gains_pure blank
  | .conditional _ _ consequent alternate =>
    refine (deeper consequent (by rw [Expr.conditional.sizeOf_spec]; omega)).bind fun _ _ first => ?_
    refine (deeper alternate (by rw [Expr.conditional.sizeOf_spec]; omega)).bind fun _ _ second => ?_
    exact gains_pure ((blank.merge first).merge second)
  | .ident .. | .thisRef .. | .superRef .. | .member .. | .sequence .. | .unary .. | .update ..
  | .spread .. => exact gains_pure blank
termination_by sizeOf value

theorem gains_addProperties (functions : shaping.Gaining shaping') (weight depth : Nat)
    (properties : List Property) {s t : Shape} (rises : Rises s t) :
    Gains Rises (addProperties shaping weight depth properties s)
      (addProperties shaping' weight depth properties t) := by
  match properties with
  | [] =>
    unfold addProperties
    exact gains_pure rises
  | ⟨key, value, kind, span⟩ :: rest =>
    unfold addProperties
    cases key.name? with
    | none => exact gains_addProperties functions weight depth rest rises
    | some name =>
      cases kind with
      | value =>
        refine (gains_shapeOfValue functions weight (depth + 1) value).bind fun child child' above => ?_
        exact gains_addProperties functions weight depth rest (rises.declare (lifts_merge above))
      | _ => exact gains_addProperties functions weight depth rest (rises.declare fun _ _ same => same)
termination_by sizeOf properties

theorem gains_shapeOfClass (functions : shaping.Gaining shaping') (definition : Class) :
    Gains Rises (shapeOfClass shaping definition) (shapeOfClass shaping' definition) := by
  match definition with
  | ⟨name, parent, members, bodySpan, span⟩ =>
    unfold shapeOfClass
    cases parent.bind Expr.path? with
    | none => exact gains_addMembers functions members (.blank 0)
    | some path =>
      exact gains_addMembers functions members (.changeSource (.blank 0) (lifts_withType _))
termination_by sizeOf definition

theorem gains_addMembers (functions : shaping.Gaining shaping') (members : List ClassMember)
    {s t : Shape} (rises : RisesAsFunction s t) :
    Gains Rises (addMembers shaping members s) (addMembers shaping' members t) := by
  match members with
  | [] =>
    unfold addMembers
    exact gains_pure rises.toRises
  | ⟨key, isStatic, kind, span⟩ :: rest =>
    unfold addMembers
    cases key.name? with
    | none => exact gains_addMembers functions rest rises
    | some name =>
      cases kind with
      | constructor value =>
        exact (functions.function value).bind fun _ _ above =>
          gains_addMembers functions rest (rises.merge above)
      | method value =>
        exact (functions.function value).bind fun _ _ above =>
          gains_addMembers functions rest (rises.declareMember isStatic (lifts_merge above))
      | getter value | setter value =>
        exact gains_addMembers functions rest (rises.declareMember isStatic fun _ _ same => same)
      | field init =>
        refine (gains_shapeOfField functions init).bind fun found found' above => ?_
        have field : Lifts (·.declare name 0 (·.merge found)) (·.declare name 0 (·.merge found')) :=
          lifts_declare (lifts_merge above)
        cases isStatic with
        | true => exact gains_addMembers functions rest ⟨field s t rises.toRises, rises.function⟩
        | false => exact gains_addMembers functions rest (rises.changeSource field)
termination_by sizeOf members

theorem gains_shapeOfField (functions : shaping.Gaining shaping') (init : Option Expr) :
    Gains Rises (shapeOfField shaping init) (shapeOfField shaping' init) := by
  match init with
  | none => exact gains_pure (.refl .empty)
  | some value => exact gains_shapeOfValue functions 0 0 value
termination_by sizeOf init

end

end Values

namespace Shape

def Adds : Change := fun change => ∀ child, child.WellFormed → Rises child (change child)

theorem allows_adds : Allows (fun _ => True) Adds WellFormed where
  same _ valid := .refl valid
  typed f _ valid := .withType_right valid f
  merged found _ valid := .merge_left valid found
  deeper _ adds _ valid := .declare_right valid adds

theorem Declares.rises {ds : List Declaration} {s s' : Shape}
    (declares : Declares (fun _ => True) Adds ds s s') (valid : s.WellFormed) : Rises s s' := by
  induction declares with
  | nil => exact .refl valid
  | @cons s s' name weight ds change _ adds _ ih =>
    have first : Rises s (s.declare name weight change) := .declare_right valid adds
    exact first.trans (ih first.second)

end Shape

abbrev Shaping.Valid (shaping : Shaping Budget) : Prop := shaping.Shapes (fun _ => True) WellFormed

theorem valid_shapeWithin (limits : Limits) (levels : Nat) :
    Shaping.Valid ⟨limits, shapeWithin limits levels⟩ :=
  shapes_shapeWithin closed_wellFormed limits levels

section Valid

variable {shaping : Shaping Budget} (functions : shaping.Valid)

include functions

theorem sound_of_valid : shaping.Sound (fun _ => True) WellFormed :=
  shaping_sound closed_wellFormed functions

theorem wellFormed_scopeOfBody (v : Viewpoint) (params : List Param) (body : List Stmt) (b : Budget) :
    (scopeOfBody shaping v params body b).1.WellFormed :=
  gives_scopeOfBody closed_wellFormed (sound_of_valid functions) v (fun _ _ => trivial)
    (fun _ _ => .trivial _) b

theorem wellFormed_resultShape? (params : List Param) (body : List Stmt) {scope : Shape}
    (known : scope.WellFormed) (b : Budget) :
    ∀ result ∈ (resultShape? shaping params body scope b).1, result.WellFormed :=
  gives_resultShape? closed_wellFormed (sound_of_valid functions) (fun _ _ => trivial)
    (fun _ _ => .trivial _) known b

end Valid

namespace Walk

variable {v : Viewpoint} {shaping shaping' : Shaping Budget} {depth weight : Nat}

/-- A visit takes nothing away from the root. -/
theorem note_adds (functions : shaping.Valid) (task : Task) {w : Walk Budget}
    (valid : w.root.WellFormed) : Rises w.root (note v shaping task w).root :=
  (note_declares allows_adds (sound_of_valid functions) trivial (.trivial task.treeNode) w).rises valid

theorem run_adds (functions : shaping.Valid) {tasks : List Task} {w : Walk Budget}
    (valid : w.root.WellFormed) : Rises w.root (run v shaping tasks w).root :=
  run_keeps (P := Rises w.root) (fun task _ _ rises => rises.trans (note_adds functions task rises.second))
    (.refl valid)

theorem declareParams_adds (params : List Param) {w : Walk Budget} (valid : w.root.WellFormed) :
    Rises w.root (w.declareParams params 0).root :=
  (declares_declareParams allows_adds (fun _ _ => trivial) w).rises valid

structure Below (w w' : Walk Budget) : Prop where
  root : Rises w.root w'.root
  budget : w.budget ≤ w'.budget

def Moves (visit visit' : Walk Budget → Walk Budget) : Prop :=
  ∀ w w', Below w w' → Below (visit w) (visit' w')

variable {find find' : StateM Budget Shape} {visit visit' : Walk Budget → Walk Budget}

theorem Moves.id : Moves (fun w => w) (fun w => w) := fun _ _ below => below

theorem Moves.comp {next next' : Walk Budget → Walk Budget} (then_ : Moves next next')
    (moves : Moves visit visit') : Moves (fun w => next (visit w)) (fun w => next' (visit' w)) :=
  fun w w' below => then_ _ _ (moves w w' below)

theorem moves_foldl {visit visit' : Walk Budget → α → Walk Budget}
    (each : ∀ item, Moves (visit · item) (visit' · item)) (items : List α) :
    Moves (fun w => items.foldl visit w) (fun w => items.foldl visit' w) := by
  induction items with
  | nil => exact .id
  | cons item rest ih => exact ih.comp (each item)

theorem moves_elim {given : Option α} {visit visit' : α → Walk Budget → Walk Budget}
    (each : ∀ item, Moves (visit item) (visit' item)) :
    Moves (fun w => given.elim w fun item => visit item w)
      (fun w => given.elim w fun item => visit' item w) := by
  cases given with
  | none => exact .id
  | some item => exact each item

theorem moves_ite {inside : Bool} (moves : Moves visit visit') :
    Moves (fun w => if inside then visit w else w) (fun w => if inside then visit' w else w) := by
  cases inside with
  | false => exact .id
  | true => exact moves

theorem moves_root {change : Shape → Shape} (lifts : Lifts change change) :
    Moves (fun w => { w with root := change w.root }) (fun w => { w with root := change w.root }) :=
  fun _ _ below => ⟨lifts _ _ below.root, below.budget⟩

/-- A shape is found first, and then the root is changed by it. -/
theorem moves_shape {change : Shape → Shape → Shape} (gains : Gains Rises find find')
    (lifts : ∀ found found', Rises found found' → Lifts (change found) (change found')) :
    Moves (fun w => ⟨change (find w.budget).1 w.root, (find w.budget).2⟩)
      (fun w => ⟨change (find' w.budget).1 w.root, (find' w.budget).2⟩) :=
  fun _ _ below =>
    ⟨lifts _ _ (gains.value _ _ below.budget) _ _ below.root, gains.budget _ _ below.budget⟩

section Notes

theorem moves_declare (name : String) (type : Option Facet) (weight : Nat) :
    Moves (·.declare name type weight) (·.declare name type weight) :=
  moves_root (lifts_declare (lifts_typed type))

theorem moves_declareShaped (name : String) (gains : Gains Rises find find') :
    Moves (·.declareShaped name weight find) (·.declareShaped name weight find') :=
  moves_shape gains fun _ _ rises => lifts_declare (lifts_merge rises)

theorem moves_declareFunction (path : List String) :
    Moves (·.declareFunction path weight) (·.declareFunction path weight) :=
  moves_root ((lifts_withType .function).path path)

theorem moves_declareParams (params : List Param) :
    Moves (·.declareParams params weight) (·.declareParams params weight) := by
  refine moves_foldl (fun p => ?_) params
  exact moves_declare p.name.name _ weight

theorem moves_declareArguments (origin : String) (position : Nat) (arguments : List Expr) :
    Moves (declareArguments origin weight position arguments)
      (declareArguments origin weight position arguments) := by
  induction arguments generalizing position with
  | nil => exact .id
  | cons argument rest ih =>
    cases argument with
    | ident span name => exact (ih (position + 1)).comp (moves_declare name _ weight)
    | _ => exact ih (position + 1)

theorem moves_noteCall (callee : Expr) (arguments : List Expr) :
    Moves (·.noteCall callee arguments weight) (·.noteCall callee arguments weight) := by
  simp only [noteCall]
  cases callee.path? with
  | none => exact .id
  | some path => exact (moves_declareArguments _ 0 arguments).comp (moves_declareFunction path)

theorem moves_openFunction (function : Function) :
    Moves (openFunction v · function depth) (openFunction v · function depth) :=
  moves_ite (moves_declareParams function.params)

theorem moves_openMember (entry : ClassMember) :
    Moves (openMember v depth entry) (openMember v depth entry) := by
  obtain ⟨key, isStatic, kind, span⟩ := entry
  cases kind with
  | constructor function | method function | getter function | setter function =>
    exact moves_openFunction function
  | field init => exact .id

theorem moves_openClass (definition : Class) :
    Moves (openClass v · definition depth) (openClass v · definition depth) := by
  apply moves_ite
  simp only [List.foldr_eq_foldl_reverse]
  exact moves_foldl moves_openMember definition.members.reverse

variable (functions : shaping.Gaining shaping')

include functions

theorem moves_declareValue (path : List String) (value : Expr) :
    Moves (declareValue shaping · path value weight) (declareValue shaping' · path value weight) :=
  moves_shape (gains_shapeOfValue functions weight 0 value)
    fun _ _ rises => (lifts_merge rises).path path

theorem moves_declareBindings (declarators : List Declarator) :
    Moves (declareBindings shaping · declarators weight)
      (declareBindings shaping' · declarators weight) := by
  refine moves_foldl (fun d => ?_) declarators
  cases d.init with
  | none => exact moves_declare d.target.name none weight
  | some init => exact moves_declareValue functions [d.target.name] init

theorem moves_noteStmt (value : Stmt) :
    Moves (noteStmt v shaping depth · value) (noteStmt v shaping' depth · value) := by
  cases value with
  | declare span kind declarators => exact moves_declareBindings functions declarators
  | function span function =>
    exact (moves_openFunction function).comp
      (moves_elim fun name => moves_declareShaped name.name (functions.function function))
  | classDeclaration span definition =>
    exact (moves_openClass definition).comp
      (moves_elim fun name => moves_declareShaped name.name (gains_shapeOfClass functions definition))
  | tryCatch span body handler finalizer =>
    cases handler with
    | none => exact .id
    | some clause => exact moves_ite (moves_elim fun param => moves_declare param.name none _)
  | forLoop span init test update body =>
    cases init with
    | none => exact .id
    | some start =>
      cases start with
      | bindings _ _ declarators => exact moves_declareBindings functions declarators
      | _ => exact .id
  | forEach span start right body ofValues =>
    cases start with
    | bindings _ _ declarators =>
      exact moves_foldl (fun d => moves_declare d.target.name _ depth) declarators
    | _ => exact .id
  | _ => exact .id

theorem moves_noteExpr (value : Expr) :
    Moves (noteExpr v shaping depth · value) (noteExpr v shaping' depth · value) := by
  cases value with
  | assign span op target value =>
    exact moves_elim fun path => moves_declareValue functions path value
  | call span callee arguments => exact moves_noteCall callee arguments
  | construct span callee => exact moves_elim moves_declareFunction
  | function span function =>
    exact (moves_openFunction function).comp
      (moves_ite (moves_elim fun name => moves_declareShaped name.name (functions.function function)))
  | classValue span definition =>
    exact (moves_openClass definition).comp (moves_ite
      (moves_elim fun name => moves_declareShaped name.name (gains_shapeOfClass functions definition)))
  | _ => exact .id

theorem moves_note (task : Task) : Moves (note v shaping task) (note v shaping' task) := by
  obtain ⟨node, depth⟩ := task
  cases node with
  | stmt value => exact moves_noteStmt functions value
  | expr value => exact moves_noteExpr functions value

end Notes

/-- Two walks that go the same way stay one below the other: each step of the first one is a step
of the second one, and when the first one has to stop, the second one only adds to what it has. -/
theorem moves_run (functions : shaping.Gaining shaping') (tasks : List Task) :
    Moves (run v shaping tasks) (run v shaping' tasks) := by
  have valid : shaping'.Valid := fun {value} _ b =>
    ((functions.function value).value b b (le_refl b)).second
  intro w w' below
  fun_induction run v shaping tasks w generalizing w' with
  | case1 w =>
    rw [run]
    exact below
  | case2 w task rest budget stopped =>
    refine ⟨below.root.trans (run_adds valid below.root.second), ?_, ?_⟩
    · have kept := obeys_run (Budget.rule_kept shaping'.limits) functions.keeps v (task :: rest) w'
      rw [kept.depth,← below.budget.depth]
      exact (Budget.kept_of_visit_error stopped).depth
    · exact Or.inl (Budget.exhausted_of_visit stopped)
  | case3 w task rest budget visited ih =>
    rcases below.budget.same with spent | same
    · cases (Budget.visit_of_exhausted spent).symm.trans visited
    · have visited' : Account.visit shaping'.limits w'.budget = .ok budget :=
        same ▸ Budget.visit_mono functions.walkSteps visited
      rw [run,visited']
      exact ih _ (moves_note functions task { w with budget } { w' with budget }
        ⟨below.root, le_refl budget⟩)

end Walk

section Functions

variable {shaping shaping' : Shaping Budget} (functions : shaping.Gaining shaping')

include functions in
theorem gains_scopeOfBody (v : Viewpoint) (params : List Param) (body : List Stmt) :
    Gains Rises (scopeOfBody shaping v params body) (scopeOfBody shaping' v params body) := by
  have declared : Walk.Moves (·.declareParams params 0) (·.declareParams params 0) :=
    Walk.moves_declareParams params
  have walked (b c : Budget) (le : b ≤ c) :=
    Walk.moves_run (v := v) functions (Task.stmts 0 body) _ _ (declared ⟨.empty, b⟩ ⟨.empty, c⟩ ⟨.refl .empty, le⟩)
  exact ⟨fun b c le => (walked b c le).root, fun b c le => Budget.absorb_le le (walked b c le).budget⟩

theorem addParameters_rises {scope scope' : Shape} (known : Rises scope scope') (position : Nat)
    (params : List Param) {s t : Shape} (rises : RisesAsFunction s t) :
    RisesAsFunction (addParameters scope position params s)
      (addParameters scope' position params t) := by
  induction params generalizing position s t with
  | nil => exact rises
  | cons param rest ih => exact ih (position + 1) (.elim (known.property? param.name.name) rises _)

include functions

theorem gains_resultShape? (params : List Param) (body : List Stmt) {scope scope' : Shape}
    (known : Rises scope scope') : Gains MayRise (resultShape? shaping params body scope)
      (resultShape? shaping' params body scope') := by
  unfold resultShape?
  cases firstReturn? body with
  | none => exact gains_pure ⟨nofun, nofun⟩
  | some result =>
    obtain ⟨span, value⟩ := result
    have shaped : Gains MayRise (do return some (← shapeOfValue shaping 0 0 value))
        (do return some (← shapeOfValue shaping' 0 0 value)) := by
      refine (gains_shapeOfValue functions 0 0 value).bind fun found found' rises => gains_pure ⟨?_, ?_⟩
      · rintro _ ⟨⟩
        exact ⟨found', rfl, rises⟩
      · rintro _ ⟨⟩
        exact rises.second
    cases value with
    | ident _ name =>
      exact (gains_scopeOfBody functions _ params body).bind fun _ _ rises =>
        gains_pure (rises.property? name)
    | thisRef _ => exact gains_pure (known.property? "this")
    | _ => exact shaped

theorem gains_bodyShape (function : Function) :
    Gains Rises (bodyShape shaping function) (bodyShape shaping' function) := by
  obtain ⟨name, params, body, isArrow, span⟩ := function
  cases body with
  | expr value =>
    refine (gains_shapeOfValue functions 0 0 value).bind fun found found' rises => gains_pure ?_
    exact (RisesAsFunction.changeSource (.blank 0) (lifts_merge rises)).toRises
  | block braces =>
    refine (gains_scopeOfBody functions _ params braces.body).bind fun scope scope' known => ?_
    have shaped := addParameters_rises known 0 params
      (.elim (known.property? "this") (.blank 0) Facet.ofInstance)
    refine (gains_resultShape? functions params braces.body known).bind fun _ _ may => gains_pure ?_
    exact (shaped.elim may Facet.ofResult).toRises

end Functions

theorem gaining_shapeWithin {limits : Limits} {steps : Nat} (more : limits.walkSteps ≤ steps)
    (levels : Nat) : Shaping.Gaining ⟨limits, shapeWithin limits levels⟩
      ⟨{ limits with walkSteps := steps }, shapeWithin { limits with walkSteps := steps } levels⟩ := by
  have keeps := obeys_shapeWithin (Budget.rule_kept { limits with walkSteps := steps })
  induction levels with
  | zero => exact ⟨rfl, more, fun _ => gains_pure (.refl (.function 0)), keeps 0⟩
  | succ levels ih =>
    refine ⟨rfl, more, fun function => ?_, keeps (levels + 1)⟩
    have inner := gains_bodyShape ih function
    have both (b c : Budget) (le : b ≤ c) :
        Rises (shapeWithin limits (levels + 1) function b).1
          (shapeWithin { limits with walkSteps := steps } (levels + 1) function c).1 ∧
        (shapeWithin limits (levels + 1) function b).2 ≤
          (shapeWithin { limits with walkSteps := steps } (levels + 1) function c).2 := by
      dsimp only [shapeWithin]
      have same : { limits with walkSteps := steps }.shapeDepth = limits.shapeDepth := rfl
      rcases Budget.enter?_le same le with ⟨ours, theirs⟩ | ⟨b', c', ours, theirs, le'⟩
      · rw [show Account.enter? limits b = none from ours,show Account.enter? _ c = none from theirs]
        exact ⟨.refl (.function 0), le⟩
      · rw [show Account.enter? limits b = some b' from ours,
          show Account.enter? _ c = some c' from theirs]
        exact ⟨inner.value b' c' le', Budget.leave_le (inner.budget b' c' le')⟩
    exact ⟨fun b c le => (both b c le).1, fun b c le => (both b c le).2⟩

/-- What is in scope grows with the number of steps that may be taken: all that is found somewhere
with fewer steps is found there with more, with the types it has and no less weight. -/
theorem visibleAt_mono_walkSteps (body : List Stmt) (caret : Position) (limits : Limits)
    (steps : Nat) (more : limits.walkSteps ≤ steps) :
    visibleAt body caret limits ≤ visibleAt body caret { limits with walkSteps := steps } ∧
    ∀ path child, (visibleAt body caret limits).at? path = some child →
      ∃ other, (visibleAt body caret { limits with walkSteps := steps }).at? path = some other ∧
        (∀ type ∈ child.types.toList, type ∈ other.types.toList) ∧ child.weight ≤ other.weight := by
  have start : Walk.Below ⟨.empty, {}⟩ ⟨.empty, {}⟩ := ⟨.refl .empty, le_refl _⟩
  have le : visibleAt body caret limits ≤ visibleAt body caret { limits with walkSteps := steps } :=
    (Walk.moves_run (gaining_shapeWithin more limits.shapeDepth) _ _ _ start).root.le
  refine ⟨le, fun path child found => ?_⟩
  obtain ⟨other, found', above⟩ := at_le le found
  exact ⟨other, found', types_le above, weight_le above⟩

/-- Three steps end in the middle of a function body, between two assignments to `this`. -/
theorem visibleAt_mono_walkSteps_cut_short : ∃ body : List Stmt,
    visibleAt body ⟨0, 0⟩ { walkSteps := 3 } ≤ visibleAt body ⟨0, 0⟩ {} ∧
    ((visibleAt body ⟨0, 0⟩ { walkSteps := 3 }).at?
      [.property "F", .source 0, .property "x"]).isSome = true ∧
    ((visibleAt body ⟨0, 0⟩ { walkSteps := 3 }).at?
      [.property "F", .source 0, .property "y"]).isSome = false ∧
    ((visibleAt body ⟨0, 0⟩ {}).at? [.property "F", .source 0, .property "y"]).isSome = true := by
  have more : ({ walkSteps := 3 } : Limits).walkSteps ≤ 100000 := by decide
  let here : Span := ⟨⟨0, ⟨0, 0⟩⟩, ⟨0, ⟨0, 0⟩⟩⟩
  let assignment (name : String) : Stmt :=
    .expr here (.assign here "=" (.member here (.thisRef here) (.name ⟨name, here⟩) false)
      (.literal here .null))
  let body : List Stmt :=
    [.function here ⟨some ⟨"F", here⟩, [], .block ⟨[assignment "x", assignment "y"], here⟩, false, here⟩]
  exact ⟨body, (visibleAt_mono_walkSteps body ⟨0, 0⟩ { walkSteps := 3 } 100000 more).1, by decide +kernel, by decide +kernel,
    by decide +kernel⟩

end CodeCompletion
