import CodeCompletion.Proofs.Analysis.Names
import CodeCompletion.Proofs.Shape.Worklist
import CodeCompletion.Proofs.Token.Spelling

/-! Functions by the paths that they are called by. No word of a text has a dot in it, so the path
of a callee can be told from its origin, and what is declared to be a function is found there. -/
namespace CodeCompletion

open TreeNode CodeCompletion.Parser Shape

section Origin

theorem splitAtDots_eq (chars : List Char) : splitAtDots chars = chars.splitOn '.' := by
  induction chars with
  | nil => rfl
  | cons c rest ih =>
    rw [splitAtDots,List.splitOn_cons_eq_if_modifyHead,ih]
    cases parts : List.splitOn '.' rest with
    | nil => exact absurd parts (List.splitOn_ne_nil _ _)
    | cons part parts => simp

/-- Names without dots can be told apart in their origin. -/
theorem Facet.path_originOf {path : List String} (nonempty : path ≠ [])
    (undotted : ∀ name ∈ path, '.' ∉ name.toList) (index : Nat) :
    Facet.path ⟨Facet.originOf path, index⟩ = path := by
  have parts : ∀ chars ∈ path.map String.toList, '.' ∉ chars := by
    simpa using undotted
  rw [Facet.path,Facet.originOf,String.toList_ofList,splitAtDots_eq,
    List.splitOn_intercalate '.' parts (by simpa using nonempty)]
  simp

/-- No word of a text has a dot in it. -/
theorem undotted_of_occurs {source : String} {ls : List Lexeme} {word : String}
    (lexed : lexText source = .ok ls) (occurs : Occurs ls (.word word)) : '.' ∉ word.toList := by
  obtain ⟨l, member, token⟩ := occurs
  obtain ⟨before, chars, after, -, placed⟩ := placed_of_lexChars lexed member (by simp [token])
  have spelling := placed.spelling
  rw [token] at spelling
  obtain ⟨same, -, continues, -⟩ := spelling.of_word
  intro dotted
  exact absurd (continues '.' (same ▸ dotted)) (by decide)

/-- A path is made of words of the text, the first of which may be `this`. -/
theorem spelled_of_path? {ls : List Lexeme} {value : Expr} {path : List String}
    (tidy : Tidy ls (.expr value)) (spelled : value.path? = some path) :
    path ≠ [] ∧ ∀ name ∈ path, name = "this" ∨ Occurs ls (.word name) := by
  fun_induction Expr.path? value generalizing path with
  | case1 span name =>
    cases spelled
    obtain ⟨-, -, -, -, genuine⟩ := tidy
    exact ⟨List.cons_ne_nil _ _, List.forall_mem_singleton.mpr (.inr genuine)⟩
  | case2 span =>
    cases spelled
    exact ⟨List.cons_ne_nil _ _, List.forall_mem_singleton.mpr (.inl rfl)⟩
  | case3 span base part isOptional ih =>
    obtain ⟨first, before, rfl⟩ := Option.map_eq_some_iff.mp spelled
    obtain ⟨-, -, below, -, genuine⟩ := tidy
    obtain ⟨-, words⟩ := ih (below _ List.mem_cons_self) before
    refine ⟨by simp, List.forall_mem_append.mpr ⟨words, ?_⟩⟩
    exact List.forall_mem_singleton.mpr (.inr genuine)
  | case4 => cases spelled

end Origin

namespace Shape

variable {s t before after : Shape} {name origin : String} {path : List String}

/-- Only what is known under the name matters to a change of its entry. -/
theorem upsert_congr {change change' : Option Shape → Shape} {ps : List (String × Shape)}
    (same : change (ps.lookup name) = change' (ps.lookup name)) :
    upsert name change ps = upsert name change' ps := by
  induction ps with
  | nil => simpa [upsert] using same
  | cons entry rest ih =>
    rw [upsert,upsert]
    by_cases here : entry.1 = name
    · subst here
      rw [lookup_cons_same] at same
      rw [if_pos rfl,if_pos rfl,same]
    · rw [lookup_cons_of_ne _ (Ne.symm here)] at same
      rw [if_neg here,if_neg here,ih same]

/-- Declaring a path leads to the shape that is then changed. -/
theorem exists_get?_declarePath (weight : Nat) (path : List String) (s : Shape) :
    ∃ known, (s.declarePath weight id path).get? path = some known ∧
      ∀ change, (s.declarePath weight change path).get? path = some (change known) := by
  induction path generalizing s with
  | nil => exact ⟨s, rfl, fun _ => rfl⟩
  | cons name rest ih =>
    obtain ⟨known, found, changed⟩ := ih (redeclared weight (s.property? name))
    refine ⟨known, ?_, fun change => ?_⟩
    · rw [declarePath,get?,property?_declare]
      exact found
    · rw [declarePath,get?,property?_declare]
      exact changed change

/-- A name that has been declared can be given the shape that it would have got another way. -/
theorem setStep_declare (s : Shape) (name : String) (weight : Nat) (change change' : Shape → Shape) :
    (s.declare name weight change).setStep (.property name)
      (change' (redeclared weight (s.property? name))) = s.declare name weight change' := by
  simp only [setStep,declare,upsert_upsert,mk.injEq,and_true]
  refine upsert_congr ?_
  rw [property?]
  cases s.properties.lookup name <;> rfl

/-- Nothing but the shape at the end of a path is changed once the path is declared. -/
theorem modifyAt?_declarePath (weight : Nat) (change : Shape → Shape) (path : List String)
    (s : Shape) : modifyAt? change (path.map .property) (s.declarePath weight id path) =
      some (s.declarePath weight change path) := by
  induction path generalizing s with
  | nil => rfl
  | cons name rest ih =>
    have here : (s.declare name weight (declarePath weight id rest)).step? (.property name) =
        some (declarePath weight id rest (redeclared weight (s.property? name))) :=
      property?_declare ..
    rw [List.map_cons,declarePath,modifyAt?,here,Option.bind_eq_bind,Option.bind_some,ih,
      Option.bind_some,setStep_declare]
    rfl

/-- The same shape after it has been declared again, as what is passed to a function of the given
origin: its weight may have risen, and it may have got types of parameters of the function. -/
structure PassedTo (origin : String) (before after : Shape) : Prop where
  properties : after.properties = before.properties
  sources : after.sources = before.sources
  weight : before.weight ≤ after.weight
  kept : ∀ f ∈ before.types.toList, f ∈ after.types.toList
  added : ∀ f ∈ after.types.toList,
    f ∈ before.types.toList ∨ ∃ n, f = ⟨origin, Facet.ofParameter n⟩

namespace PassedTo

theorem refl (origin : String) (s : Shape) : PassedTo origin s s :=
  ⟨rfl, rfl, Nat.le_refl _, fun _ held => held, fun _ held => .inl held⟩

theorem again (passed : PassedTo origin before after) (function : before.sources ≠ none)
    (weight position : Nat) : PassedTo origin before
      ((redeclared weight (some after)).withType ⟨origin, Facet.ofParameter position⟩) where
  properties := by
    rw [properties_withType]
    exact passed.properties
  sources := by
    have known : after.sources ≠ none := passed.sources ▸ function
    rw [sources_withType,if_neg fun becomes => known becomes.2]
    exact passed.sources
  weight := by
    rw [weight_withType]
    exact Nat.le_trans passed.weight (le_redeclaredWeight ..)
  kept f held := by
    rw [types_withType]
    exact Facets.mem_insert.mpr (.inr (passed.kept f held))
  added f held := by
    rw [types_withType] at held
    rcases Facets.mem_insert.mp held with rfl | held
    · exact .inr ⟨position, rfl⟩
    · exact passed.added f held

end PassedTo

/-- A declaration of one name changes what is found at that name alone. -/
theorem get?_declareTyped (nonempty : path ≠ []) (found : s.get? path = some t) (name : String)
    (type : Facet) (weight : Nat) : (s.declareTyped name (some type) weight).get? path =
      some (if path = [name] then (redeclared weight (some t)).withType type else t) := by
  obtain ⟨first, rest, rfl⟩ := List.exists_cons_of_ne_nil nonempty
  obtain ⟨child, here, further⟩ := Option.bind_eq_some_iff.mp found
  by_cases same : first = name
  · subst same
    have declared : (s.declareTyped first (some type) weight).property? first =
        some ((redeclared weight (some child)).withType type) := by
      rw [declareTyped,property?_declare,here]
      rfl
    rw [get?,declared,Option.bind_some]
    cases rest with
    | nil =>
      cases further
      rw [if_pos rfl,get?]
    | cons second rest =>
      rw [if_neg (by simp),get?,property?,properties_withType]
      exact further
  · rw [if_neg (by simp [same]),get?,declareTyped,property?_declare_of_ne same]
    exact found

theorem sources_withType_function (s : Shape) : (s.withType .function).sources ≠ none := by
  rw [sources_withType]
  split
  · simp
  · rename_i other
    exact fun none => other ⟨rfl, none⟩

theorem isFunction_of_mem (held : Facet.function ∈ s.types.toList) : s.isFunction = true := by
  obtain ⟨entry, member, origin, -⟩ := Facets.mem_toList.mp held
  exact Facets.hasOrigin_iff.mpr (List.mem_map.mpr ⟨entry, member, origin⟩)

end Shape

namespace Walk

variable {path : List String} {typed known : Shape}

/-- Passing arguments leaves a function where it is, and as it is if it is none of them. -/
theorem get?_declareArguments {origin : String} (nonempty : path ≠ [])
    (function : typed.sources ≠ none) (weight position : Nat) (arguments : List Expr) (w : Walk Budget)
    (found : w.root.get? path = some known) (passed : PassedTo origin typed known) :
    ∃ last, (declareArguments origin weight position arguments w).root.get? path = some last ∧
      PassedTo origin typed last ∧
      ((∀ span name, .ident span name ∈ arguments → path ≠ [name]) → last = known) := by
  induction arguments generalizing position w known with
  | nil => exact ⟨known, found, passed, fun _ => rfl⟩
  | cons argument rest ih =>
    have fewer (other : ∀ span name, .ident span name ∈ argument :: rest → path ≠ [name]) :
        ∀ span name, .ident span name ∈ rest → path ≠ [name] := fun span name member =>
      other span name (List.mem_cons_of_mem _ member)
    cases argument with
    | ident span name =>
      have declared := get?_declareTyped nonempty found name ⟨origin, Facet.ofParameter position⟩ weight
      by_cases same : path = [name]
      · rw [if_pos same] at declared
        obtain ⟨last, found, passed, -⟩ := ih (position + 1) (w.declare name _ weight) declared
          (passed.again function weight position)
        exact ⟨last, found, passed, fun other => absurd same (other span name List.mem_cons_self)⟩
      · rw [if_neg same] at declared
        obtain ⟨last, found, passed, kept⟩ := ih (position + 1) (w.declare name _ weight) declared passed
        exact ⟨last, found, passed, fun other => kept (fewer other)⟩
    | _ =>
      obtain ⟨last, found, passed, kept⟩ := ih (position + 1) w found passed
      exact ⟨last, found, passed, fun other => kept (fewer other)⟩

end Walk

inductive Callee (program : Program) (callee : Expr) : Prop where
  | call (span : Span) (arguments : List Expr) (isOptional : Bool)
      (node : Below (.program program) (.expr (.call span callee arguments isOptional)))
  | construct (span : Span) (arguments : List Expr)
      (node : Below (.program program) (.expr (.construct span callee arguments)))

theorem Callee.below {program : Program} {callee : Expr} (called : Callee program callee) :
    Below (.program program) (.expr callee) := by
  cases called with
  | call span arguments isOptional node => exact node.tail List.mem_cons_self
  | construct span arguments node => exact node.tail List.mem_cons_self

/-- The path of a callee has a name, and no name of it has a dot. -/
theorem Callee.undotted {source : String} {program : Program} {callee : Expr} {path : List String}
    (parsed : parseText source = .ok program) (called : Callee program callee)
    (spelled : callee.path? = some path) : path ≠ [] ∧ ∀ name ∈ path, '.' ∉ name.toList := by
  obtain ⟨-, -, ls, -, lexed, -, tidy⟩ := tidy_of_parseText parsed
  obtain ⟨nonempty, words⟩ := spelled_of_path? (tidy.descendant called.below) spelled
  refine ⟨nonempty, fun name member => ?_⟩
  rcases words name member with rfl | occurs
  · decide
  · exact undotted_of_occurs lexed occurs

/-- The origin of a callee spells its path and that of no other one. At the path that it spells is
found what a construction or a call makes a function: declaring the path leads there and the type is
given to nothing else. It stays as it is when the arguments of a call are told, unless it is one of
them itself. -/
theorem callee_found_at_origin (source : String) (program : Program) (callee : Expr)
    (path : List String) (parsed : parseText source = .ok program)
    (called : Callee program callee) (spelled : callee.path? = some path) :
    (∀ index, Facet.path ⟨Facet.originOf path, index⟩ = path) ∧
    (∀ other path', Callee program other → other.path? = some path' → path ≠ path' →
      Facet.originOf path ≠ Facet.originOf path') ∧
    ∀ (w : Walk Budget) (weight index : Nat),
      let decoded := Facet.path ⟨Facet.originOf path, index⟩
      let declared := w.root.declarePath weight id path
      ∃ known, declared.get? decoded = some known ∧
        declared.modifyAt? (·.withType .function) (path.map .property) =
          some (w.noteConstruction callee weight).root ∧
        (w.noteConstruction callee weight).root.get? decoded = some (known.withType .function) ∧
        ∀ arguments, ∃ found, (w.noteCall callee arguments weight).root.get? decoded = some found ∧
          found.isFunction = true ∧
          PassedTo (Facet.originOf path) (known.withType .function) found ∧
          ((∀ span name, .ident span name ∈ arguments → path ≠ [name]) →
            found = known.withType .function) := by
  obtain ⟨nonempty, undotted⟩ := called.undotted parsed spelled
  have decodes := Facet.path_originOf nonempty undotted
  refine ⟨decodes, fun other path' called' spelled' differs same => differs ?_, ?_⟩
  · obtain ⟨nonempty', undotted'⟩ := called'.undotted parsed spelled'
    rw [← decodes 0,same]
    exact Facet.path_originOf nonempty' undotted' 0
  intro w weight index decoded declared
  have constructs : w.noteConstruction callee weight = w.declareFunction path weight := by
    rw [Walk.noteConstruction,spelled,Option.elim_some]
  obtain ⟨known, found, changed⟩ := exists_get?_declarePath weight path w.root
  have typed : (w.declareFunction path weight).root.get? path = some (known.withType .function) :=
    changed (·.withType .function)
  rw [show decoded = path from decodes index,constructs]
  refine ⟨known, found, modifyAt?_declarePath weight _ path w.root, typed, fun arguments => ?_⟩
  obtain ⟨last, found, passed, kept⟩ := Walk.get?_declareArguments nonempty
    (sources_withType_function known) weight 0 arguments (w.declareFunction path weight) typed
    (.refl (Facet.originOf path) _)
  refine ⟨last, ?_, isFunction_of_mem (passed.kept _ ?_), passed, kept⟩
  · rw [Walk.noteCall,spelled]
    exact found
  · rw [types_withType]
    exact Facets.mem_insert.mpr (.inl rfl)

/-- A method is called with the object that it is found on. -/
theorem callee_found_at_origin_method : ∃ program callee arguments found,
    parseText "a.b(a)" = .ok program ∧ Callee program callee ∧ callee.path? = some ["a", "b"] ∧
    Facet.originOf ["a", "b"] = "a.b" ∧ Facet.path ⟨"a.b", 2⟩ = ["a", "b"] ∧
    ((⟨.empty, {}⟩ : Walk Budget).noteCall callee arguments 0).root.get? (Facet.path ⟨"a.b", 2⟩) =
      some found ∧ found.isFunction = true := by
  let callee : Expr := .member (firstLine 0 3) (.ident (firstLine 0 1) "a")
    (.name ⟨"b", firstLine 2 3⟩) false
  let argument : Expr := .ident (firstLine 4 5) "a"
  let call : Expr := .call (firstLine 0 6) callee [argument] false
  have lexed : lexText "a.b(a)" = .ok (onFirstLine [(.word "a", 0, 1), (.dot, 1, 2),
      (.word "b", 2, 3), (.leftParen, 3, 4), (.word "a", 4, 5), (.rightParen, 5, 6),
      (.endOfInput, 6, 6)]) := by decide +kernel
  have parsed : parseText "a.b(a)" = .ok ⟨[.expr (firstLine 0 6) call], firstLine 0 6⟩ := by
    rw [parseText,lexed]
    cbv
  have called : Callee ⟨[.expr (firstLine 0 6) call], firstLine 0 6⟩ callee := by
    refine .call (firstLine 0 6) [argument] false ?_
    exact .child (c := .stmt (.expr (firstLine 0 6) call)) List.mem_cons_self
      (.single List.mem_cons_self)
  have spells : Facet.originOf ["a", "b"] = "a.b" := by decide
  obtain ⟨decodes, -, registered⟩ := callee_found_at_origin _ _ callee ["a", "b"] parsed called rfl
  obtain ⟨known, -, -, -, passes⟩ := registered ⟨.empty, {}⟩ 0 2
  obtain ⟨found, here, function, -⟩ := passes [argument]
  rw [spells] at decodes here
  exact ⟨_, callee, [argument], found, parsed, called, rfl, spells, decodes 2, here, function⟩

end CodeCompletion
