import CodeCompletion.Analysis.Value
import CodeCompletion.Proofs.Shape.Merge

/-! Values that are written out. The shape of an object literal has the paths of keys that the
literal has, as far down as literals are looked into, and at each of them the types of all values
that are written there. A key may come more than once; its values are then known together. -/
namespace CodeCompletion

open Shape

section Written

inductive IsData : Expr → Prop where
  | literal {span : Span} {value : Literal} : IsData (.literal span value)
  | object {span : Span} {properties : List Property}
      (keys : ∀ p ∈ properties, p.kind = .value ∧ ∃ name, p.key.name? = some name)
      (values : ∀ p ∈ properties, IsData p.value) : IsData (.object span properties)

inductive FoundAt : Expr → List String → Expr → Prop where
  | here {value : Expr} : FoundAt value [] value
  | inside {span : Span} {properties : List Property} {p : Property} {name : String}
      {path : List String} {value : Expr} (member : p ∈ properties)
      (key : p.key.name? = some name) (below : FoundAt p.value path value) :
      FoundAt (.object span properties) (name :: path) value

/-- The type that a value has by what it is written as; `null` has none. -/
def Expr.writtenType? : Expr → Option Facet
  | .object _ _ => some (.instanceOf "Object")
  | .literal _ value => value.typeName?.map .instanceOf
  | _ => none

def Expr.writtenTypes (value : Expr) : Facets :=
  value.writtenType?.elim .empty Facets.empty.insert

end Written

section Paths

variable {Q : Facets → Prop} {s a b child : Shape} {name name' : String} {path : List String}
  {weight : Nat}

/-- A condition on types that holds of a union if it does of one side, and that knowing nothing
adds nothing to. -/
structure Facets.Additive (Q : Facets → Prop) : Prop where
  union : ∀ s t : Facets, Q (s.union t) ↔ Q s ∨ Q t
  empty : Q .empty → ∀ t, Q t

theorem Facets.additive_true : Facets.Additive fun _ => True := ⟨by simp, by simp⟩

theorem Facets.additive_mem (f : Facet) : Facets.Additive (f ∈ ·.toList) :=
  ⟨fun _ _ => mem_types_foldl, nofun⟩

def Shape.Shows (Q : Facets → Prop) (s : Shape) (path : List String) : Prop :=
  ∃ found, s.get? path = some found ∧ Q found.types

theorem shows_nil : s.Shows Q [] ↔ Q s.types := by
  simp [Shows,get?]

theorem shows_cons : s.Shows Q (name :: path) ↔
    ∃ child, s.property? name = some child ∧ child.Shows Q path := by
  simp only [Shows,get?,Option.bind_eq_some_iff]
  grind

theorem not_shows_ofWeight : ¬ (ofWeight weight).Shows Q (name :: path) := by
  rw [shows_cons]
  rintro ⟨child, found, -⟩
  cases found

theorem shows_reweigh : { s with weight }.Shows Q path ↔ s.Shows Q path := by
  cases path with
  | nil => rw [shows_nil,shows_nil]
  | cons name path =>
    rw [shows_cons,shows_cons]
    rfl

/-- Merged shapes show what either of them shows. -/
theorem shows_merge (additive : Facets.Additive Q) (theirs : b.WellFormed) :
    (a.merge b).Shows Q path ↔ a.Shows Q path ∨ b.Shows Q path := by
  induction path generalizing a b with
  | nil =>
    rw [shows_nil,shows_nil,shows_nil,types_merge,types_combine theirs.here]
    exact additive.union a.types b.types
  | cons name path ih =>
    rw [shows_cons,shows_cons,shows_cons,property?_merge theirs.here]
    cases given : b.property? name with
    | none => simp
    | some child =>
      have valid := theirs.property given
      cases a.property? name with
      | none => simp
      | some mine => simp [ih valid]

/-- A declared property shows what is merged into it besides what it showed before. -/
theorem shows_declare (additive : Facets.Additive Q) (valid : child.WellFormed) :
    (s.declare name weight (·.merge child)).Shows Q (name' :: path) ↔
      s.Shows Q (name' :: path) ∨ name' = name ∧ child.Shows Q path := by
  by_cases same : name' = name
  · subst same
    rw [shows_cons,shows_cons,property?_declare]
    simp only [Option.some_inj,exists_eq_left',shows_merge additive valid,true_and]
    cases s.property? name' with
    | none =>
      -- a new property shows nothing that `child` does not show
      cases path with
      | nil => simpa [shows_nil,redeclared,ofWeight] using fun blank => additive.empty blank _
      | cons name path => simp [redeclared,not_shows_ofWeight]
    | some known => simp [redeclared,shows_reweigh]
  · rw [shows_cons,shows_cons,property?_declare_of_ne same]
    simp [same]

end Paths

section Reading

variable {Q : Facets → Prop} {room : Nat} {value : Expr} {span : Span} {name : String}
  {path : List String}

/-- What is to be seen of a written value by looking `room` levels into it: a path of keys up to
that length leads to a value, whose types are told if the path is shorter. -/
def Expr.Shows (Q : Facets → Prop) (room : Nat) (value : Expr) (path : List String) : Prop :=
  ∃ found, FoundAt value path found ∧ path.length ≤ room ∧
    Q (if path.length < room then found.writtenTypes else .empty)

theorem Expr.shows_nil :
    value.Shows Q room [] ↔ Q (if 0 < room then value.writtenTypes else .empty) := by
  constructor
  · rintro ⟨found, below, -, holds⟩
    cases below
    exact holds
  · exact fun holds => ⟨value, .here, Nat.zero_le room, holds⟩

theorem Expr.not_shows_zero : ¬ value.Shows Q 0 (name :: path) := by
  rintro ⟨found, -, within, -⟩
  cases within

theorem Expr.not_shows_literal {literal : Literal} :
    ¬ (Expr.literal span literal).Shows Q room (name :: path) := by
  rintro ⟨found, below, -⟩
  cases below

/-- A key leads to all values that it is given, with one level less to look into. -/
theorem Expr.shows_object {properties : List Property} :
    (Expr.object span properties).Shows Q (room + 1) (name :: path) ↔
      ∃ p ∈ properties, p.key.name? = some name ∧ p.value.Shows Q room path := by
  simp only [Expr.Shows,List.length_cons,Nat.add_le_add_iff_right,Nat.add_lt_add_iff_right]
  constructor
  · rintro ⟨found, below, holds⟩
    cases below with
    | inside member key below => exact ⟨_, member, key, found, below, holds⟩
  · rintro ⟨p, member, key, found, below, holds⟩
    exact ⟨found, .inside member key below, holds⟩

end Reading

def Mirrors (room : Nat) (value : Expr) (shape : Shape) : Prop :=
  ∀ Q, Facets.Additive Q → ∀ path, shape.Shows Q path ↔ value.Shows Q room path

section Values

variable {shaping : Shaping Budget} {weight depth room : Nat}

theorem mirrors_blank (weight : Nat) (value : Expr) : Mirrors 0 value (ofWeight weight) := by
  intro Q additive path
  cases path with
  | nil =>
    rw [shows_nil,Expr.shows_nil,if_neg (Nat.lt_irrefl 0)]
    rfl
  | cons name path => exact iff_of_false not_shows_ofWeight Expr.not_shows_zero

/-- The values of an object literal are added one after the other. -/
theorem addProperties_written {properties : List Property} {shape : Shape}
    (keys : ∀ p ∈ properties, p.kind = .value ∧ ∃ name, p.key.name? = some name)
    (values : ∀ p ∈ properties, ∃ child, shapeOfValue shaping weight (depth + 1) p.value =
      pure child ∧ child.WellFormed ∧ Mirrors room p.value child) (valid : shape.WellFormed) :
    ∃ result, addProperties shaping weight depth properties shape = pure result ∧
      result.WellFormed ∧ result.types = shape.types ∧
      ∀ Q, Facets.Additive Q → ∀ name path, result.Shows Q (name :: path) ↔
        shape.Shows Q (name :: path) ∨
          ∃ p ∈ properties, p.key.name? = some name ∧ p.value.Shows Q room path := by
  induction properties generalizing shape with
  | nil =>
    rw [addProperties]
    exact ⟨shape, rfl, valid, rfl, by simp⟩
  | cons p rest ih =>
    obtain ⟨⟨kind, name, key⟩, keys⟩ := List.forall_mem_cons.mp keys
    obtain ⟨⟨child, found, sound, mirrors⟩, values⟩ := List.forall_mem_cons.mp values
    have declared : (shape.declare name weight (·.merge child)).WellFormed :=
      valid.declare fun known good => good.merge sound
    obtain ⟨result, same, good, types, shows⟩ := ih keys values declared
    refine ⟨result, ?_, good, types, fun Q additive name' path => ?_⟩
    · obtain ⟨k, value, kind', span⟩ := p
      obtain rfl : kind' = .value := kind
      have key : k.name? = some name := key
      rw [addProperties.eq_def]
      simp only [key]
      rw [found,pure_bind]
      exact same
    · have named : name' = name ↔ p.key.name? = some name' := by
        rw [key,Option.some_inj,eq_comm]
      rw [shows Q additive,shows_declare additive sound,mirrors Q additive,or_assoc,named,
        List.exists_mem_cons_iff]

theorem not_shows_withType {Q : Facets → Prop} {f : Facet} {name : String} {path : List String} :
    ¬ ((ofWeight weight).withType f).Shows Q (name :: path) := by
  rw [shows_cons,property?,properties_withType]
  rintro ⟨child, found, -⟩
  cases found

theorem mirrors_literal (weight room : Nat) (span : Span) (literal : Literal) :
    Mirrors (room + 1) (.literal span literal) (literal.typeName?.elim (ofWeight weight) fun name =>
      (ofWeight weight).withType (.instanceOf name)) := by
  intro Q additive path
  cases path with
  | nil =>
    rw [shows_nil,Expr.shows_nil,if_pos (Nat.succ_pos room),Expr.writtenTypes,Expr.writtenType?]
    cases literal.typeName? with
    | none => rfl
    | some name => exact iff_of_eq (congrArg Q (types_withType _ _))
  | cons name path =>
    refine iff_of_false ?_ Expr.not_shows_literal
    cases literal.typeName? with
    | none => exact not_shows_ofWeight
    | some name => exact not_shows_withType

/-- Where no level is left nothing is looked at, so there is at least one to look into. -/
theorem written_of_room {value : Expr}
    (looked : ∀ room, shaping.limits.literalDepth - depth = room + 1 →
      ∃ shape, shapeOfValue shaping weight depth value = pure shape ∧ shape.WellFormed ∧
        Mirrors (room + 1) value shape) :
    ∃ shape, shapeOfValue shaping weight depth value = pure shape ∧ shape.WellFormed ∧
      Mirrors (shaping.limits.literalDepth - depth) value shape := by
  cases levels : shaping.limits.literalDepth - depth with
  | zero =>
    refine ⟨ofWeight weight, ?_, .ofWeight weight, mirrors_blank weight value⟩
    rw [shapeOfValue.eq_def]
    exact if_pos (by omega)
  | succ room => exact looked room levels

/-- The shape of a written value shows what is to be seen of it, and finding it takes no steps. -/
theorem shapeOfValue_written (shaping : Shaping Budget) {value : Expr} (written : IsData value)
    (weight depth : Nat) :
    ∃ shape, shapeOfValue shaping weight depth value = pure shape ∧ shape.WellFormed ∧
      Mirrors (shaping.limits.literalDepth - depth) value shape := by
  induction written generalizing depth with
  | @literal span value =>
    refine written_of_room fun room levels => ?_
    refine ⟨_, ?_, ?_, mirrors_literal weight room span value⟩
    · rw [shapeOfValue.eq_def]
      exact if_neg (by omega)
    · cases value.typeName? with
      | none => exact .ofWeight weight
      | some name => exact (WellFormed.ofWeight weight).withType _
  | @object span properties keys values ih =>
    refine written_of_room fun room levels => ?_
    have deeper : ¬ shaping.limits.literalDepth ≤ depth := by omega
    have children : ∀ p ∈ properties, ∃ child, shapeOfValue shaping weight (depth + 1) p.value =
        pure child ∧ child.WellFormed ∧ Mirrors room p.value child := by
      intro p member
      have below : shaping.limits.literalDepth - (depth + 1) = room := by omega
      exact below ▸ ih p member (depth + 1)
    obtain ⟨shape, same, valid, types, shows⟩ := addProperties_written keys children
      ((WellFormed.ofWeight weight).withType (.instanceOf "Object"))
    refine ⟨shape, ?_, valid, fun Q additive path => ?_⟩
    · rw [shapeOfValue.eq_def]
      simp only [if_neg deeper]
      exact same
    · cases path with
      | nil =>
        rw [shows_nil,types,types_withType,Expr.shows_nil,if_pos (Nat.succ_pos room)]
        rfl
      | cons name path =>
        rw [shows Q additive,Expr.shows_object]
        exact or_iff_right not_shows_withType

end Values

theorem mem_writtenTypes {value : Expr} {f : Facet} :
    f ∈ value.writtenTypes.toList ↔ value.writtenType? = some f := by
  rw [Expr.writtenTypes]
  cases value.writtenType? with
  | none => simp [Facets.empty,Facets.toList]
  | some g =>
    rw [Option.elim_some,Facets.mem_insert,Option.some_inj]
    simp [Facets.empty,Facets.toList,eq_comm]

/-- The shape of a value that is written out has its paths of keys down to the limit, and above the
limit the types of the values that are written there. -/
theorem shapeOfValue_mirrors (shaping : Shaping Budget) (weight : Nat) (value : Expr)
    (written : IsData value) :
    ∃ shape, shapeOfValue shaping weight 0 value = pure shape ∧ ∀ path,
      ((shape.get? path).isSome = true ↔
        path.length ≤ shaping.limits.literalDepth ∧ ∃ v, FoundAt value path v) ∧
      ∀ found, shape.get? path = some found → path.length < shaping.limits.literalDepth →
        ∀ f, f ∈ found.types.toList ↔ ∃ v, FoundAt value path v ∧ v.writtenType? = some f := by
  obtain ⟨shape, same, -, mirrors⟩ := shapeOfValue_written shaping written weight 0
  refine ⟨shape, same, fun path => ⟨?_, fun found led above f => ?_⟩⟩
  · have reached := mirrors _ Facets.additive_true path
    simp only [Shows,Expr.Shows,and_true,Nat.sub_zero] at reached
    rw [Option.isSome_iff_exists,reached]
    exact exists_and_right.trans and_comm
  · have typed := mirrors _ (Facets.additive_mem f) path
    simp only [Shows,Expr.Shows,Nat.sub_zero,led,Option.some_inj,exists_eq_left',if_pos above,
      Nat.le_of_lt above,true_and,mem_writtenTypes] at typed
    exact typed

/-- A key that comes twice, once with an object and once as a string with a truth value, where two
levels are looked into. -/
theorem shapeOfValue_mirrors_repeated : ∃ value : Expr, IsData value ∧
    FoundAt value ["a", "b"] (.literal default .null) ∧
    FoundAt value ["a"] (.literal default (.bool true)) ∧
    ∃ shape, shapeOfValue ⟨{ literalDepth := 2 }, fun _ => (pure .empty : StateM Budget Shape)⟩ 1 0 value = pure shape ∧ ∀ path,
      ((shape.get? path).isSome = true ↔ path.length ≤ 2 ∧ ∃ v, FoundAt value path v) ∧
      ∀ found, shape.get? path = some found → path.length < 2 →
        ∀ f, f ∈ found.types.toList ↔ ∃ v, FoundAt value path v ∧ v.writtenType? = some f := by
  have inner : IsData (.object default [⟨.ident "b", .literal default .null, .value, default⟩]) :=
    .object (by simp [PropertyKey.name?]) (List.forall_mem_singleton.mpr .literal)
  have written : IsData (.object default
      [⟨.ident "a", .object default [⟨.ident "b", .literal default .null, .value, default⟩], .value,
        default⟩, ⟨.str "a", .literal default (.bool true), .value, default⟩]) := by
    refine .object (by simp [PropertyKey.name?]) ?_
    exact List.forall_mem_cons.mpr ⟨inner, List.forall_mem_singleton.mpr .literal⟩
  refine ⟨_, written, .inside List.mem_cons_self rfl (.inside List.mem_cons_self rfl .here),
    .inside (List.mem_cons_of_mem _ List.mem_cons_self) rfl .here, ?_⟩
  exact shapeOfValue_mirrors ⟨{ literalDepth := 2 }, fun _ => pure .empty⟩ 1 _ written

end CodeCompletion
