import CodeCompletion.Shape.Merge
import Mathlib.Data.List.Basic

/-! What declaring a name does to a shape: the name is there and no other comes or goes.
`Declares` is a row of such declarations; what it keeps or brings about follows from what is
known of the names and of the changes to their shapes. -/
namespace CodeCompletion

namespace Shape

variable {s s' s'' other : Shape} {name name' : String} {weight : Nat} {change : Shape → Shape}

theorem map_upsert (name : String) (update : Option Shape → Shape) (ps : List (String × Shape)) :
    name' ∈ (upsert name update ps).map (·.1) ↔ name' = name ∨ name' ∈ ps.map (·.1) := by
  induction ps with
  | nil => simp [upsert]
  | cons entry rest ih =>
    obtain ⟨known, child⟩ := entry
    rw [upsert]
    split
    · simp_all
    · simp only [List.map_cons,List.mem_cons,ih]
      exact or_left_comm

theorem lookup_upsert_self (name : String) (update : Option Shape → Shape)
    (ps : List (String × Shape)) :
    (upsert name update ps).lookup name = some (update (ps.lookup name)) := by
  induction ps with
  | nil => simp [upsert]
  | cons entry rest ih =>
    obtain ⟨known, child⟩ := entry
    rw [upsert]
    split
    · simp_all
    · have differs : (name == known) = false := by grind
      simp [List.lookup_cons,differs,ih]

theorem lookup_upsert_of_ne (update : Option Shape → Shape) (ps : List (String × Shape))
    (differs : name' ≠ name) : (upsert name update ps).lookup name' = ps.lookup name' := by
  induction ps with
  | nil => simp [upsert,List.lookup_cons,beq_eq_false_iff_ne.mpr differs]
  | cons entry rest ih =>
    obtain ⟨known, child⟩ := entry
    rw [upsert]
    split
    · subst name
      simp [List.lookup_cons,beq_eq_false_iff_ne.mpr differs]
    · simp [List.lookup_cons,ih]

theorem mem_names_iff : name ∈ s.names ↔ ∃ child, s.property? name = some child := by
  rw [← Option.isSome_iff_exists,property?,names]
  induction s.properties with
  | nil => simp
  | cons entry rest ih =>
    obtain ⟨known, child⟩ := entry
    by_cases same : name = known
    · simp [same]
    · have differs : (name == known) = false := beq_eq_false_iff_ne.mpr same
      simp [List.lookup_cons,differs,same,ih]

theorem mem_names_declare : name' ∈ (s.declare name weight change).names ↔
    name' = name ∨ name' ∈ s.names :=
  map_upsert name _ s.properties

theorem property?_declare_of_ne (differs : name' ≠ name) :
    (s.declare name weight change).property? name' = s.property? name' :=
  lookup_upsert_of_ne _ s.properties differs

theorem le_redeclaredWeight (previous weight : Nat) : previous ≤ redeclaredWeight previous weight := by
  rw [redeclaredWeight]
  split <;> omega

def redeclared (weight : Nat) : Option Shape → Shape
  | none => ofWeight weight
  | some child => { child with weight := redeclaredWeight child.weight weight }

theorem property?_declare (s : Shape) (name : String) (weight : Nat) (change : Shape → Shape) :
    (s.declare name weight change).property? name =
      some (change (redeclared weight (s.property? name))) := by
  refine (lookup_upsert_self name _ s.properties).trans ?_
  rw [property?]
  cases s.properties.lookup name <;> rfl

theorem property?_declare_self (s : Shape) (name : String) (weight : Nat)
    (change : Shape → Shape) : ∃ child, weight ≤ child.weight ∧
    (∀ known, s.property? name = some known → redeclaredWeight known.weight weight = child.weight) ∧
    (s.declare name weight change).property? name = some (change child) := by
  refine ⟨redeclared weight (s.property? name), ?_, ?_, property?_declare s name weight change⟩
  · cases s.property? name with
    | none => exact Nat.le_refl _
    | some child => exact Nat.le_max_right _ _
  · intro known found
    rw [found]
    rfl

section Weight

@[simp] theorem weight_withType (s : Shape) (f : Facet) : (s.withType f).weight = s.weight := by
  rw [withType]
  split <;> rfl

@[simp] theorem weight_growSources (s : Shape) (count : Nat) :
    (s.growSources count).weight = s.weight := by
  simp only [growSources]
  split <;> simp

theorem weight_foldl_withType (fs : List Facet) (s : Shape) :
    (fs.foldl withType s).weight = s.weight := by
  induction fs generalizing s with
  | nil => rfl
  | cons f fs ih => rw [List.foldl_cons,ih,weight_withType]

theorem weight_combine : (s.combine other).weight = max s.weight other.weight := by
  rw [combine]
  split <;> simp [weight_foldl_withType]

theorem le_weight_merge : s.weight ≤ (s.merge other).weight := by
  obtain ⟨properties, types, weight, sources⟩ := other
  rw [merge.eq_def]
  exact weight_combine ▸ Nat.le_max_left _ _

end Weight

end Shape

abbrev Declaration := String × Nat

namespace Shape

abbrev Change := (Shape → Shape) → Prop

variable {Q : String → Prop} {C : Change} {I : Shape → Prop} {s s' s'' : Shape}
  {ds ds' : List Declaration} {name : String} {weight : Nat} {change : Shape → Shape}

/-- The second shape is the first one with these names declared in it, one after the other. `Q`
holds of the names and `C` of what is done to the shape of each. -/
inductive Declares (Q : String → Prop) (C : Change) : List Declaration → Shape → Shape → Prop where
  | nil {s : Shape} : Declares Q C [] s s
  | cons {s s' : Shape} {name : String} {weight : Nat} {ds : List Declaration}
      {change : Shape → Shape} (named : Q name) (allowed : C change)
      (others : Declares Q C ds (s.declare name weight change) s') :
      Declares Q C ((name, weight) :: ds) s s'

/-- `C` holds of all that an analysis does to the shapes of names, if `Q` holds of the names and
`I` of the shapes that it takes in. -/
structure Allows (Q : String → Prop) (C : Change) (I : Shape → Prop) : Prop where
  same : C id
  typed (f : Facet) : C (·.withType f)
  merged {found : Shape} : I found → C (·.merge found)
  deeper {name : String} {weight : Nat} {change : Shape → Shape} :
    Q name → C change → C (·.declare name weight change)

theorem Allows.path (allows : Allows Q C I) (allowed : C change) {path : List String}
    (named : ∀ name ∈ path, Q name) : C (declarePath weight change path) := by
  induction path with
  | nil => exact allowed
  | cons name rest ih =>
    obtain ⟨first, others⟩ := List.forall_mem_cons.mp named
    exact allows.deeper first (ih others)

namespace Declares

theorem single (named : Q name) (allowed : C change) :
    Declares Q C [(name, weight)] s (s.declare name weight change) := .cons named allowed .nil

theorem append (first : Declares Q C ds s s') (second : Declares Q C ds' s' s'') :
    Declares Q C (ds ++ ds') s s'' := by
  induction first with
  | nil => exact second
  | cons named allowed _ ih => exact .cons named allowed (ih second)

theorem typed (allows : Allows Q C I) (named : Q name) {type : Option Facet} :
    Declares Q C [(name, weight)] s (s.declareTyped name type weight) := by
  refine .single named ?_
  cases type with
  | none => exact allows.same
  | some type => exact allows.typed type

theorem path (allows : Allows Q C I) (allowed : C change) {rest : List String}
    (named : ∀ part ∈ name :: rest, Q part) :
    Declares Q C [(name, weight)] s (declarePath weight change (name :: rest) s) := by
  obtain ⟨first, others⟩ := List.forall_mem_cons.mp named
  exact .single first (allows.path allowed others)

theorem mem_names (declares : Declares Q C ds s s') :
    name ∈ s'.names → name ∈ s.names ∨ name ∈ ds.map (·.1) := by
  induction declares with
  | nil => exact Or.inl
  | cons _ _ _ ih =>
    intro member
    rcases ih member with earlier | later
    · rcases mem_names_declare.mp earlier with rfl | earlier
      · exact Or.inr List.mem_cons_self
      · exact Or.inl earlier
    · exact Or.inr (List.mem_cons_of_mem _ later)

theorem keeps_name (declares : Declares Q C ds s s') (known : name ∈ s.names) : name ∈ s'.names := by
  induction declares with
  | nil => exact known
  | cons _ _ _ ih => exact ih (mem_names_declare.mpr (Or.inr known))

theorem property?_eq (declares : Declares Q C ds s s') (absent : name ∉ ds.map (·.1)) :
    s'.property? name = s.property? name := by
  induction declares with
  | nil => rfl
  | cons _ _ _ ih =>
    obtain ⟨differs, absent⟩ := List.ne_and_not_mem_of_not_mem_cons absent
    exact (ih absent).trans (property?_declare_of_ne differs)

end Declares

def Weighs (s : Shape) (name : String) : Prop :=
  ∃ child, s.property? name = some child ∧ 1 ≤ child.weight

def Grows : Change := fun change => ∀ child, child.weight ≤ (change child).weight

theorem allows_grows : Allows (fun _ => True) Grows (fun _ => True) where
  same _ := Nat.le_refl _
  typed f child := Nat.le_of_eq (weight_withType child f).symm
  merged _ _ := le_weight_merge
  deeper _ _ _ := Nat.le_refl _

theorem weighs_declare (grows : Grows change) (positive : 1 ≤ weight) :
    (s.declare name weight change).Weighs name := by
  obtain ⟨child, heavy, -, found⟩ := property?_declare_self s name weight change
  exact ⟨change child, found, Nat.le_trans positive (Nat.le_trans heavy (grows child))⟩

/-- A name that is declared again weighs something. -/
theorem weighs_redeclare (grows : Grows change) (known : name ∈ s.names) :
    (s.declare name weight change).Weighs name := by
  obtain ⟨before, here⟩ := mem_names_iff.mp known
  obtain ⟨child, -, again, found⟩ := property?_declare_self s name weight change
  have positive : 1 ≤ child.weight := by
    rw [← again before here,redeclaredWeight,maxWeight]
    split <;> omega
  exact ⟨change child, found, Nat.le_trans positive (grows child)⟩

/-- A declaration takes no weight away, neither from its own name nor from another one. -/
theorem Weighs.declare {name' : String} (weighs : s.Weighs name) (grows : Grows change) :
    (s.declare name' weight change).Weighs name := by
  obtain ⟨known, found, positive⟩ := weighs
  by_cases same : name = name'
  · subst same
    obtain ⟨child, -, redeclared, found'⟩ := property?_declare_self s name weight change
    have heavier : known.weight ≤ child.weight :=
      redeclared known found ▸ le_redeclaredWeight known.weight weight
    exact ⟨change child, found', Nat.le_trans positive (Nat.le_trans heavier (grows child))⟩
  · exact ⟨known, (property?_declare_of_ne same).trans found, positive⟩

namespace Declares

theorem weighs_of_weighs (declares : Declares Q Grows ds s s') (weighs : s.Weighs name) :
    s'.Weighs name := by
  induction declares with
  | nil => exact weighs
  | cons _ grows _ ih => exact ih (weighs.declare grows)

theorem weighs_of_mem (declares : Declares Q Grows ds s s') (member : (name, weight) ∈ ds)
    (positive : 1 ≤ weight) : s'.Weighs name := by
  induction declares with
  | nil => cases member
  | cons _ grows others ih =>
    rcases List.mem_cons.mp member with here | later
    · cases here
      exact others.weighs_of_weighs (weighs_declare grows positive)
    · exact ih later

theorem weighs_again (declares : Declares Q Grows ds s s') (known : name ∈ s.names)
    (member : name ∈ ds.map (·.1)) : s'.Weighs name := by
  induction declares with
  | nil => cases member
  | cons _ grows others ih =>
    rcases List.mem_cons.mp member with rfl | later
    · exact others.weighs_of_weighs (weighs_redeclare grows known)
    · exact ih (mem_names_declare.mpr (Or.inr known)) later

end Declares

end Shape

end CodeCompletion
