import CodeCompletion.Realm.Reading
import Mathlib.Data.List.Nodup

/-! What an object inherits. Listing names and reading a property walk the same chain of prototypes
in different ways: the one stops at the first object that comes again, the other only counts links.
Both are told here by how many links an object is away. -/
namespace CodeCompletion

def Content.object? : Content → Option ObjectId
  | .object id => some id
  | .primitive | .accessor => none

namespace Realm

section Construction

/-- A step in which a realm is built. The numbers need not be those of objects that exist. -/
inductive Construction where
  | object (prototype : Option ObjectId)
  | property (id : ObjectId) (name : String) (content : Content)
  | prototype (id : ObjectId) (prototype : Option ObjectId)

def construct (r : Realm) : Construction → Realm
  | .object prototype => r.add prototype
  | .property id name content => r.set id name content
  | .prototype id prototype => r.setPrototype id prototype

def build (steps : List Construction) : Realm :=
  steps.foldl construct empty

def Distinct (r : Realm) : Prop :=
  ∀ o ∈ r.objects, (o.properties.map (·.1)).Nodup

theorem names_setContent (name : String) (content : Content) (held : List (String × Content)) :
    (setContent name content held).map (·.1) =
      if name ∈ held.map (·.1) then held.map (·.1) else held.map (·.1) ++ [name] := by
  induction held with
  | nil => rfl
  | cons entry rest ih =>
    simp only [setContent]
    split
    · simp [*]
    · have other : name ≠ entry.1 := fun same => ‹¬_› same.symm
      simp only [List.map_cons,ih,List.mem_cons,other,false_or]
      split <;> rfl

theorem nodup_setContent {name : String} {content : Content} {held : List (String × Content)}
    (distinct : (held.map (·.1)).Nodup) : ((setContent name content held).map (·.1)).Nodup := by
  rw [names_setContent]
  split
  next => exact distinct
  next absent => exact List.concat_eq_append ▸ distinct.concat absent

/-- An array of which one element is changed holds no others. -/
theorem mem_modify {o : Object} {objects : Array Object} {id : ObjectId} {change : Object → Object}
    (member : o ∈ objects.modify id change) : o ∈ objects ∨ ∃ p ∈ objects, o = change p := by
  obtain ⟨i, inside, rfl⟩ := Array.mem_iff_getElem.mp member
  rw [Array.size_modify] at inside
  rw [Array.getElem_modify]
  split
  · exact Or.inr ⟨_, Array.getElem_mem inside, rfl⟩
  · exact Or.inl (Array.getElem_mem inside)

theorem Distinct.construct {r : Realm} (distinct : r.Distinct) (step : Construction) :
    (r.construct step).Distinct := by
  intro o member
  cases step with
  | object prototype =>
    rcases Array.mem_push.mp member with old | rfl
    · exact distinct o old
    · exact List.nodup_nil
  | property id name content =>
    simp only [Realm.construct,set] at member
    rcases mem_modify member with old | ⟨p, old, rfl⟩
    · exact distinct o old
    · exact nodup_setContent (distinct p old)
  | prototype id prototype =>
    simp only [Realm.construct,setPrototype] at member
    rcases mem_modify member with old | ⟨p, old, rfl⟩
    · exact distinct o old
    · exact distinct p old

theorem Distinct.foldl {r : Realm} (distinct : r.Distinct) (steps : List Construction) :
    (steps.foldl Realm.construct r).Distinct := by
  induction steps generalizing r with
  | nil => exact distinct
  | cons step steps ih => exact ih (distinct.construct step)

theorem distinct_build (steps : List Construction) : (build steps).Distinct := by
  have start : empty.Distinct := by simp [Distinct,empty]
  exact start.foldl steps

theorem Distinct.ownNames {r : Realm} (distinct : r.Distinct) (id : ObjectId) :
    (r.ownNames id).Nodup := by
  unfold Realm.ownNames properties
  cases found : r.objects[id]? with
  | none => exact List.nodup_nil
  | some o => exact distinct o (Array.mem_of_getElem? found)

end Construction

variable {r : Realm} {links k : Nat} {id o p : ObjectId} {name : String} {content : Content}

section Chain

def ancestor? (r : Realm) (id : ObjectId) : Nat → Option ObjectId
  | 0 => some id
  | k + 1 => (r.ancestor? id k).bind r.prototype?

/-- The first link may be taken first. -/
theorem ancestor?_succ (r : Realm) (id : ObjectId) (k : Nat) :
    r.ancestor? id (k + 1) = (r.prototype? id).bind (r.ancestor? · k) := by
  induction k with
  | zero => cases up : r.prototype? id <;> simp [ancestor?,up]
  | succ k ih =>
    rw [ancestor?,ih,Option.bind_assoc]
    rfl

/-- The objects that are at most some links away, nearest first. -/
def chain (r : Realm) (links : Nat) (id : ObjectId) : List ObjectId :=
  (List.range (links + 1)).filterMap (r.ancestor? id)

theorem chain_zero (r : Realm) (id : ObjectId) : r.chain 0 id = [id] := rfl

theorem chain_succ (r : Realm) (links : Nat) (id : ObjectId) :
    r.chain (links + 1) id = id :: ((r.prototype? id).elim [] (r.chain links)) := by
  have here : r.ancestor? id 0 = some id := rfl
  rw [chain,List.range_succ_eq_map,List.filterMap_cons_some here,List.filterMap_map]
  cases up : r.prototype? id with
  | none => simp [ancestor?_succ,up]
  | some p => simp [ancestor?_succ,up,chain]

/-- All prototypes of some objects are among them, but for one that has yet to be visited. -/
def ClosedUpTo (r : Realm) (seen : List ObjectId) (id : ObjectId) : Prop :=
  ∀ o ∈ seen, ∀ p ∈ r.prototype? o, p ∈ seen ∨ p = id

variable {seen : List ObjectId}

theorem ClosedUpTo.visit (closed : r.ClosedUpTo seen id) (up : r.prototype? id = some p) :
    r.ClosedUpTo (id :: seen) p := by
  intro o member q next
  rcases List.mem_cons.mp member with rfl | member
  · exact Or.inr (Option.some.inj (next.symm.trans up))
  · rcases closed o member q next with old | rfl
    · exact Or.inl (List.mem_cons_of_mem id old)
    · exact Or.inl List.mem_cons_self

/-- A chain that has come back to where it was stays there. -/
theorem ClosedUpTo.chain_subset (closed : r.ClosedUpTo seen id) (back : id ∈ seen) (links : Nat) :
    r.chain links id ⊆ seen := by
  have inside : ∀ o ∈ seen, ∀ p ∈ r.prototype? o, p ∈ seen := fun o member p up =>
    (closed o member p up).elim (fun old => old) fun same => same ▸ back
  clear closed
  induction links generalizing id with
  | zero => simpa [chain_zero] using back
  | succ links ih =>
    rw [chain_succ]
    refine List.cons_subset.mpr ⟨back, ?_⟩
    cases up : r.prototype? id with
    | none => exact List.nil_subset seen
    | some p => exact ih (inside id back p up)

/-- The walk that stops where an object comes again has visited all objects of the chain. -/
theorem ClosedUpTo.chain_eq (closed : r.ClosedUpTo seen id) (links : Nat) :
    ∃ more, r.chain links id = r.holders links seen id ++ more ∧
      ∀ o ∈ more, o ∈ seen ∨ o ∈ r.holders links seen id := by
  induction links generalizing seen id with
  | zero =>
    unfold holders
    split
    next back => exact ⟨[id], rfl, List.forall_mem_singleton.mpr (Or.inl (by simpa using back))⟩
    next => exact ⟨[], rfl, nofun⟩
  | succ links ih =>
    unfold holders
    split
    next back =>
      exact ⟨_, rfl, fun o member => Or.inl (closed.chain_subset (by simpa using back) _ member)⟩
    next =>
      rw [chain_succ]
      cases up : r.prototype? id with
      | none => exact ⟨[], rfl, nofun⟩
      | some p =>
        obtain ⟨more, split, visited⟩ := ih (closed.visit up)
        refine ⟨more, congrArg (id :: ·) split, fun o member => ?_⟩
        rcases visited o member with old | new
        · rcases List.mem_cons.mp old with rfl | old
          · exact Or.inr List.mem_cons_self
          · exact Or.inl old
        · exact Or.inr (List.mem_cons_of_mem id new)

end Chain

section Names

theorem eraseDups_append_of_subset {xs ys : List String} (known : ys ⊆ xs) :
    (xs ++ ys).eraseDups = xs.eraseDups := by
  have none : ys.removeAll xs = [] := by
    refine List.filter_eq_nil_iff.mpr fun y member => ?_
    simpa using known member
  rw [List.eraseDups_append,none,List.eraseDups_nil,List.append_nil]

theorem eraseDups_of_nodup {xs : List String} (distinct : xs.Nodup) : xs.eraseDups = xs := by
  induction xs with
  | nil => rfl
  | cons x xs ih =>
    obtain ⟨absent, distinct⟩ := List.nodup_cons.mp distinct
    have all : xs.filter (fun y => !y == x) = xs := by
      refine List.filter_eq_self.mpr fun y member => ?_
      have other : y ≠ x := fun same => absent (same ▸ member)
      simpa using other
    rw [List.eraseDups_cons,all,ih distinct]

theorem nodup_eraseDups (xs : List String) : xs.eraseDups.Nodup := by
  induction size : xs.length using Nat.strongRecOn generalizing xs with
  | ind n ih =>
    cases xs with
    | nil => exact List.nodup_nil
    | cons x xs =>
      rw [List.eraseDups_cons]
      have shorter : (xs.filter fun y => !y == x).length < n := by
        have := List.length_filter_le (fun y => !y == x) xs
        simp only [List.length_cons] at size
        omega
      refine List.nodup_cons.mpr ⟨?_, ih _ shorter _ rfl⟩
      simp [List.mem_eraseDups]

/-- The names are those of all objects of the chain, although the walk may stop early. -/
theorem names_eq_chain (r : Realm) (links : Nat) (id : ObjectId) :
    r.names links id = ((r.chain links id).flatMap r.ownNames).eraseDups := by
  have start : r.ClosedUpTo [] id := nofun
  obtain ⟨more, split, visited⟩ := start.chain_eq links
  rw [split,List.flatMap_append,eraseDups_append_of_subset,names]
  intro name member
  obtain ⟨o, later, own⟩ := List.mem_flatMap.mp member
  exact List.mem_flatMap.mpr ⟨o, (visited o later).resolve_left List.not_mem_nil, own⟩

def namesAt (r : Realm) (id : ObjectId) (k : Nat) : List String :=
  (r.ancestor? id k).elim [] r.ownNames

def isShadowed (r : Realm) (id : ObjectId) (k : Nat) (name : String) : Bool :=
  (List.range k).any fun j => (r.namesAt id j).contains name

theorem flatMap_namesAt (r : Realm) (links : Nat) (id : ObjectId) :
    (r.chain links id).flatMap r.ownNames = (List.range (links + 1)).flatMap (r.namesAt id) := by
  rw [chain,List.filterMap_eq_flatMap_toList,List.flatMap_assoc]
  congr
  funext k
  cases away : r.ancestor? id k <;> simp [namesAt,away]

/-- Without duplicates each list keeps what those before it do not have. -/
theorem eraseDups_flatMap_range {f : Nat → List String} (distinct : ∀ k, (f k).Nodup) (n : Nat) :
    ((List.range n).flatMap f).eraseDups = (List.range n).flatMap fun k =>
      (f k).filter fun name => !(List.range k).any fun j => (f j).contains name := by
  induction n with
  | zero => rfl
  | succ n ih =>
    have fresh : (f n).removeAll ((List.range n).flatMap f) =
        (f n).filter fun name => !(List.range n).any fun j => (f j).contains name := by
      refine List.filter_congr fun name _ => ?_
      rw [Bool.eq_iff_iff]
      simp
    rw [List.range_succ,List.flatMap_append,List.flatMap_append,List.eraseDups_append,ih,
      List.flatMap_singleton,List.flatMap_singleton,fresh,
      eraseDups_of_nodup ((distinct n).filter _)]

end Names

section Reading

theorem content?_eq_none : r.content? o name = none ↔ name ∉ r.ownNames o := by
  simp only [content?,ownNames,List.lookup_eq_none_iff,List.mem_map,bne_iff_ne]
  exact ⟨fun other ⟨entry, member, same⟩ => other entry member same.symm,
    fun absent entry member same => absent ⟨entry, member, same.symm⟩⟩

/-- The nearest object with a property of a name is `k` links away and has `content` in it. -/
structure HoldsAt (r : Realm) (id : ObjectId) (name : String) (k : Nat) (content : Content) :
    Prop where
  holder : ∃ o, r.ancestor? id k = some o ∧ r.content? o name = some content
  nearest : ∀ j < k, ∀ o, r.ancestor? id j = some o → r.content? o name = none

theorem HoldsAt.next (holds : r.HoldsAt id name (k + 1) content) :
    r.content? id name = none ∧ ∃ p, r.prototype? id = some p ∧ r.HoldsAt p name k content := by
  obtain ⟨o, away, held⟩ := holds.holder
  rw [ancestor?_succ] at away
  obtain ⟨p, up, away⟩ := Option.bind_eq_some_iff.mp away
  refine ⟨holds.nearest 0 (Nat.succ_pos k) id rfl, p, up, ⟨o, away, held⟩, fun j less q near => ?_⟩
  refine holds.nearest (j + 1) (Nat.succ_lt_succ less) q ?_
  rw [ancestor?_succ,up]
  exact near

theorem get?_of_holdsAt (within : k ≤ links) (holds : r.HoldsAt id name k content) :
    r.get? name links id = content.object? := by
  induction k generalizing links id with
  | zero =>
    obtain ⟨o, away, held⟩ := holds.holder
    cases away
    rw [get?.eq_def,held]
    cases content <;> rfl
  | succ k ih =>
    obtain ⟨missing, p, up, later⟩ := holds.next
    obtain ⟨links, rfl⟩ : ∃ n, links = n + 1 := Nat.exists_eq_succ_of_ne_zero (by omega)
    rw [get?,missing]
    simp only [up,Option.bind_some]
    exact ih (by omega) later

theorem get?_of_missing (missing : ∀ o ∈ r.chain links id, r.content? o name = none) :
    r.get? name links id = none := by
  induction links generalizing id with
  | zero =>
    rw [get?,missing id List.mem_cons_self]
  | succ links ih =>
    rw [chain_succ] at missing
    rw [get?,missing id List.mem_cons_self]
    cases up : r.prototype? id with
    | none => rfl
    | some p =>
      rw [up] at missing
      exact ih fun o member => missing o (List.mem_cons_of_mem id member)

end Reading

/-- How the names that are listed for an object and the properties that can be read from it go
together, where up to `links` links are followed. -/
structure Inherits (r : Realm) (links : Nat) (id : ObjectId) : Prop where
  listed : ∀ name, name ∈ r.names links id ↔ ∃ o ∈ r.chain links id, name ∈ r.ownNames o
  distinct : (r.names links id).Nodup
  /-- Nearest objects first, each with the names that no nearer one has, in its own order. -/
  ordered : r.names links id = (List.range (links + 1)).flatMap fun k =>
    (r.namesAt id k).filter fun name => !r.isShadowed id k name
  read : ∀ name k content, k ≤ links → r.HoldsAt id name k content →
    r.get? name links id = content.object?
  missing : ∀ name, (∀ o ∈ r.chain links id, r.content? o name = none) →
    r.get? name links id = none
  reached : ∀ name value, r.get? name links id = some value → name ∈ r.names links id

theorem mem_names : name ∈ r.names links id ↔ ∃ o ∈ r.chain links id, name ∈ r.ownNames o := by
  rw [names_eq_chain,List.mem_eraseDups,List.mem_flatMap]

/-- In every realm that can be built, listing and reading agree on what is inherited. -/
theorem build_inherits (steps : List Construction) (links : Nat) (id : ObjectId) :
    (build steps).Inherits links id where
  listed _ := mem_names
  distinct := nodup_eraseDups _
  ordered := by
    rw [names_eq_chain,flatMap_namesAt]
    refine eraseDups_flatMap_range (fun k => ?_) (links + 1)
    unfold namesAt
    cases (build steps).ancestor? id k with
    | none => exact List.nodup_nil
    | some o => exact (distinct_build steps).ownNames o
  read _ _ _ := get?_of_holdsAt
  missing _ := get?_of_missing
  reached name value found := by
    by_contra absent
    have missing : ∀ o ∈ (build steps).chain links id, (build steps).content? o name = none :=
      fun o member => content?_eq_none.mpr fun own => absent (mem_names.mpr ⟨o, member, own⟩)
    rw [get?_of_missing missing] at found
    cases found

/-- Two objects that are each other's prototype, one of which hides what the other one holds. -/
example :
    let r := build [.object (some 2), .object (some 1), .property 2 "x" (.object 0),
      .property 2 "y" .primitive, .property 1 "y" (.object 0), .property 1 "x" .accessor]
    r.names 8 1 = ["y", "x"] ∧ r.names 8 2 = ["x", "y"] ∧
      r.get? "x" 8 1 = none ∧ r.get? "x" 8 2 = some 0 := by
  decide

end Realm

end CodeCompletion
