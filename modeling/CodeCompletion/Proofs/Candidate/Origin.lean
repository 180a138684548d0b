import CodeCompletion.Proofs.Candidate.Lookup
import CodeCompletion.Proofs.Candidate.Ranking
import CodeCompletion.Proofs.Shape.Names

/-! Where the names in a ranked list come from: from the shape of the scope, from live objects or
from the keywords. -/
namespace CodeCompletion

variable {Q : String → Prop}

theorem Shape.NamedBy.get? {s t : Shape} {path : List String} (named : s.NamedBy Q)
    (found : s.get? path = some t) : t.NamedBy Q := by
  induction path generalizing s with
  | nil =>
    cases found
    exact named
  | cons name rest ih =>
    obtain ⟨child, first, found⟩ := Option.bind_eq_some_iff.mp found
    exact ih (named.property first) found

def Provider.NamedBy (Q : String → Prop) : Provider → Prop
  | .shape s => s.NamedBy Q
  | .object _ => True

theorem Provider.namedBy_of_map {found : Option Shape} (named : ∀ shape ∈ found, shape.NamedBy Q) :
    ∀ p ∈ (found.map Provider.shape).toList, p.NamedBy Q := by
  intro p member
  obtain ⟨s, present, rfl⟩ := Option.map_eq_some_iff.mp (Option.mem_toList.mp member)
  exact named s present

namespace Surroundings

variable {s : Surroundings} {level : List Provider}

/-- Types lead only to shapes that the scope holds. -/
theorem namedBy_providersOf (root : s.root.NamedBy Q) (type : Facet) :
    ∀ p ∈ s.providersOf type, p.NamedBy Q := by
  have source := Provider.namedBy_of_map fun shape
      (found : (s.root.get? type.path).bind (·.source? type.index) = some shape) => by
    obtain ⟨origin, first, found⟩ := Option.bind_eq_some_iff.mp found
    exact (root.get? first).source found
  have shared := Provider.namedBy_of_map fun shape
      (found : (s.root.get? type.path).bind (·.property? "prototype") = some shape) => by
    obtain ⟨origin, first, found⟩ := Option.bind_eq_some_iff.mp found
    exact (root.get? first).property found
  intro p member
  simp only [providersOf] at member
  split at member
  · rcases List.mem_append.mp member with known | live
    · exact (List.mem_append.mp known).elim (source p) (shared p)
    · obtain ⟨id, -, rfl⟩ := Option.map_eq_some_iff.mp (Option.mem_toList.mp live)
      trivial
  · exact source p member

theorem Reaches.namedBy (root : s.root.NamedBy Q) {n : Nat} {p q : Provider}
    (way : s.Reaches n p q) (named : p.NamedBy Q) : q.NamedBy Q := by
  induction way with
  | here => exact named
  | step leads _ ih =>
    obtain ⟨type, -, given⟩ := leads
    exact ih (namedBy_providersOf root type _ given)

theorem namedBy_reach (root : s.root.NamedBy Q) (named : ∀ p ∈ level, p.NamedBy Q) :
    ∀ p ∈ s.reach level, p.NamedBy Q := by
  intro q member
  obtain ⟨p, first, way⟩ := mem_reach.mp member
  exact way.namedBy root (named p first)

theorem namedBy_child? {name : String} {p q : Provider} (named : p.NamedBy Q)
    (found : s.child? name p = some q) : q.NamedBy Q := by
  cases p with
  | shape shape =>
    obtain ⟨child, held, rfl⟩ := Option.map_eq_some_iff.mp found
    exact Shape.NamedBy.property named held
  | object id =>
    obtain ⟨realm, -, found⟩ := Option.bind_eq_some_iff.mp found
    obtain ⟨value, -, same⟩ := Option.bind_eq_some_iff.mp found
    cases same
    trivial

theorem namedBy_followPath (root : s.root.NamedBy Q) (path : List String)
    (named : ∀ p ∈ level, p.NamedBy Q) : ∀ p ∈ s.followPath path level, p.NamedBy Q := by
  induction path generalizing level with
  | nil => exact named
  | cons name rest ih =>
    refine ih fun q member => ?_
    obtain ⟨p, near, found⟩ := List.mem_filterMap.mp member
    exact namedBy_child? (namedBy_reach root named p near) found

theorem namedBy_startOf (root : s.root.NamedBy Q) (kind : IntentKind) :
    ∀ p ∈ s.startOf kind, p.NamedBy Q := by
  cases kind with
  | identifier => exact List.forall_mem_singleton.mpr root
  | property => exact List.forall_mem_singleton.mpr root
  | string => exact namedBy_providersOf root (.instanceOf "String")
  | regex => exact namedBy_providersOf root (.instanceOf "RegExp")

end Surroundings

open Surroundings

def Realm.Has (r : Realm) (name : String) : Prop := ∃ id, name ∈ r.ownNames id

/-- How a name comes to be offered: it is known from the text, where `Q` holds of all names, and
it may be offered at all; or it is that of a live object; or it is a keyword. -/
inductive Offered (Q : String → Prop) (realm : Option Realm) (typed name : String) : Prop where
  | known (written : Q name) (eligible : isEligible typed name = true)
  | live {r : Realm} (given : realm = some r) (has : r.Has name)
  | keyword (member : name ∈ keywords)

section Sources

variable {scope : Option Shape} {realm : Option Realm} {limits : Limits} {intent : Intent}
  {c : Candidate} {typed : String}

theorem has_of_offersOn {r : Realm} {links : Nat} {id : ObjectId}
    (member : c ∈ (r.offersOn links id typed).candidates) : r.Has c.display := by
  obtain ⟨name, named, offered⟩ := List.mem_filterMap.mp (Completions.mem_of_mem_ofList member)
  split at offered
  next =>
    cases offered
    obtain ⟨holder, -, own⟩ := List.mem_flatMap.mp (List.mem_eraseDups.mp named)
    exact ⟨holder, own⟩
  next => cases offered

theorem offered_of_shapeCandidates {place : Provider} (named : place.NamedBy Q)
    (member : c ∈ shapeCandidates typed place) : Offered Q realm typed c.display := by
  cases place with
  | object id => cases member
  | shape shape =>
    obtain ⟨listed, eligible⟩ := mem_shapeCandidates.mp ⟨c, member, rfl⟩
    obtain ⟨entry, present, same⟩ := List.mem_map.mp listed
    exact .known (same ▸ Shape.NamedBy.names named entry present) eligible

theorem offered_of_objectCandidates {s : Surroundings} {place : Provider}
    (member : c ∈ s.objectCandidates typed place) : Offered Q s.realm typed c.display := by
  cases place with
  | shape shape => cases member
  | object id =>
    cases given : s.realm with
    | none => simp [objectCandidates,given] at member
    | some r =>
      simp only [objectCandidates,given,Option.elim_some] at member
      exact .live rfl (has_of_offersOn member)

theorem offered_of_scopeCompletions (named : ∀ root ∈ scope, root.NamedBy Q)
    (member : c ∈ (scopeCompletions scope realm limits intent).candidates) :
    Offered Q realm intent.typed c.display := by
  cases scope with
  | none => cases member
  | some root =>
    have root : Shape.NamedBy Q (Surroundings.root ⟨root, realm, limits⟩) := named root rfl
    have member := (Completions.insertAll_sublist _ _).subset member
    rcases List.mem_append.mp member with fromText | live
    · obtain ⟨place, found, offered⟩ := List.mem_flatMap.mp (Completions.mem_of_mem_ofList fromText)
      have start := namedBy_startOf root intent.kind
      exact offered_of_shapeCandidates
        (namedBy_reach root (namedBy_followPath root _ start) place found) offered
    · obtain ⟨place, -, offered⟩ := List.mem_flatMap.mp live
      exact offered_of_objectCandidates offered

theorem offered_of_objectCompletions
    (member : c ∈ (objectCompletions realm limits intent).candidates) :
    Offered Q realm typed c.display := by
  cases realm with
  | none => cases member
  | some r =>
    simp only [objectCompletions,Option.elim_some,Realm.completions] at member
    split at member
    · exact .live rfl (has_of_offersOn member)
    · cases member

theorem mem_keywords_of_wordCompletions {withKeywords : Bool}
    (member : c ∈ (wordCompletions withKeywords intent).candidates) : c.display ∈ keywords := by
  rw [wordCompletions] at member
  split at member
  · obtain ⟨⟨word, rank⟩, listed, offered⟩ :=
      List.mem_filterMap.mp (Completions.mem_of_mem_ofList member)
    simp only at offered
    split at offered
    next =>
      cases offered
      exact List.fst_mem_of_mem_zipIdx listed
    next => cases offered
  · cases member

/-- Nothing is offered but for one of the three reasons. -/
theorem offered_of_ranked (named : ∀ root ∈ scope, root.NamedBy Q) {withKeywords : Bool}
    {name : String} (member : name ∈ (ranked intent scope realm withKeywords limits).displays) :
    Offered Q realm intent.typed name := by
  obtain ⟨c, held, rfl⟩ := Completions.mem_displays.mp member
  rcases mem_sort_merged held with other | word
  · rcases List.mem_append.mp other with fromText | live
    · exact offered_of_scopeCompletions named fromText
    · exact offered_of_objectCompletions live
  · exact .keyword (mem_keywords_of_wordCompletions word)

end Sources

end CodeCompletion
