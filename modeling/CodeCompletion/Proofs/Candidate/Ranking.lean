import CodeCompletion.Candidate.Ranking
import CodeCompletion.Proofs.Candidate.Completions

/-! The ranked list of an intent. `ranked_wellRanked` says which texts are offered, from which
of the three kinds of candidates each of them comes and in which order they stand, whatever
is known of the program and whatever live objects there are. -/
namespace CodeCompletion

open Completions

structure Candidate.Continues (c : Candidate) (typed : String) : Prop where
  same : c.typed = typed
  starts : typed.toList <+: c.display.toList
  longer : typed.toList.length < c.display.toList.length

theorem continues_of_properlyExtends {typed name : String} {score : Int}
    (h : properlyExtends typed name = true) :
    Candidate.Continues ⟨name, typed, score⟩ typed := by
  simp only [properlyExtends,Bool.and_eq_true,List.isPrefixOf_iff_prefix,bne_iff_ne] at h
  obtain ⟨starts, different⟩ := h
  refine ⟨rfl, starts, ?_⟩
  have unequal : typed.toList ≠ name.toList := fun same => different (String.toList_inj.mp same)
  have := starts.length_le
  have : typed.toList.length ≠ name.toList.length := fun same =>
    unequal (starts.eq_of_length same)
  show typed.toList.length < name.toList.length
  omega

structure Candidate.Known (c : Candidate) (typed : String) : Prop where
  continues : c.Continues typed
  named : isName c.display = true
  score : -1 ≤ c.score

section Sources

variable {scope : Option Shape} {realm : Option Realm} {limits : Limits} {intent : Intent}
  {c : Candidate}

theorem known_of_offersOn {r : Realm} {links : Nat} {id : ObjectId} {typed : String}
    (member : c ∈ (r.offersOn links id typed).candidates) : c.Known typed := by
  obtain ⟨name, -, offered⟩ := List.mem_filterMap.mp (mem_of_mem_ofList member)
  split at offered
  next eligible =>
    cases offered
    simp only [Bool.and_eq_true] at eligible
    exact ⟨continues_of_properlyExtends eligible.1, eligible.2, Int.le_refl (-1)⟩
  next => cases offered

theorem known_of_shapeCandidates {typed : String} {place : Provider}
    (member : c ∈ Surroundings.shapeCandidates typed place) : c.Known typed := by
  cases place with
  | object id => cases member
  | shape shape =>
    obtain ⟨⟨name, child⟩, -, offered⟩ := List.mem_filterMap.mp member
    simp only at offered
    split at offered
    next eligible =>
      cases offered
      simp only [Surroundings.isEligible,Bool.and_eq_true] at eligible
      obtain ⟨⟨extends_, -⟩, named⟩ := eligible
      exact ⟨continues_of_properlyExtends extends_, named, by simp only; omega⟩
    next => cases offered

theorem known_of_objectCandidates {s : Surroundings} {typed : String} {place : Provider}
    (member : c ∈ s.objectCandidates typed place) : c.Known typed := by
  cases place with
  | shape shape => cases member
  | object id =>
    cases given : s.realm with
    | none => simp [Surroundings.objectCandidates,given] at member
    | some realm =>
      simp only [Surroundings.objectCandidates,given,Option.elim_some] at member
      exact known_of_offersOn member

theorem known_of_scopeCompletions
    (member : c ∈ (scopeCompletions scope realm limits intent).candidates) :
    c.Known intent.typed := by
  cases scope with
  | none => cases member
  | some root =>
    have member := (insertAll_sublist _ _).subset member
    rcases List.mem_append.mp member with fromText | live
    · obtain ⟨place, -, offered⟩ := List.mem_flatMap.mp (mem_of_mem_ofList fromText)
      exact known_of_shapeCandidates offered
    · obtain ⟨place, -, offered⟩ := List.mem_flatMap.mp live
      exact known_of_objectCandidates offered

theorem known_of_objectCompletions
    (member : c ∈ (objectCompletions realm limits intent).candidates) :
    c.Known intent.typed := by
  cases realm with
  | none => cases member
  | some realm =>
    simp only [objectCompletions,Option.elim_some,Realm.completions] at member
    split at member
    · exact known_of_offersOn member
    · cases member

theorem continues_of_keywordsAfter {typed : String} (member : c ∈ (keywordsAfter typed).candidates) :
    c.Continues typed ∧ c.score ≤ -2 := by
  obtain ⟨⟨word, rank⟩, -, offered⟩ := List.mem_filterMap.mp (mem_of_mem_ofList member)
  simp only at offered
  split at offered
  next longer =>
    cases offered
    exact ⟨continues_of_properlyExtends longer, by simp only [scoreAtRank]; omega⟩
  next => cases offered

theorem scopeCompletions_distinct : (scopeCompletions scope realm limits intent).Distinct := by
  cases scope with
  | none => exact List.nodup_nil
  | some root => exact insertAll_distinct (ofList_distinct _)

end Sources

/-- How a ranked list is made of candidates known from the text, of those among live objects
and of keywords, in this order. -/
structure WellRanked (typed : String) (scope objects words result : Completions) : Prop where
  distinct : result.displays.Nodup
  descending : result.candidates.Pairwise fun a b => b.score ≤ a.score
  continues : ∀ c ∈ result.candidates, c.Continues typed
  displays : ∀ name, name ∈ result.displays ↔
    name ∈ scope.displays ∨ name ∈ objects.displays ∨ name ∈ words.displays
  /-- Each text has the candidate of the first kind that offers it. -/
  first : ∀ name, result.get? name = ((scope.get? name).or (objects.get? name)).or (words.get? name)
  /-- Candidates from the text, among live objects and keywords stand in three groups. -/
  grouped : ∃ fromText live keywords, result.candidates = fromText ++ (live ++ keywords) ∧
    (∀ c ∈ fromText, 0 ≤ c.score ∧ c ∉ words.candidates) ∧
    (∀ c ∈ live, c.score = -1 ∧ c ∉ words.candidates) ∧
    (∀ c ∈ keywords, c.score ≤ -2 ∧ c ∈ words.candidates)
  /-- Equal scores keep the order in which the candidates were put together. -/
  stable : ∀ score, result.candidates.filter (·.score = score) =
    ((scope.addAll objects).addAll words).candidates.filter (·.score = score)
  named : ∀ c ∈ result.candidates, c ∉ words.candidates → isName c.display = true

section Merging

variable {typed : String} {scope objects words : Completions}

theorem distinct_merged (distinct : scope.Distinct) :
    ((scope.addAll objects).addAll words).Distinct :=
  insertAll_distinct (insertAll_distinct distinct)

theorem mem_sort_merged {c : Candidate}
    (member : c ∈ ((scope.addAll objects).addAll words).sort.candidates) :
    c ∈ scope.candidates ++ objects.candidates ∨ c ∈ words.candidates := by
  have member := (insertAll_sublist _ _).subset (mem_sort.mp member)
  rcases List.mem_append.mp member with earlier | word
  · exact Or.inl ((insertAll_sublist _ _).subset earlier)
  · exact Or.inr word

/-- The scores tell the kinds of candidates apart, and a list that is sorted by them is cut in three. -/
theorem grouped_sort_merged
    (known : ∀ c ∈ scope.candidates ++ objects.candidates, c.Known typed)
    (low : ∀ c ∈ words.candidates, c.Continues typed ∧ c.score ≤ -2) :
    ∃ fromText live keywords,
      ((scope.addAll objects).addAll words).sort.candidates = fromText ++ (live ++ keywords) ∧
      (∀ c ∈ fromText, 0 ≤ c.score ∧ c ∉ words.candidates) ∧
      (∀ c ∈ live, c.score = -1 ∧ c ∉ words.candidates) ∧
      (∀ c ∈ keywords, c.score ≤ -2 ∧ c ∈ words.candidates) := by
  have high : ∀ c : Candidate, -1 ≤ c.score → c ∉ words.candidates := by
    intro c score word
    have := (low c word).2
    omega
  have sorted := sort_descending ((scope.addAll objects).addAll words)
  have top := sorted.split 0
  have bottom := Descending.split (List.Pairwise.filter (·.score < 0) sorted) (-1)
  rw [bottom] at top
  refine ⟨_, _, _, top, ?_, ?_, ?_⟩
  · intro c inside
    simp only [List.mem_filter,decide_eq_true_eq] at inside
    exact ⟨inside.2, high c (by omega)⟩
  · intro c inside
    simp only [List.mem_filter,decide_eq_true_eq] at inside
    exact ⟨by omega, high c inside.2⟩
  · intro c inside
    simp only [List.mem_filter,decide_eq_true_eq] at inside
    refine ⟨by omega, ?_⟩
    rcases mem_sort_merged inside.1.1 with other | word
    · have := (known c other).score
      omega
    · exact word

/-- Three kinds of candidates, the last of them below the others, are ranked in this way. -/
theorem wellRanked_of_sources (distinct : scope.Distinct)
    (known : ∀ c ∈ scope.candidates ++ objects.candidates, c.Known typed)
    (low : ∀ c ∈ words.candidates, c.Continues typed ∧ c.score ≤ -2) :
    WellRanked typed scope objects words ((scope.addAll objects).addAll words).sort where
  distinct := sort_distinct (distinct_merged distinct)
  descending := sort_descending _
  continues := by
    intro c inside
    rcases mem_sort_merged inside with other | word
    · exact (known c other).continues
    · exact (low c word).1
  displays := by
    intro name
    rw [mem_displays_sort,mem_displays_addAll,mem_displays_addAll,or_assoc]
  first := by
    intro name
    rw [get?_sort (distinct_merged distinct),get?_addAll,get?_addAll]
  grouped := grouped_sort_merged known low
  stable := sort_stable _
  named := by
    intro c inside noWord
    rcases mem_sort_merged inside with other | word
    · exact (known c other).named
    · exact absurd word noWord

end Merging

/-- Every ranked list is well ranked. Keywords take part when they are wanted and the intent
is a name that stands alone. -/
theorem ranked_wellRanked (intent : Intent) (scope : Option Shape) (realm : Option Realm)
    (withKeywords : Bool) (limits : Limits) :
    WellRanked intent.typed (scopeCompletions scope realm limits intent)
      (objectCompletions realm limits intent)
      (if withKeywords ∧ intent.kind = .identifier ∧ intent.chain.length = 1 then
        keywordsAfter intent.typed else .empty)
      (ranked intent scope realm withKeywords limits) := by
  apply wellRanked_of_sources scopeCompletions_distinct
  · intro c member
    rcases List.mem_append.mp member with fromText | live
    · exact known_of_scopeCompletions fromText
    · exact known_of_objectCompletions live
  · intro c member
    split at member
    · exact continues_of_keywordsAfter member
    · cases member

end CodeCompletion
