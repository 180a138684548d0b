import CodeCompletion.Candidate.Basic
import Mathlib.Data.List.Nodup

/-! Sets of candidates. Adding keeps display texts apart and never replaces a candidate, so
that the set answers for a text with the first candidate that was added for it; sorting moves
candidates and changes no answer. -/
namespace CodeCompletion.Completions

variable {s t : Completions} {c : Candidate} {cs : List Candidate}

def Distinct (s : Completions) : Prop := s.displays.Nodup

theorem mem_displays {name : String} :
    name ∈ s.displays ↔ ∃ c ∈ s.candidates, c.display = name := List.mem_map

theorem contains_iff {name : String} : s.contains name = true ↔ name ∈ s.displays := by
  simp [contains,mem_displays]

theorem get?_isSome_iff {name : String} : (s.get? name).isSome = true ↔ name ∈ s.displays := by
  simp [get?,mem_displays]

theorem mem_of_get? {name : String} (found : s.get? name = some c) :
    c ∈ s.candidates ∧ c.display = name :=
  ⟨List.mem_of_find?_eq_some found, by simpa using List.find?_some found⟩

/-- Display texts tell the candidates of a distinct set apart. -/
theorem get?_eq_some_iff (distinct : s.Distinct) {name : String} :
    s.get? name = some c ↔ c ∈ s.candidates ∧ c.display = name := by
  constructor
  · exact mem_of_get?
  · rintro ⟨member, rfl⟩
    have taken : c.display ∈ s.displays := mem_displays.mpr ⟨c, member, rfl⟩
    obtain ⟨d, found⟩ := Option.isSome_iff_exists.mp (get?_isSome_iff.mpr taken)
    obtain ⟨member', same⟩ := mem_of_get? found
    have equal : d = c := List.inj_on_of_nodup_map distinct member' member same
    rw [found,equal]

theorem insert_distinct (distinct : s.Distinct) : (s.insert c).Distinct := by
  unfold insert
  split
  · exact distinct
  next free =>
    have apart : c.display ∉ s.displays := fun taken => free (contains_iff.mpr taken)
    simp only [Distinct,displays,List.map_append,List.map_cons,List.map_nil]
    exact distinct.append (List.nodup_singleton _) (by simpa using apart)

theorem insertAll_distinct (distinct : s.Distinct) : (s.insertAll cs).Distinct := by
  induction cs generalizing s with
  | nil => exact distinct
  | cons c cs ih => exact ih (insert_distinct distinct)

theorem ofList_distinct (cs : List Candidate) : (ofList cs).Distinct :=
  insertAll_distinct List.nodup_nil

theorem get?_insert (s : Completions) (c : Candidate) (name : String) :
    (s.insert c).get? name = (s.get? name).or ([c].find? (·.display = name)) := by
  unfold insert
  split
  next taken =>
    by_cases same : c.display = name
    · subst same
      have some := get?_isSome_iff.mpr (contains_iff.mp taken)
      obtain ⟨d, found⟩ := Option.isSome_iff_exists.mp some
      rw [found,Option.some_or]
    · simp [same]
  next => simp only [get?,List.find?_append]

/-- The first candidate that was added for a text stays. -/
theorem get?_insertAll (s : Completions) (cs : List Candidate) (name : String) :
    (s.insertAll cs).get? name = (s.get? name).or (cs.find? (·.display = name)) := by
  induction cs generalizing s with
  | nil => simp [insertAll]
  | cons c cs ih =>
    have step : (s.insertAll (c :: cs)).get? name = ((s.insert c).insertAll cs).get? name := rfl
    have both : (c :: cs).find? (·.display = name) =
        ([c].find? (·.display = name)).or (cs.find? (·.display = name)) := by
      rw [← List.find?_append,List.singleton_append]
    rw [step,ih,get?_insert,Option.or_assoc,both]

theorem get?_addAll (s t : Completions) (name : String) :
    (s.addAll t).get? name = (s.get? name).or (t.get? name) :=
  get?_insertAll s t.candidates name

theorem mem_displays_addAll {name : String} :
    name ∈ (s.addAll t).displays ↔ name ∈ s.displays ∨ name ∈ t.displays := by
  simp only [← get?_isSome_iff,get?_addAll,Option.isSome_or,Bool.or_eq_true]

/-- A set of candidates has the display texts of the list it is made of. -/
theorem mem_displays_ofList {name : String} :
    name ∈ (ofList cs).displays ↔ ∃ c ∈ cs, c.display = name := by
  rw [← get?_isSome_iff,ofList,get?_insertAll]
  simp [get?,empty]

theorem insert_sublist (s : Completions) (c : Candidate) :
    (s.insert c).candidates.Sublist (s.candidates ++ [c]) := by
  unfold insert
  split
  · exact List.sublist_append_left _ _
  · exact List.Sublist.refl _

theorem insertAll_sublist (s : Completions) (cs : List Candidate) :
    (s.insertAll cs).candidates.Sublist (s.candidates ++ cs) := by
  induction cs generalizing s with
  | nil => simp [insertAll]
  | cons c cs ih =>
    have first := (insert_sublist s c).append (List.Sublist.refl cs)
    rw [List.append_assoc,List.singleton_append] at first
    exact (ih (s.insert c)).trans first

theorem mem_of_mem_ofList (member : c ∈ (ofList cs).candidates) : c ∈ cs := by
  have := (insertAll_sublist empty cs).subset member
  simpa [empty] using this

def Descending (cs : List Candidate) : Prop := cs.Pairwise fun a b => b.score ≤ a.score

theorem sort_perm (s : Completions) : s.sort.candidates.Perm s.candidates :=
  List.mergeSort_perm _ _

theorem mem_sort : c ∈ s.sort.candidates ↔ c ∈ s.candidates := (sort_perm s).mem_iff

theorem mem_displays_sort {name : String} : name ∈ s.sort.displays ↔ name ∈ s.displays := by
  simp [mem_displays,mem_sort]

theorem sort_distinct (distinct : s.Distinct) : s.sort.Distinct :=
  ((sort_perm s).map _).nodup_iff.mpr distinct

theorem get?_sort (distinct : s.Distinct) (name : String) : s.sort.get? name = s.get? name := by
  apply Option.ext
  intro c
  rw [get?_eq_some_iff (sort_distinct distinct),get?_eq_some_iff distinct,mem_sort]

theorem score_trans (a b c : Candidate) (first : decide (b.score ≤ a.score) = true)
    (second : decide (c.score ≤ b.score) = true) : decide (c.score ≤ a.score) = true := by
  simp only [decide_eq_true_eq] at *
  omega

theorem score_total (a b : Candidate) :
    (decide (b.score ≤ a.score) || decide (a.score ≤ b.score)) = true := by
  simp only [Bool.or_eq_true,decide_eq_true_eq]
  omega

theorem sort_descending (s : Completions) : Descending s.sort.candidates := by
  have sorted := List.pairwise_mergeSort score_trans score_total s.candidates
  simpa [Descending,sort] using sorted

/-- Candidates of one score keep their order. -/
theorem sort_stable (s : Completions) (score : Int) :
    s.sort.candidates.filter (·.score = score) = s.candidates.filter (·.score = score) := by
  have level : (s.candidates.filter (·.score = score)).Pairwise fun a b =>
      decide (b.score ≤ a.score) = true := by
    apply List.pairwise_of_forall_mem_list
    intro a inside b inside'
    simp only [List.mem_filter,decide_eq_true_eq] at inside inside' ⊢
    omega
  have kept : (s.candidates.filter (·.score = score)).Sublist s.sort.candidates :=
    List.sublist_mergeSort score_trans score_total level List.filter_sublist
  have kept := kept.filter (·.score = score)
  rw [List.filter_filter] at kept
  simp only [Bool.and_self] at kept
  exact (kept.eq_of_length (((sort_perm s).filter _).length_eq).symm).symm

/-- A descending list falls into two parts at every score. -/
theorem Descending.split {cs : List Candidate} (sorted : Descending cs) (score : Int) :
    cs = cs.filter (score ≤ ·.score) ++ cs.filter (·.score < score) := by
  induction cs with
  | nil => rfl
  | cons c cs ih =>
    obtain ⟨below, sorted⟩ := List.pairwise_cons.mp sorted
    have rest := ih sorted
    by_cases high : score ≤ c.score
    · have low : ¬ c.score < score := by omega
      simpa [high,low] using rest
    · have low : c.score < score := by omega
      -- all that follows is as low as its first candidate
      have none : cs.filter (score ≤ ·.score) = [] := by
        rw [List.filter_eq_nil_iff]
        intro d member
        have := below d member
        simp
        omega
      rw [none,List.nil_append] at rest
      simpa [high,low,none] using rest

end CodeCompletion.Completions
