import CodeCompletion.Text.LineTable
import Mathlib.Data.List.Induction

/-! The two ways to tell a position agree. Reading a text character by character counts
lines and columns as it goes; the line table of the text counts line starts and then the
characters since the last of them. -/
namespace CodeCompletion

/-- A span of the first line, where each character takes one byte. -/
def firstLine (start stop : Nat) : Span := ⟨⟨start, ⟨0, start⟩⟩, ⟨stop, ⟨0, stop⟩⟩⟩

theorem byteLength_pos {cs : List Char} (nonempty : cs ≠ []) : 0 < byteLength cs := by
  cases cs with
  | nil => exact absurd rfl nonempty
  | cons c cs =>
    have := c.utf8Size_pos
    simp only [byteLength_cons]
    omega

theorem byteLength_ofList (cs : List Char) : (String.ofList cs).utf8ByteSize = byteLength cs := by
  induction cs with
  | nil => rfl
  | cons c cs ih =>
    have split : String.ofList (c :: cs) = String.singleton c ++ String.ofList cs := by
      rw [String.singleton_eq_ofList,← String.ofList_append]
      rfl
    rw [split,String.utf8ByteSize_append,String.utf8ByteSize_singleton,ih,byteLength_cons]

theorem byteLength_toList (s : String) : byteLength s.toList = s.utf8ByteSize := by
  rw [← byteLength_ofList,String.ofList_toList]

/-- Cutting at the length of a first part gives the two parts back. -/
theorem splitAtByte_append (xs ys : List Char) :
    splitAtByte (xs ++ ys) (byteLength xs) = some (xs, ys) := by
  induction xs with
  | nil => simp [splitAtByte]
  | cons c cs ih =>
    obtain ⟨n, size⟩ : ∃ n, c.utf8Size + byteLength cs = n + 1 :=
      Nat.exists_eq_succ_of_ne_zero (by have := c.utf8Size_pos; omega)
    have rest : n + 1 - c.utf8Size = byteLength cs := by omega
    simp only [List.cons_append,byteLength_cons,size,splitAtByte,rest,ih]
    simp
    omega

/-- A byte offset cuts a text in one way only. -/
theorem append_cancel {xs xs' ys ys' : List Char} (same : xs ++ ys = xs' ++ ys')
    (size : byteLength xs = byteLength xs') : xs = xs' ∧ ys = ys' := by
  have left := splitAtByte_append xs ys
  rw [same,size,splitAtByte_append] at left
  simpa [eq_comm] using left

/-- The end of a first part lies within a slice of the text. -/
theorem part_of_byteLength {left right front chars rest : List Char}
    (whole : left ++ right = front ++ (chars ++ rest)) (starts : byteLength front < byteLength left)
    (stops : byteLength left ≤ byteLength (front ++ chars)) :
    ∃ part, part ≠ [] ∧ left = front ++ part ∧ part <+: chars := by
  rcases List.append_eq_append_iff.mp whole with ⟨more, rfl, -⟩ | ⟨part, rfl, slice⟩
  · rw [byteLength_append] at starts
    omega
  · refine ⟨part, fun none => by simp [none] at starts, rfl, ?_⟩
    rcases List.append_eq_append_iff.mp slice with ⟨more, rfl, -⟩ | ⟨more, rfl, -⟩
    · obtain rfl : more = [] := by
        by_contra nonempty
        have := byteLength_pos nonempty
        simp only [byteLength_append] at stops
        omega
      simp
    · exact List.prefix_append _ _

def OnBoundary (text : List Char) (offset : Nat) : Prop :=
  ∃ xs ys, text = xs ++ ys ∧ byteLength xs = offset

theorem Position.le_trans {a b c : Position} (first : a ≤ b) (second : b ≤ c) : a ≤ c := by
  simp only [Position.le_iff] at first second ⊢
  omega

namespace Place

theorem offset_afterAll (p : Place) (cs : List Char) :
    (p.afterAll cs).offset = p.offset + byteLength cs := by
  induction cs generalizing p with
  | nil => simp
  | cons c cs ih =>
    rw [afterAll_cons,ih,byteLength_cons,after]
    split <;> exact Nat.add_assoc _ _ _

theorem offset_origin_afterAll (cs : List Char) : (origin.afterAll cs).offset = byteLength cs := by
  rw [offset_afterAll]
  exact Nat.zero_add _

theorem line_afterAll (p : Place) (cs : List Char) :
    (p.afterAll cs).position.line = p.position.line + cs.count '\n' := by
  induction cs generalizing p with
  | nil => simp
  | cons c cs ih =>
    rw [afterAll_cons,ih,after]
    split
    · simp only [*,List.count_cons_self]
      omega
    · simp [*]

theorem position_le_after (p : Place) (c : Char) : p.position ≤ (p.after c).position := by
  rw [after,Position.le_iff]
  split
  · exact Or.inl (Nat.lt_succ_self _)
  · exact Or.inr ⟨rfl, Nat.le_succ _⟩

theorem position_le_afterAll (p : Place) (cs : List Char) :
    p.position ≤ (p.afterAll cs).position := by
  induction cs generalizing p with
  | nil => exact Or.inr ⟨rfl, Nat.le_refl _⟩
  | cons c cs ih => exact Position.le_trans (p.position_le_after c) (ih (p.after c))

/-- In one text, the place with the smaller offset comes first in reading order. -/
theorem position_le_of_offset_le {xs ys xs' ys' : List Char} (same : xs ++ ys = xs' ++ ys')
    (le : (origin.afterAll xs).offset ≤ (origin.afterAll xs').offset) :
    (origin.afterAll xs).position ≤ (origin.afterAll xs').position := by
  rw [offset_origin_afterAll,offset_origin_afterAll] at le
  have first : xs <+: xs' := by
    rcases List.prefix_or_prefix_of_prefix ⟨ys, same⟩ ⟨ys', rfl⟩ with first | ⟨more, rfl⟩
    · exact first
    · -- a longer text has more bytes, so there is nothing left
      have none : more = [] := by
        by_contra nonempty
        have := byteLength_pos nonempty
        rw [byteLength_append] at le
        omega
      simp [none]
  obtain ⟨more, rfl⟩ := first
  rw [afterAll_append]
  exact position_le_afterAll _ more

end Place

namespace LineTable

theorem lt_of_mem_startsAfter {offset start : Nat} {text : List Char}
    (member : start ∈ startsAfter offset text) : offset < start := by
  induction text generalizing offset with
  | nil => cases member
  | cons c cs ih =>
    have := c.utf8Size_pos
    simp only [startsAfter] at member
    split at member
    · rcases List.mem_cons.mp member with rfl | later
      · omega
      · have := ih later
        omega
    · have := ih member
      omega

/-- The lines that start in a first part of a text are those its line feeds open. -/
theorem countP_startsAfter (xs ys : List Char) {offset stop : Nat}
    (stopAt : stop = offset + byteLength xs) :
    (startsAfter offset (xs ++ ys)).countP (· ≤ stop) = xs.count '\n' := by
  induction xs generalizing offset with
  | nil =>
    simp only [byteLength_nil,Nat.add_zero] at stopAt
    refine List.countP_eq_zero.mpr fun start member => ?_
    have := lt_of_mem_startsAfter member
    simp only [decide_eq_true_eq]
    omega
  | cons c cs ih =>
    rw [byteLength_cons,← Nat.add_assoc] at stopAt
    simp only [List.cons_append,startsAfter]
    split
    · subst c
      have here : offset + '\n'.utf8Size ≤ stop := by omega
      rw [List.countP_cons_of_pos (by simpa using here),ih stopAt,List.count_cons_self]
    · rw [ih stopAt,List.count_cons_of_ne ‹_›]

theorem startsAfter_getElem? (offset : Nat) (xs ys : List Char) :
    (startsAfter offset (xs ++ '\n' :: ys))[xs.count '\n']? =
      some (offset + byteLength (xs ++ ['\n'])) := by
  induction xs generalizing offset with
  | nil => simp [startsAfter]
  | cons c cs ih =>
    have tail := ih (offset + c.utf8Size)
    rw [Nat.add_assoc] at tail
    simp only [List.cons_append,startsAfter,byteLength_cons]
    split
    · subst c
      rw [List.count_cons_self]
      exact tail
    · rw [List.count_cons_of_ne ‹_›]
      exact tail

/-- Reading a first part leaves the reader in the line that the table has for its length,
as many characters into it as the column says. -/
theorem start?_afterAll (xs ys : List Char) :
    ∃ head tail, xs = head ++ tail ∧ '\n' ∉ tail ∧
      tail.length = (Place.origin.afterAll xs).position.column ∧
      (ofChars (xs ++ ys)).start? (Place.origin.afterAll xs).position.line =
        some (byteLength head) := by
  induction xs using List.reverseRecOn generalizing ys with
  | nil => exact ⟨[], [], rfl, List.not_mem_nil, rfl, rfl⟩
  | append_singleton xs c ih =>
    obtain ⟨head, tail, split, single, column, start⟩ := ih (c :: ys)
    rw [Place.afterAll_append,List.append_assoc,List.singleton_append]
    simp only [Place.afterAll_cons,Place.afterAll_nil,Place.after]
    by_cases feed : c = '\n'
    · subst c
      refine ⟨xs ++ ['\n'], [], by simp, List.not_mem_nil, by simp, ?_⟩
      have next := startsAfter_getElem? 0 xs ys
      simpa [start?,ofChars,Place.line_afterAll,Place.origin] using next
    · refine ⟨head, tail ++ [c], by simp [split], by simp [single,Ne.symm feed], by simp [feed,column], ?_⟩
      simpa [feed] using start

theorem lineOf_byteLength (xs ys : List Char) :
    (ofChars (xs ++ ys)).lineOf (byteLength xs) = (Place.origin.afterAll xs).position.line := by
  have count := countP_startsAfter xs ys (Nat.zero_add (byteLength xs)).symm
  simp [lineOf,ofChars,Place.line_afterAll,Place.origin,count]

/-- Both ways to tell a position agree at every character of a text. -/
theorem position_byteLength (xs ys : List Char) :
    (ofChars (xs ++ ys)).position (xs ++ ys) (byteLength xs) =
      (Place.origin.afterAll xs).position := by
  obtain ⟨head, tail, split, -, column, start⟩ := start?_afterAll xs ys
  have inside : min (byteLength xs) (ofChars (xs ++ ys)).size = byteLength xs := by
    simp [ofChars]
  have before : splitAtByte (xs ++ ys) (byteLength head) = some (head, tail ++ ys) := by
    rw [split,List.append_assoc]
    exact splitAtByte_append head (tail ++ ys)
  have within : splitAtByte (tail ++ ys) (byteLength xs - byteLength head) = some (tail, ys) := by
    have size : byteLength xs - byteLength head = byteLength tail := by simp [split]
    rw [size]
    exact splitAtByte_append tail ys
  simp [position,inside,lineOf_byteLength,start,before,within,column]

end LineTable

end CodeCompletion
