import CodeCompletion.Proofs.Text.Place
import Mathlib.Data.List.TakeWhile

/-! Byte offsets and positions tell the places of a text in the same order. The positions of a text
are those in its lines, the end of each line included, and there is one for each offset at which a
character starts and for the end of the text. -/
namespace CodeCompletion

namespace Position

instance : LT Position :=
  ⟨fun a b => a.line < b.line ∨ a.line = b.line ∧ a.column < b.column⟩

theorem lt_iff {a b : Position} :
    a < b ↔ a.line < b.line ∨ a.line = b.line ∧ a.column < b.column := Iff.rfl

theorem lt_of_le_of_ne {a b : Position} (le : a ≤ b) (ne : a ≠ b) : a < b := by
  cases a
  cases b
  simp only [le_iff,lt_iff,ne_eq,Position.mk.injEq] at *
  omega

end Position

open Place

variable {text : List Char} {p : Position} {o start line : Nat}

/-- In one line each character takes the reader one column on. -/
theorem Place.afterAll_of_single {cs : List Char} (single : '\n' ∉ cs) (here : Place) :
    here.afterAll cs = ⟨here.offset + byteLength cs,
      ⟨here.position.line, here.position.column + cs.length⟩⟩ := by
  induction cs generalizing here with
  | nil => rfl
  | cons c cs ih =>
    obtain ⟨other, single⟩ := not_or.mp (mt List.mem_cons.mpr single)
    rw [afterAll_cons,ih single,after,if_neg (Ne.symm other)]
    simp only [byteLength_cons,List.length_cons,Nat.add_assoc,Nat.add_comm 1]

theorem bytesBefore_eq_some {cs : List Char} {column n : Nat} :
    bytesBefore cs column = some n ↔ column ≤ cs.length ∧ byteLength (cs.take column) = n := by
  induction column generalizing cs n with
  | zero => simp [bytesBefore]
  | succ column ih =>
    cases cs with
    | nil => simp [bytesBefore]
    | cons c cs => simp [bytesBefore,Option.map_eq_some_iff,ih,and_assoc]

theorem not_mem_takeWhile (cs : List Char) : '\n' ∉ cs.takeWhile (· ≠ '\n') := fun member => by
  simpa using List.mem_takeWhile_imp member

/-- The first line of a text is all of it or ends in a line feed. -/
theorem takeWhile_closed (cs : List Char) :
    cs.takeWhile (· ≠ '\n') = cs ∨ ∃ more, cs = cs.takeWhile (· ≠ '\n') ++ '\n' :: more := by
  induction cs with
  | nil => exact Or.inl rfl
  | cons c cs ih =>
    by_cases feed : c = '\n'
    · subst c
      exact Or.inr ⟨cs, by simp⟩
    · simpa [feed] using ih

/-- Characters that are counted in the first line of a text. -/
theorem split_of_bytesBefore {cs : List Char} {column n : Nat}
    (bytes : bytesBefore (cs.takeWhile (· ≠ '\n')) column = some n) :
    ∃ first more, cs = first ++ more ∧ '\n' ∉ first ∧ first.length = column ∧
      byteLength first = n := by
  obtain ⟨inside, size⟩ := bytesBefore_eq_some.mp bytes
  have begins : (cs.takeWhile (· ≠ '\n')).take column <+: cs :=
    (List.take_prefix _ _).trans (List.takeWhile_prefix _)
  obtain ⟨more, split⟩ := begins
  refine ⟨_, more, split.symm, fun member => ?_, List.length_take_of_le inside, size⟩
  exact not_mem_takeWhile cs (List.mem_of_mem_take member)

section Lines

def linesOf (text : List Char) : List (List Char) :=
  text.splitOn '\n'

theorem linesOf_feed (cs : List Char) : linesOf ('\n' :: cs) = [] :: linesOf cs := by
  simp [linesOf,List.splitOn_cons_eq_if_modifyHead]

theorem linesOf_cons {c : Char} (other : c ≠ '\n') (cs : List Char) :
    linesOf (c :: cs) = (linesOf cs).modifyHead (c :: ·) := by
  simp [linesOf,List.splitOn_cons_eq_if_modifyHead,other]

/-- The first line ends before the first line feed. -/
theorem linesOf_getElem?_zero (cs : List Char) :
    (linesOf cs)[0]? = some (cs.takeWhile (· ≠ '\n')) := by
  induction cs with
  | nil => rfl
  | cons c cs ih =>
    by_cases feed : c = '\n'
    · subst c
      simp [linesOf_feed]
    · rw [linesOf_cons feed]
      simp [feed,ih]

end Lines

namespace LineTable

theorem length_startsAfter (offset : Nat) (cs : List Char) :
    (startsAfter offset cs).length + 1 = (linesOf cs).length := by
  induction cs generalizing offset with
  | nil => rfl
  | cons c cs ih =>
    simp only [startsAfter]
    split
    next feed =>
      subst feed
      rw [linesOf_feed,List.length_cons,List.length_cons,ih]
    next other =>
      rw [linesOf_cons other,List.length_modifyHead,ih]

/-- A later line starts where the reader has column 0 in it. -/
theorem startsAfter_spec {here : Place} {cs : List Char} {i : Nat}
    (found : (startsAfter here.offset cs)[i]? = some start) :
    ∃ left rest, cs = left ++ rest ∧
      here.afterAll left = ⟨start, ⟨here.position.line + (i + 1), 0⟩⟩ ∧
      (linesOf cs)[i + 1]? = some (rest.takeWhile (· ≠ '\n')) := by
  induction cs generalizing here i with
  | nil => cases found
  | cons c cs ih =>
    have size : (here.after c).offset = here.offset + c.utf8Size := by
      rw [after]
      split <;> rfl
    simp only [startsAfter] at found
    split at found
    next feed =>
      subst feed
      cases i with
      | zero =>
        cases found
        exact ⟨['\n'], cs, rfl, rfl, by simp [linesOf_feed,linesOf_getElem?_zero]⟩
      | succ i =>
        rw [List.getElem?_cons_succ,← size] at found
        obtain ⟨left, rest, rfl, at_, line⟩ := ih found
        refine ⟨'\n' :: left, rest, rfl, ?_, by simpa [linesOf_feed] using line⟩
        rw [afterAll_cons,at_]
        simp only [after,if_true,Nat.add_assoc,Nat.add_comm 1]
    next other =>
      rw [← size] at found
      obtain ⟨left, rest, rfl, at_, line⟩ := ih found
      refine ⟨c :: left, rest, rfl, ?_, by simpa [linesOf_cons other] using line⟩
      rw [afterAll_cons,at_]
      simp [after,other]

/-- A line starts where the reader has column 0 in it. -/
theorem start?_spec (found : (ofChars text).start? line = some start) :
    ∃ left rest, text = left ++ rest ∧ origin.afterAll left = ⟨start, ⟨line, 0⟩⟩ ∧
      (linesOf text)[line]? = some (rest.takeWhile (· ≠ '\n')) := by
  cases line with
  | zero =>
    cases found
    exact ⟨[], text, rfl, rfl, linesOf_getElem?_zero text⟩
  | succ i =>
    have later : (startsAfter origin.offset text)[i]? = some start := found
    obtain ⟨left, rest, whole, at_, line⟩ := startsAfter_spec later
    exact ⟨left, rest, whole, by simpa [origin] using at_, line⟩

theorem count_ofChars (text : List Char) : (ofChars text).count = (linesOf text).length :=
  length_startsAfter 0 text

theorem count_feeds {left first : List Char} (here : origin.afterAll left = ⟨start, ⟨line, 0⟩⟩)
    (single : '\n' ∉ first) : (left ++ first).count '\n' = line := by
  have counted := line_afterAll origin left
  rw [here] at counted
  simpa [origin,List.count_eq_zero.mpr single] using counted.symm

/-- The next line starts behind the line feed that closes a line. -/
theorem start?_next {left first : List Char} (here : origin.afterAll left = ⟨start, ⟨line, 0⟩⟩)
    (single : '\n' ∉ first) (more : List Char) :
    (ofChars (left ++ (first ++ '\n' :: more))).start? (line + 1) =
      some (start + byteLength first + 1) := by
  have size : byteLength left = start := by rw [← offset_origin_afterAll,here]
  have next := startsAfter_getElem? 0 (left ++ first) more
  rw [count_feeds here single,List.append_assoc] at next
  have feed : '\n'.utf8Size = 1 := rfl
  simpa [start?,ofChars,size,feed,← Nat.add_assoc] using next

theorem start?_last {left first : List Char} (here : origin.afterAll left = ⟨start, ⟨line, 0⟩⟩)
    (single : '\n' ∉ first) : (ofChars (left ++ first)).start? (line + 1) = none := by
  refine Option.eq_none_iff_forall_ne_some.mpr fun next found => ?_
  -- the reader would be a line further on than there are line feeds
  obtain ⟨left', rest', whole, there, -⟩ := start?_spec found
  have feeds := count_feeds here single
  have counted := line_afterAll origin left'
  rw [there] at counted
  rw [whole,List.count_append] at feeds
  simp only [origin] at counted
  omega

/-- A line stops at the line feed that closes it, or with the text. -/
theorem stop?_of_start {left rest : List Char} (here : origin.afterAll left = ⟨start, ⟨line, 0⟩⟩)
    (found : (ofChars (left ++ rest)).start? line = some start) :
    (ofChars (left ++ rest)).stop? line =
      some (start + byteLength (rest.takeWhile (· ≠ '\n'))) := by
  obtain ⟨inside, -⟩ := List.getElem?_eq_some_iff.mp found
  have single := not_mem_takeWhile rest
  rw [stop?,if_pos inside]
  obtain last | ⟨more, closed⟩ := takeWhile_closed rest
  · have size : byteLength left = start := by rw [← offset_origin_afterAll,here]
    have next := start?_last here single
    rw [last,start?] at next
    rw [next,last,← size,← byteLength_append]
    rfl
  · have next := start?_next here single more
    rw [← closed,start?] at next
    rw [next]
    rfl

/-- In a line that exists, the offset of a position is that of the line's start and so many
characters more. -/
theorem offset?_of_start (found : (ofChars text).start? p.line = some start) :
    ∃ left rest, text = left ++ rest ∧ origin.afterAll left = ⟨start, ⟨p.line, 0⟩⟩ ∧
      (linesOf text)[p.line]? = some (rest.takeWhile (· ≠ '\n')) ∧
      (ofChars text).offset? text p =
        (bytesBefore (rest.takeWhile (· ≠ '\n')) p.column).map (start + ·) := by
  obtain ⟨left, rest, rfl, at_, line⟩ := start?_spec found
  have size : byteLength left = start := by rw [← offset_origin_afterAll,at_]
  refine ⟨left, rest, rfl, at_, line, ?_⟩
  have within := splitAtByte_append (rest.takeWhile (· ≠ '\n')) (rest.dropWhile (· ≠ '\n'))
  rw [List.takeWhile_append_dropWhile] at within
  rw [offset?,found,stop?_of_start at_ found]
  simp only [← size,Option.bind_eq_bind,Option.bind_some,splitAtByte_append,Nat.add_sub_cancel_left,
    within]
  cases bytesBefore (rest.takeWhile (· ≠ '\n')) p.column <;> rfl

/-- The offset of a position is where the reader counts that position. -/
theorem offset?_eq_some : (ofChars text).offset? text p = some o ↔
    ∃ xs ys, text = xs ++ ys ∧ origin.afterAll xs = ⟨o, p⟩ := by
  constructor
  · intro found
    cases starts : (ofChars text).start? p.line with
    | none => simp [offset?,starts] at found
    | some start =>
      obtain ⟨left, rest, rfl, at_, -, same⟩ := offset?_of_start starts
      rw [same] at found
      obtain ⟨n, bytes, rfl⟩ := Option.map_eq_some_iff.mp found
      obtain ⟨first, more, rfl, single, column, rfl⟩ := split_of_bytesBefore bytes
      refine ⟨left ++ first, more, by simp, ?_⟩
      rw [afterAll_append,at_,afterAll_of_single single,column,Nat.zero_add]
  · rintro ⟨xs, ys, rfl, at_⟩
    obtain ⟨head, tail, rfl, single, length, start⟩ := start?_afterAll xs ys
    have column : tail.length = p.column := by rw [length,at_]
    have position : (origin.afterAll (head ++ tail)).position = p := by rw [at_]
    rw [position] at start
    obtain ⟨left, rest, whole, here, -, same⟩ := offset?_of_start start
    -- the line starts where its first characters do
    have size : byteLength head = byteLength left := by rw [← offset_origin_afterAll left,here]
    obtain ⟨rfl, rfl⟩ := append_cancel ((List.append_assoc ..).symm.trans whole) size
    have plain : ∀ c ∈ tail, decide (c ≠ '\n') = true := fun c member =>
      decide_eq_true fun feed => single (feed ▸ member)
    have bytes : bytesBefore ((tail ++ ys).takeWhile (· ≠ '\n')) p.column =
        some (byteLength tail) := by
      rw [List.takeWhile_append_of_pos plain]
      exact bytesBefore_eq_some.mpr (by simp [← column])
    rw [same,bytes,Option.map_some,← byteLength_append,← offset_origin_afterAll,at_]

theorem offset?_isSome_iff : ((ofChars text).offset? text p).isSome = true ↔
    ∃ line, (linesOf text)[p.line]? = some line ∧ p.column ≤ line.length := by
  have count := length_startsAfter 0 text
  cases starts : (ofChars text).start? p.line with
  | none =>
    have past : (linesOf text).length ≤ p.line := by
      rw [← count]
      exact List.getElem?_eq_none_iff.mp starts
    simp [offset?,starts,List.getElem?_eq_none past]
  | some start =>
    obtain ⟨left, rest, -, -, line, same⟩ := offset?_of_start starts
    rw [same,line,Option.isSome_map,Option.isSome_iff_exists]
    simp [bytesBefore_eq_some]

/-- The offset that a text has for a position at one of its boundaries. -/
theorem offset?_position (boundary : OnBoundary text o) :
    (ofChars text).offset? text ((ofChars text).position text o) = some o := by
  obtain ⟨xs, ys, rfl, rfl⟩ := boundary
  rw [position_byteLength]
  exact offset?_eq_some.mpr ⟨xs, ys, rfl, by rw [← offset_origin_afterAll]⟩

theorem position_offset? (found : (ofChars text).offset? text p = some o) :
    OnBoundary text o ∧ (ofChars text).position text o = p := by
  obtain ⟨xs, ys, rfl, at_⟩ := offset?_eq_some.mp found
  have size : byteLength xs = o := by rw [← offset_origin_afterAll,at_]
  refine ⟨⟨xs, ys, rfl, size⟩, ?_⟩
  rw [← size,position_byteLength,at_]

theorem position_lt {o' : Nat} (first : OnBoundary text o) (second : OnBoundary text o')
    (less : o < o') : (ofChars text).position text o < (ofChars text).position text o' := by
  refine Position.lt_of_le_of_ne ?_ fun same => ?_
  · obtain ⟨xs, ys, rfl, rfl⟩ := first
    obtain ⟨xs', ys', whole, rfl⟩ := second
    rw [position_byteLength,whole,position_byteLength]
    refine position_le_of_offset_le whole ?_
    rw [offset_origin_afterAll,offset_origin_afterAll]
    exact Nat.le_of_lt less
  · have equal := offset?_position first
    rw [same,offset?_position second] at equal
    exact absurd (Option.some.inj equal) (Nat.ne_of_gt less)

end LineTable

structure Translates (text : List Char) : Prop where
  count : (LineTable.ofChars text).count = (linesOf text).length
  /-- A caret may stand at the end of a line, but not past it. -/
  valid : ∀ p, ((LineTable.ofChars text).offset? text p).isSome = true ↔
    p.line < (LineTable.ofChars text).count ∧
      ∀ line ∈ (linesOf text)[p.line]?, p.column ≤ line.length
  there : ∀ o, OnBoundary text o →
    (LineTable.ofChars text).offset? text ((LineTable.ofChars text).position text o) = some o
  back : ∀ p o, (LineTable.ofChars text).offset? text p = some o →
    OnBoundary text o ∧ (LineTable.ofChars text).position text o = p
  increasing : ∀ o o', OnBoundary text o → OnBoundary text o' → o < o' →
    (LineTable.ofChars text).position text o < (LineTable.ofChars text).position text o'

/-- The boundaries of every text and its valid positions are in one order. -/
theorem lineTable_translates (text : List Char) : Translates text where
  count := LineTable.count_ofChars text
  valid p := by
    rw [LineTable.offset?_isSome_iff,LineTable.count_ofChars]
    constructor
    · rintro ⟨line, found, column⟩
      refine ⟨(List.getElem?_eq_some_iff.mp found).1, fun other same => ?_⟩
      obtain rfl := Option.some.inj (found.symm.trans same)
      exact column
    · rintro ⟨inside, column⟩
      exact ⟨_, List.getElem?_eq_getElem inside, column _ (List.getElem?_eq_getElem inside)⟩
  there _ := LineTable.offset?_position
  back _ _ := LineTable.position_offset?
  increasing _ _ := LineTable.position_lt

end CodeCompletion
