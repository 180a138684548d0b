import CodeCompletion.Proofs.Token.Tiling

/-! Spans made of whole lexemes. `Spans ls i j span` says that a span runs from the start of
the lexeme with index `i` to the stop of the one before `j`; how two such spans lie to each
other is then a matter of their indices. -/
namespace CodeCompletion

namespace Span

def Before (first second : Span) : Prop := first.stop.offset ≤ second.start.offset

def Encloses (outer inner : Span) : Prop :=
  outer.start.offset ≤ inner.start.offset ∧ inner.stop.offset ≤ outer.stop.offset

end Span

/-- What the parser relies on: only the last lexeme is the end of input, lexemes follow one
another, and an offset tells the place. -/
structure Stream (ls : List Lexeme) : Prop where
  ended : ∀ i l, ls[i]? = some l → l.token ≠ .endOfInput → ∃ next, ls[i + 1]? = some next
  proper : ∀ l ∈ ls, l.span.start.offset ≤ l.span.stop.offset
  ordered : ls.Pairwise fun l m => l.span.Before m.span
  settled : ∀ l ∈ ls, ∀ m ∈ ls, l.span.stop.offset = m.span.stop.offset →
    l.span.stop = m.span.stop

theorem Tiling.stream {before text : List Char} {ls : List Lexeme}
    (tiling : Tiling before text ls) : Stream ls where
  ended := by
    intro i l found token
    obtain ⟨tokens, stop, newline, rfl, -, -⟩ := tiling.last
    rw [List.getElem?_append] at found
    split at found
    · exact ⟨_, List.getElem?_eq_getElem (by simp; omega)⟩
    · cases List.mem_singleton.mp (List.mem_of_getElem? found)
      exact absurd rfl token
  proper := by
    intro l member
    by_cases token : l.token = .endOfInput
    · obtain ⟨tokens, stop, newline, rfl, -, kinds⟩ := tiling.last
      rcases List.mem_append.mp member with member | member
      · exact absurd token (kinds l member)
      · cases List.mem_singleton.mp member
        exact Nat.le_refl _
    · exact Nat.le_of_lt (tiling.nonempty l member token)
  ordered := tiling.ordered
  settled := by
    intro l member m member' equal
    obtain ⟨-, xs, ys, whole, here⟩ := tiling.places l member
    obtain ⟨-, xs', ys', whole', here'⟩ := tiling.places m member'
    rw [here,here',Place.offset_origin_afterAll,Place.offset_origin_afterAll] at equal
    obtain ⟨rfl, -⟩ := append_cancel (whole.symm.trans whole') equal
    rw [here,here']

/-- The span runs from the start of lexeme `i` to the stop of the lexeme before `j`. -/
structure Spans (ls : List Lexeme) (i j : Nat) (span : Span) : Prop where
  nonempty : i < j
  first : ∃ l, ls[i]? = some l ∧ l.span.start = span.start
  last : ∃ l, ls[j - 1]? = some l ∧ l.span.stop = span.stop

theorem spans_lexeme {ls : List Lexeme} {i : Nat} {l : Lexeme} (found : ls[i]? = some l) :
    Spans ls i (i + 1) l.span :=
  ⟨Nat.lt_succ_self i, ⟨l, found, rfl⟩, ⟨l, found, rfl⟩⟩

namespace Stream

variable {ls : List Lexeme} {i j k m : Nat} {x y : Span}

theorem before_of_lt (stream : Stream ls) {l l' : Lexeme} (found : ls[i]? = some l)
    (found' : ls[j]? = some l') (lt : i < j) : l.span.Before l'.span := by
  obtain ⟨inside, rfl⟩ := List.getElem?_eq_some_iff.mp found
  obtain ⟨inside', rfl⟩ := List.getElem?_eq_some_iff.mp found'
  exact List.pairwise_iff_getElem.mp stream.ordered i j inside inside' lt

theorem start_le (stream : Stream ls) {l l' : Lexeme} (found : ls[i]? = some l)
    (found' : ls[j]? = some l') (le : i ≤ j) :
    l.span.start.offset ≤ l'.span.start.offset := by
  rcases Nat.eq_or_lt_of_le le with rfl | lt
  · cases found.symm.trans found'
    exact Nat.le_refl _
  · have := stream.proper l (List.mem_of_getElem? found)
    exact this.trans (stream.before_of_lt found found' lt)

theorem stop_le (stream : Stream ls) {l l' : Lexeme} (found : ls[i]? = some l)
    (found' : ls[j]? = some l') (le : i ≤ j) :
    l.span.stop.offset ≤ l'.span.stop.offset := by
  rcases Nat.eq_or_lt_of_le le with rfl | lt
  · cases found.symm.trans found'
    exact Nat.le_refl _
  · have := stream.proper l' (List.mem_of_getElem? found')
    exact Nat.le_trans (stream.before_of_lt found found' lt) this

theorem start_le_stop (stream : Stream ls) (h : Spans ls i j x) :
    x.start.offset ≤ x.stop.offset := by
  obtain ⟨lt, ⟨l, found, start⟩, ⟨l', found', stop⟩⟩ := h
  rw [← start,← stop]
  exact (stream.proper l (List.mem_of_getElem? found)).trans
    (stream.stop_le found found' (by omega))

theorem before (stream : Stream ls) (hx : Spans ls i j x) (hy : Spans ls k m y)
    (le : j ≤ k) : x.Before y := by
  obtain ⟨lt, -, ⟨l, found, stop⟩⟩ := hx
  obtain ⟨-, ⟨l', found', start⟩, -⟩ := hy
  rw [Span.Before,← stop,← start]
  exact stream.before_of_lt found found' (by omega)

theorem encloses (stream : Stream ls) (hx : Spans ls i j x) (hy : Spans ls k m y)
    (starts : i ≤ k) (stops : m ≤ j) : x.Encloses y := by
  obtain ⟨lt, ⟨a, foundA, startA⟩, ⟨b, foundB, stopB⟩⟩ := hx
  obtain ⟨lt', ⟨c, foundC, startC⟩, ⟨d, foundD, stopD⟩⟩ := hy
  rw [Span.Encloses,← startA,← stopB,← startC,← stopD]
  exact ⟨stream.start_le foundA foundC starts, stream.stop_le foundD foundB (by omega)⟩

/-- Covering two spans of lexemes reaches from the first lexeme to the last one. -/
theorem cover (stream : Stream ls) (hx : Spans ls i j x) (hy : Spans ls k m y)
    (starts : i ≤ k) (stops : j ≤ m) : Spans ls i m (x.cover y) := by
  obtain ⟨lt, ⟨a, foundA, startA⟩, ⟨b, foundB, stopB⟩⟩ := hx
  obtain ⟨lt', ⟨c, foundC, startC⟩, ⟨d, foundD, stopD⟩⟩ := hy
  refine ⟨by omega, ⟨a, foundA, ?_⟩, ⟨d, foundD, ?_⟩⟩
  · have := stream.start_le foundA foundC starts
    rw [startA,startC] at this
    rw [startA,Span.cover,if_neg (by omega)]
  · have := stream.stop_le foundB foundD (by omega)
    rw [stopB,stopD] at this
    change d.span.stop = if x.stop.offset < y.stop.offset then y.stop else x.stop
    split
    · exact stopD
    · rw [← stopB]
      refine stream.settled d (List.mem_of_getElem? foundD) b (List.mem_of_getElem? foundB) ?_
      rw [stopB,stopD]
      omega

end Stream

/-- What is in a span of lexemes is in all wider ones. -/
theorem Tiling.contains {before text : List Char} {ls : List Lexeme} {i j k m : Nat}
    {outer inner : Span} {p : Position} (tiling : Tiling before text ls) (wide : Spans ls i j outer)
    (narrow : Spans ls k m inner) (starts : i ≤ k) (stops : m ≤ j) (inside : inner.contains p) :
    outer.contains p := by
  obtain ⟨lower, upper⟩ := tiling.stream.encloses wide narrow starts stops
  obtain ⟨-, ⟨a, foundA, startA⟩, ⟨b, foundB, stopB⟩⟩ := wide
  obtain ⟨-, ⟨c, foundC, startC⟩, ⟨d, foundD, stopD⟩⟩ := narrow
  obtain ⟨⟨xs, ys, whole, start⟩, -⟩ := tiling.places a (List.mem_of_getElem? foundA)
  obtain ⟨⟨xs', ys', whole', start'⟩, -⟩ := tiling.places c (List.mem_of_getElem? foundC)
  obtain ⟨-, ⟨zs, us, rest, stop⟩⟩ := tiling.places b (List.mem_of_getElem? foundB)
  obtain ⟨-, ⟨zs', us', rest', stop'⟩⟩ := tiling.places d (List.mem_of_getElem? foundD)
  rw [← startA,← startC,start,start'] at lower
  rw [← stopB,← stopD,stop,stop'] at upper
  have first := Place.position_le_of_offset_le (whole.symm.trans whole') lower
  have last := Place.position_le_of_offset_le (rest'.symm.trans rest) upper
  simp only [Span.contains,decide_eq_true_eq,← startA,← stopB,← startC,← stopD,start,start',stop,
    stop'] at inside ⊢
  exact ⟨Position.le_trans first inside.1, Position.le_trans inside.2 last⟩

end CodeCompletion
