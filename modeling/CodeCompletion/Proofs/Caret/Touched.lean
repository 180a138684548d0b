import CodeCompletion.Caret.Context
import CodeCompletion.Proofs.Token.Tiling

/-! The token that a caret touches. The search halves the lexemes, which is sound because they lie
in the text one after the other; it finds the one token that starts before an offset and ends there
or later, and nothing in a gap or at the end of input. -/
namespace CodeCompletion

section Search

variable {α : Type} {p : α → Bool} {xs : Array α} {low high : Nat}

/-- Where `p` holds up to an index and fails from there on, a search between bounds of this index
finds it. -/
theorem partitionPoint_eq {cut : Nat} (parted : ∀ i x, xs[i]? = some x → (p x = true ↔ i < cut))
    (above : low ≤ cut) (below : cut ≤ high) (inside : high ≤ xs.size) :
    partitionPoint p xs low high = cut := by
  fun_induction partitionPoint p xs low high with
  | case1 low high lt middle holds ih =>
    obtain ⟨x, found, px⟩ := (Option.any_eq_true _ _).mp holds
    have := (parted middle x found).mp px
    exact ih (by omega) below inside
  | case2 low high lt middle fails ih =>
    have found : xs[middle]? = some xs[middle] := Array.getElem?_eq_getElem (by omega)
    have : ¬ middle < cut := fun before =>
      fails ((Option.any_eq_true _ _).mpr ⟨_, found, (parted middle _ found).mpr before⟩)
    exact ih above (by omega) (by omega)
  | case3 low high ge => omega

/-- In whatever order the elements are, `p` fails where the search stops. -/
theorem not_at_partitionPoint (le : low ≤ high) (end_ : ∀ x ∈ xs[high]?, p x = false) :
    ∀ x ∈ xs[partitionPoint p xs low high]?, p x = false := by
  fun_induction partitionPoint p xs low high with
  | case1 low high lt middle holds ih => exact ih (by omega) end_
  | case2 low high lt middle fails ih =>
    refine ih (by omega) fun x found => ?_
    exact eq_false_of_ne_true fun px => fails ((Option.any_eq_true _ _).mpr ⟨x, found, px⟩)
  | case3 low high ge =>
    obtain rfl : low = high := by omega
    exact end_

end Search

def Touches (ls : List Lexeme) (offset index : Nat) : Prop :=
  ∃ l, ls[index]? = some l ∧ l.token ≠ .endOfInput ∧
    l.span.start.offset < offset ∧ offset ≤ l.span.stop.offset

variable {ls : List Lexeme} {offset index : Nat}

theorem touches_of_touchedToken? (touched : touchedToken? ls offset = some index) :
    Touches ls offset index := by
  obtain ⟨l, found, touched⟩ := Option.bind_eq_some_iff.mp touched
  split at touched
  next => cases touched
  next starts =>
    cases touched
    have stops : ∀ l ∈ ls.toArray[partitionPoint (fun l : Lexeme => l.span.stop.offset < offset)
        ls.toArray 0 ls.length]?, decide (l.span.stop.offset < offset) = false :=
      not_at_partitionPoint (Nat.zero_le _) (by simp)
    have stops := stops l (by simpa using found)
    simp only [decide_eq_false_iff_not] at stops
    exact ⟨l, found, by tauto, by omega, by omega⟩

theorem touchedToken?_eq_some {l : Lexeme} (touched : touchedToken? ls offset = some index)
    (found : ls[index]? = some l) :
    l ∈ ls ∧ l.span.start.offset < offset ∧ offset ≤ l.span.stop.offset := by
  obtain ⟨l', found', -, starts, stops⟩ := touches_of_touchedToken? touched
  obtain rfl : l' = l := Option.some.inj (found'.symm.trans found)
  exact ⟨List.mem_of_getElem? found, starts, stops⟩

/-- A token that is touched parts the lexemes: those before it end before the offset, and those
behind it do not. -/
theorem Touches.parts (touches : Touches ls offset index)
    (ordered : ls.Pairwise fun a b => a.span.stop.offset ≤ b.span.start.offset)
    (forward : ∀ l ∈ ls, l.span.start.offset ≤ l.span.stop.offset) {i : Nat} {l : Lexeme}
    (found : ls[i]? = some l) : l.span.stop.offset < offset ↔ i < index := by
  obtain ⟨touched, here, -, starts, stops⟩ := touches
  have apart {j k : Nat} {a b : Lexeme} (first : ls[j]? = some a) (second : ls[k]? = some b)
      (lt : j < k) : a.span.stop.offset ≤ b.span.start.offset := by
    obtain ⟨_, rfl⟩ := List.getElem?_eq_some_iff.mp first
    obtain ⟨_, rfl⟩ := List.getElem?_eq_some_iff.mp second
    exact List.pairwise_iff_getElem.mp ordered j k _ _ lt
  rcases Nat.lt_trichotomy i index with before | rfl | behind
  · have := apart found here before
    omega
  · obtain rfl : touched = l := Option.some.inj (here.symm.trans found)
    omega
  · have := apart here found behind
    have := forward l (List.mem_of_getElem? found)
    omega

theorem touchedToken?_of_touches (touches : Touches ls offset index)
    (ordered : ls.Pairwise fun a b => a.span.stop.offset ≤ b.span.start.offset)
    (forward : ∀ l ∈ ls, l.span.start.offset ≤ l.span.stop.offset) :
    touchedToken? ls offset = some index := by
  have inside : index ≤ ls.length := by
    obtain ⟨_, found, -⟩ := touches
    exact Nat.le_of_lt (List.getElem?_eq_some_iff.mp found).1
  have point : partitionPoint (fun l : Lexeme => l.span.stop.offset < offset) ls.toArray 0
      ls.length = index := by
    refine partitionPoint_eq (fun i l found => ?_) (Nat.zero_le _) inside (by simp)
    simpa using touches.parts ordered forward (by simpa using found)
  obtain ⟨l, found, kind, starts, -⟩ := touches
  simp only [touchedToken?,point,found,Option.bind_eq_bind,Option.bind_some]
  rw [if_neg]
  rintro (ended | late)
  · exact kind ended
  · omega

/-- In every text that can be read, the search finds exactly the token that starts before an offset
and ends there or later, and there is at most one. -/
theorem touchedToken?_exact (source : String) (ls : List Lexeme) (lexed : lexText source = .ok ls)
    (offset : Nat) :
    (∀ index, touchedToken? ls offset = some index ↔ Touches ls offset index) ∧
    ∀ index index', Touches ls offset index → Touches ls offset index' → index = index' := by
  obtain ⟨line, rest, -, -, tiling⟩ := tiling_of_lexChars lexed
  have forward : ∀ l ∈ ls, l.span.start.offset ≤ l.span.stop.offset := by
    intro l member
    obtain ⟨tokens, stop, newline, rfl, -, kinds⟩ := tiling.last
    rcases List.mem_append.mp member with token | ended
    · exact Nat.le_of_lt (tiling.nonempty l member (kinds l token))
    · cases List.mem_singleton.mp ended
      exact Nat.le_refl _
  have found {index : Nat} (touches : Touches ls offset index) : touchedToken? ls offset = some index :=
    touchedToken?_of_touches touches tiling.ordered forward
  refine ⟨fun index => ⟨touches_of_touchedToken?, found⟩, fun index index' first second => ?_⟩
  exact Option.some.inj ((found first).symm.trans (found second))

/-- Of two tokens that meet at an offset it touches the first, and between two tokens it touches
none. -/
theorem touchedToken?_exact_met : ∃ ls, lexText "a.b  c" = .ok ls ∧ Touches ls 1 0 ∧
    touchedToken? ls 1 = some 0 ∧ touchedToken? ls 2 = some 1 ∧ ∀ index, ¬ Touches ls 4 index := by
  let ls : List Lexeme :=
    [⟨.word "a", ⟨⟨0, ⟨0, 0⟩⟩, ⟨1, ⟨0, 1⟩⟩⟩, false⟩,
      ⟨.dot, ⟨⟨1, ⟨0, 1⟩⟩, ⟨2, ⟨0, 2⟩⟩⟩, false⟩,
      ⟨.word "b", ⟨⟨2, ⟨0, 2⟩⟩, ⟨3, ⟨0, 3⟩⟩⟩, false⟩,
      ⟨.word "c", ⟨⟨5, ⟨0, 5⟩⟩, ⟨6, ⟨0, 6⟩⟩⟩, false⟩,
      ⟨.endOfInput, ⟨⟨6, ⟨0, 6⟩⟩, ⟨6, ⟨0, 6⟩⟩⟩, false⟩]
  have lexed : lexText "a.b  c" = .ok ls := by decide +kernel
  have first : Touches ls 1 0 := ⟨_, rfl, by decide, by decide, by decide⟩
  have second : Touches ls 2 1 := ⟨_, rfl, by decide, by decide, by decide⟩
  refine ⟨ls, lexed, first, ((touchedToken?_exact _ _ lexed 1).1 0).mpr first,
    ((touchedToken?_exact _ _ lexed 2).1 1).mpr second, fun index touches => ?_⟩
  have found := ((touchedToken?_exact _ _ lexed 4).1 index).mpr touches
  have none : touchedToken? ls 4 = none := by decide +kernel
  cases none.symm.trans found

end CodeCompletion
