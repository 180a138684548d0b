import CodeCompletion.Proofs.Token.Spelling
import Mathlib.Tactic.IntervalCases

/-! Names. Whether a text is a name is decided by reading it into tokens; it is one exactly when it is
spelled like a word and not reserved, since no other token, gap or first line begins like a word. -/
namespace CodeCompletion

open Place

section Starts

def otherStarts : List Char := "\"'`./\\#0123456789".toList

theorem otherStarts_not_start : ∀ c ∈ otherStarts, isNameStart c = false := by
  have all : (otherStarts.all fun c => !isNameStart c) = true := by decide +kernel
  intro c member
  simpa using List.all_eq_true.mp all c member

theorem mem_otherStarts_of_isDigit {c : Char} (digit : c.isDigit = true) : c ∈ otherStarts := by
  simp only [Char.isDigit,ge_iff_le,Bool.and_eq_true,decide_eq_true_eq] at digit
  have lower : 48 ≤ c.toNat := digit.1
  have upper : c.toNat ≤ 57 := digit.2
  rw [← Char.ofNat_toNat c]
  interval_cases c.toNat <;> decide

variable {c : Char}

/-- What begins a name begins nothing else. -/
theorem ne_of_isNameStart (starts : isNameStart c = true) {d : Char} (other : d ∈ otherStarts) :
    c ≠ d := by
  rintro rfl
  simp [otherStarts_not_start c other] at starts

theorem readToken_name (starts : isNameStart c = true) (start : Place) (last : Option Token)
    (rest : List Char) : readToken start last c rest =
      .ok ⟨.word (String.ofList (c :: rest.takeWhile isNameContinue)),
        (rest.takeWhile isNameContinue).length + 1⟩ := by
  have quote : ¬ (c = '"' ∨ c = '\'') := not_or.mpr
    ⟨ne_of_isNameStart starts (by decide), ne_of_isNameStart starts (by decide)⟩
  have tick : c ≠ '\x60' := ne_of_isNameStart starts (by decide)
  have number : ¬ (c.isDigit = true ∨ c = '.' ∧ rest.head?.any Char.isDigit = true) := by
    rintro (digit | ⟨point, -⟩)
    · exact ne_of_isNameStart starts (mem_otherStarts_of_isDigit digit) rfl
    · exact ne_of_isNameStart starts (by decide) point
  simp only [readToken,quote,tick,number,starts,if_true,if_false,
    List.takeWhile_cons_of_pos (isNameContinue_of_isNameStart starts),List.length_cons]

theorem gapLength_name (starts : isNameStart c = true) (here : Place) (rest : List Char) :
    gapLength here (c :: rest) = .ok 0 := by
  refine gapLength_solid (eq_false_of_ne_true fun gap => ?_) fun slash => ?_
  · have continues := isNameContinue_of_isNameStart starts
    simp [isNameContinue_of_blank (isGapChar_iff.mp gap)] at continues
  · exact absurd slash (ne_of_isNameStart starts (by decide))

theorem interpreterLine_name (starts : isNameStart c = true) (rest : List Char) :
    interpreterLine (c :: rest) = 0 := by
  unfold interpreterLine
  split
  next opening => exact absurd (List.cons.inj opening).1 (ne_of_isNameStart starts (by decide))
  next => rfl

end Starts

/-- A text that is spelled like a word has one lexeme before the end of input, which is all of it. -/
theorem lexChars_word {c : Char} {rest : List Char} (starts : isNameStart c = true)
    (continues : ∀ d ∈ rest, isNameContinue d = true) :
    lexChars (c :: rest) = .ok
      [⟨.word (String.ofList (c :: rest)), ⟨origin, origin.afterAll (c :: rest)⟩, false⟩,
        ⟨.endOfInput, ⟨origin.afterAll (c :: rest), origin.afterAll (c :: rest)⟩, false⟩] := by
  have length : gapLength origin ([] ++ c :: (rest ++ [])) = .ok 0 := gapLength_name starts _ _
  have read : readToken (origin.afterAll []) none c (rest ++ []) =
      .ok ⟨.word (String.ofList (c :: rest)), rest.length + 1⟩ := by
    rw [readToken_name starts,List.append_nil,List.takeWhile_eq_self_iff.mpr continues]
  have ended : gapLength (origin.afterAll ([] ++ c :: rest)) [] = .ok 0 := by rw [gapLength]
  have lexed := lexemes_of_lexed (.token length read (.done ended))
  rw [lexChars,interpreterLine_name starts]
  simpa using lexed

theorem isName_of_word {text : String} {c : Char} {rest : List Char} (spelled : text.toList = c :: rest)
    (starts : isNameStart c = true) (continues : ∀ d ∈ rest, isNameContinue d = true)
    (free : isReserved text = false) : isName text = true := by
  have lexed := lexChars_word starts continues
  rw [← spelled,String.ofList_toList] at lexed
  rw [isName,lexText,lexed]
  have stop : (origin.afterAll text.toList).offset = text.utf8ByteSize := by
    rw [offset_origin_afterAll,byteLength_toList]
  simp only [stop,free,decide_true,Bool.and_true,Bool.not_false]
  rfl

/-- A name is spelled like a word. -/
theorem word_of_isName {text : String} (h : isName text = true) :
    (∃ rest, WordSpelling text text.toList rest) ∧ isReserved text = false := by
  unfold isName at h
  split at h
  next word span newline finish lexed =>
    simp only [Bool.and_eq_true,decide_eq_true_eq,Bool.not_eq_true'] at h
    obtain ⟨⟨starts, stops⟩, free⟩ := h
    obtain ⟨before, chars, after, whole, placed⟩ :=
      placed_of_lexChars lexed List.mem_cons_self (by simp)
    have span : span = _ := placed.span
    rw [span,offset_origin_afterAll] at starts stops
    obtain rfl : before = [] := by
      by_contra nonempty
      exact absurd starts (Nat.ne_of_gt (byteLength_pos nonempty))
    obtain rfl : after = [] := by
      by_contra nonempty
      have := byteLength_pos nonempty
      rw [← byteLength_toList,whole,byteLength_append,byteLength_append,byteLength_append] at stops
      omega
    rw [List.nil_append,List.append_nil] at whole
    have spelled := placed.spelling.of_word
    obtain rfl : text = word := String.toList_inj.mp (whole.trans spelled.same)
    exact ⟨⟨[], whole ▸ spelled⟩, free⟩
  next => cases h

theorem isNameContinue_of_isName {name : String} (h : isName name = true) :
    ∀ c ∈ name.toList, isNameContinue c = true := by
  obtain ⟨⟨rest, spelled⟩, -⟩ := word_of_isName h
  exact spelled.continues

/-- A text is a name exactly when it begins with a character that can begin one, goes on with those
that can continue one, and is not reserved. -/
theorem isName_iff (text : String) : isName text = true ↔
    (∃ c rest, text.toList = c :: rest ∧ isNameStart c = true ∧
      ∀ d ∈ rest, isNameContinue d = true) ∧ text ∉ reservedWords := by
  have reserved : isReserved text = false ↔ text ∉ reservedWords := by simp [isReserved]
  rw [← reserved]
  constructor
  · intro named
    obtain ⟨⟨_, spelled⟩, free⟩ := word_of_isName named
    refine ⟨?_, free⟩
    cases chars : text.toList with
    | nil => simpa [chars] using spelled.starts
    | cons c rest =>
      rw [chars] at spelled
      exact ⟨c, rest, rfl, spelled.starts, (List.forall_mem_cons.mp spelled.continues).2⟩
  · rintro ⟨⟨c, rest, spelled, starts, continues⟩, free⟩
    exact isName_of_word spelled starts continues free

end CodeCompletion
