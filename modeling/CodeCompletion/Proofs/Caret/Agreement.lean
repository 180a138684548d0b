import CodeCompletion.Caret.Context
import CodeCompletion.Proofs.Caret.Scan
import CodeCompletion.Proofs.Caret.Touched
import Mathlib.Data.List.Pairwise

/-! The slice around a caret has the lexemes of the whole text, where the scan of regions and the
reader of tokens take every literal up to its end for the same. An intent is then at a name or a
dot of the whole text, and at no other token. What stands behind the slice does not matter. -/
namespace CodeCompletion

open Place RegionState

/-- A text of which the scan of regions divides the first characters into code, literals and
comments as the reader of tokens does. Each condition leaves out one way in which the two come
apart. -/
@[mk_iff] structure Legible (text : List Char) (ls : List Lexeme) (extent : Nat) : Prop where
  /-- A first line that the reader skips leaves the scan in code, as it does without a quote, a
  slash and a backtick. -/
  marked : (initial.scan (interpreterLine text) text).At .code []
  unbroken : Unbroken extent text
  /-- The scan takes a slash for the start of a regular expression where one starts. -/
  slashes : ∀ l ∈ ls, ∀ i < extent, byteLength (text.take i) = l.span.start.offset →
    text[i]? = some '/' → (initial.scan i text).allowsRegex = l.token.isRegex
  /-- In the substitutions of a template no line ends and no slash opens anything, other
  literals apart. -/
  substitutions : ∀ l ∈ ls, l.token.isTemplate = true → ∀ i < extent,
    l.span.start.offset ≤ byteLength (text.take i) → byteLength (text.take i) < l.span.stop.offset →
    initial.CalmAt text i
  /-- A slice starts with a line, where a slash is no division. -/
  divisions : ∀ l ∈ ls, l.newlineBefore = true →
    l.span.start.offset < byteLength (text.take extent) → l.token ≠ .op "/" ∧ l.token ≠ .op "/="

instance (text : List Char) (ls : List Lexeme) (extent : Nat) : Decidable (Legible text ls extent) :=
  haveI : Decidable (Unbroken extent text) := inferInstanceAs (Decidable (¬ _ <:+: text.take extent))
  decidable_of_iff _ (legible_iff text ls extent).symm

/-- After no token, a slash is what it is after a token that leaves it no division. -/
theorem readToken_none {start : Place} {last : Option Token} {c : Char} {rest : List Char}
    {r : Reading Token} (read : readToken start last c rest = .ok r)
    (noDivision : r.value ≠ .op "/" ∧ r.value ≠ .op "/=") :
    readToken start none c rest = .ok r := by
  by_cases slash : c = '/'
  · have allowed : Token.allowsRegex last = true := by
      subst slash
      cases shape_of_readToken read with
      | string quote => simp at quote
      | regex allowed => exact allowed
      | division => exact absurd rfl noDivision.1
      | divisionAssignment => exact absurd rfl noDivision.2
      | plain plain => exact absurd plain (by decide)
    have alike : Token.allowsRegex none = Token.allowsRegex last := allowed.symm
    have same := (readToken_append (Or.inl rfl) start read alike).2
    rwa [List.append_nil] at same
  · simpa only [readToken,slash,if_false] using read

/-- The reader can start anew in a gap, if no division comes after it. -/
theorem Lexed.restart {here : Place} {last : Option Token} {skipped gap chars rest : List Char}
    {c : Char} {token : Token} {ls : List Lexeme} (isGap : Gap (c :: (chars ++ rest)) gap)
    (solid : Solid (c :: (chars ++ rest)))
    (read : readToken (here.afterAll (skipped ++ gap)) last c (chars ++ rest) =
      .ok ⟨token, chars.length + 1⟩)
    (noDivision : token ≠ .op "/" ∧ token ≠ .op "/=")
    (later : Lexed (here.afterAll (skipped ++ gap ++ c :: chars)) (some token) rest ls) :
    Lexed (here.afterAll skipped) none (gap ++ c :: (chars ++ rest))
      (⟨token, ⟨here.afterAll (skipped ++ gap), here.afterAll (skipped ++ gap ++ c :: chars)⟩,
        gap.contains '\n'⟩ :: ls) := by
  rw [List.append_assoc] at later ⊢
  rw [afterAll_append] at read later
  rw [afterAll_append here skipped gap,afterAll_append here skipped (gap ++ c :: chars)]
  exact .token (gapLength_of_gap isGap solid _) (readToken_none read noDivision) later

/-- The reader can start anew at a place, and in some text that goes on for `extent` characters at
least it finds only lexemes of the whole text. -/
def Resumes (all : List Lexeme) (here : Place) (text : List Char) (extent : Nat) : Prop :=
  ∃ known rest ls, text = known ++ rest ∧ extent ≤ known.length ∧ Lexed here none known ls ∧
    ∀ l ∈ ls, l.token = .endOfInput ∨ ∃ k ∈ all, k.token = l.token ∧ k.span = l.span

/-- A gap is read on its own, whatever comes after it. -/
theorem resumes_gap {all : List Lexeme} {here : Place} {gap rest : List Char} {extent : Nat}
    (isGap : Gap rest gap) (enough : extent ≤ gap.length) : Resumes all here (gap ++ rest) extent := by
  have length := gapLength_of_gap isGap.alone trivial here
  rw [List.append_nil] at length
  refine ⟨gap, rest, _, rfl, enough, .done length, ?_⟩
  intro l member
  obtain rfl := List.mem_singleton.mp member
  exact Or.inl rfl

namespace Legible

variable {whole : List Char} {all : List Lexeme} {extent : Nat}

/-- The scan crosses the tokens of a legible text. -/
theorem leads (legible : Legible whole all extent) {before chars rest : List Char} {c : Char}
    {last : Option Token} {l : Lexeme} (cut : whole = before ++ c :: (chars ++ rest))
    (member : l ∈ all) (start : l.span.start = origin.afterAll before)
    (stop : l.span.stop = origin.afterAll (before ++ c :: chars)) (within : before.length < extent)
    (shape : TokenShape last (c :: (chars ++ rest)) ⟨l.token, chars.length + 1⟩)
    (solid : Solid (c :: (chars ++ rest)))
    (code : (initial.scan before.length whole).At .code []) :
    (initial.scan before.length whole).Leads (extent - before.length) (chars.length + 1)
      (c :: (chars ++ rest)) (At · .code []) := by
  have drops : whole.drop before.length = c :: (chars ++ rest) := by rw [cut,List.drop_left]
  have unbroken := legible.unbroken.drop before.length
  rw [drops] at unbroken
  refine leads_token shape solid unbroken (fun template i lt inside => ?_) (fun slash => ?_) code
  · have taken : whole.take (before.length + i) = before ++ (c :: chars).take i := by
      rw [cut,List.take_length_add_append,← List.cons_append,
        List.take_append_of_le_length (by simpa using Nat.le_of_lt lt)]
    have shorter : byteLength ((c :: chars).take i) < byteLength (c :: chars) := by
      have left : 0 < byteLength ((c :: chars).drop i) :=
        byteLength_pos (by rw [ne_eq,List.drop_eq_nil_iff]; simpa using lt)
      have both := byteLength_append ((c :: chars).take i) ((c :: chars).drop i)
      rw [List.take_append_drop] at both
      omega
    have calm := legible.substitutions l member template (before.length + i) (by omega)
    rw [taken,start,stop,offset_origin_afterAll,offset_origin_afterAll,byteLength_append,
      byteLength_append,calmAt_add,drops] at calm
    exact calm (by omega) (by omega)
  · refine legible.slashes l member before.length within ?_ ?_
    · rw [cut,List.take_left,start,offset_origin_afterAll]
    · rw [← drops] at slash
      rwa [List.head?_drop] at slash

/-- No division comes first on a line that a legible text begins. -/
theorem noDivision (legible : Legible whole all extent) {before text : List Char} {l : Lexeme}
    (cut : whole = before ++ text) (member : l ∈ all) (start : l.span.start = origin.afterAll before)
    (newline : l.newlineBefore = true) (within : before.length < extent) (nonempty : text ≠ []) :
    l.token ≠ .op "/" ∧ l.token ≠ .op "/=" := by
  obtain ⟨n, rfl⟩ := Nat.exists_eq_add_of_lt within
  have more : 0 < byteLength (text.take (n + 1)) := byteLength_pos (by simpa using nonempty)
  refine legible.divisions l member newline ?_
  rw [start,offset_origin_afterAll,cut,Nat.add_assoc,List.take_length_add_append,byteLength_append]
  omega

/-- Where a line starts in code, the reader is between two tokens. The induction goes along
the tokens, and the scan is in code, or at the end of a line comment, between them. -/
theorem resumes (legible : Legible whole all extent) (fits : extent ≤ whole.length)
    {before text : List Char} {here : Place} {last : Option Token} {ls : List Lexeme}
    (h : Lexed here last text ls) (cut : whole = before ++ text)
    (place : here = origin.afterAll before) (among : ∀ l ∈ ls, l ∈ all)
    (between : (initial.scan before.length whole).Between text)
    {i : Nat} (within : before.length + i < extent) (feed : text[i]? = some '\n')
    (code : ((initial.scan before.length whole).scan (i + 1) text).region = .code) :
    Resumes all (here.afterAll (text.take (i + 1))) (text.drop (i + 1))
      (extent - (before.length + (i + 1))) := by
  have size : whole.length = before.length + text.length := by rw [cut,List.length_append]
  induction h generalizing before i with
  | @done here last gap length =>
    obtain ⟨lt, -⟩ := List.getElem?_eq_some_iff.mp feed
    rw [← List.append_nil gap] at length between feed code
    rw [List.length_append,List.length_nil,Nat.add_zero] at length
    obtain ⟨isGap, -⟩ := gapLength_iff.mp length
    have left := (crossesGap isGap between).cuts i lt feed code
    rw [← List.append_nil (gap.drop (i + 1))]
    apply resumes_gap left
    rw [List.length_drop]
    omega
  | @token here last gap chars rest c token ls length read later ih =>
    obtain ⟨isGap, solid⟩ := gapLength_iff.mp length
    have crosses := crossesGap isGap between
    have member := among _ List.mem_cons_self
    have cut' : whole = (before ++ gap) ++ c :: (chars ++ rest) := by rw [cut,List.append_assoc]
    by_cases inGap : i < gap.length
    · -- The line starts in the gap before the token, so the token comes after a line feed.
      have left := crosses.cuts i inGap feed code
      have feeds : gap.contains '\n' = true := by
        rw [List.getElem?_append_left inGap] at feed
        simpa using List.mem_of_getElem? feed
      rw [List.take_append_of_le_length inGap,List.drop_append_of_le_length inGap]
      by_cases near : (before ++ gap).length < extent
      · have noDivision := legible.noDivision cut' member (by simp only [place,afterAll_append])
          feeds near (by simp)
        rw [← List.take_append_drop (i + 1) gap] at read later member
        refine ⟨_, [], _, (List.append_nil _).symm, ?_, Lexed.restart left solid read noDivision later, ?_⟩
        · simp only [List.length_append,List.length_drop] at size ⊢
          omega
        · intro l found
          right
          obtain rfl | found := List.mem_cons.mp found
          · exact ⟨_, member, rfl, rfl⟩
          · exact ⟨l, among l (List.mem_cons_of_mem _ found), rfl, rfl⟩
      · -- The token comes too late to matter, and the gap alone is read.
        apply resumes_gap left
        simp only [List.length_append,List.length_drop] at near ⊢
        omega
    · obtain ⟨j, rfl⟩ := Nat.exists_eq_add_of_le (Nat.le_of_not_lt inGap)
      have code' := crosses.arrives.code_of_solid solid (by simp)
      rw [← scan_split cut] at code'
      have first := legible.leads cut' member (by simp only [place,afterAll_append])
        (by simp only [place,afterAll_append]) (by simp only [List.length_append]; omega)
        (shape_of_readToken read) solid code'
      rw [Nat.add_assoc,scan_add,List.drop_left,← scan_split cut] at code
      rw [List.getElem?_append_right (by omega),Nat.add_sub_cancel_left] at feed
      obtain ⟨k, rfl, feed, code⟩ := first.past (by simp only [List.length_append]; omega) feed code
      rw [List.drop_succ_cons,List.drop_left] at feed code
      have cut'' : whole = (before ++ gap ++ c :: chars) ++ rest := by simp [cut]
      have arrives := first.arrives (by simp only [List.length_append]; omega)
      rw [← List.length_cons (a := c),← List.cons_append,← scan_split (by simp [cut])] at arrives code
      have index : gap.length + (chars.length + 1 + k) + 1 = (gap ++ c :: chars).length + (k + 1) := by
        simp only [List.length_append,List.length_cons]
        omega
      have count : before.length + (gap.length + (chars.length + 1 + k) + 1) =
          (before ++ gap ++ c :: chars).length + (k + 1) := by
        simp only [List.length_append,List.length_cons]
        omega
      have resumed := ih cut'' (by rw [place,← afterAll_append,List.append_assoc])
        (fun l found => among l (List.mem_cons_of_mem _ found)) (Or.inl arrives) (by omega) feed code
        (by rw [cut'',List.length_append])
      have text : gap ++ c :: (chars ++ rest) = (gap ++ c :: chars) ++ rest := by simp
      rw [← afterAll_append] at resumed
      rwa [count,text,index,List.take_length_add_append,List.drop_length_add_append]

end Legible

section Slices

variable {before after left right : List Char}

/-- The characters before the caret are counted from the start of the text or from a line that
starts in code. -/
theorem since_scanBefore (after before : List Char) (s : RegionState) (since : Nat) :
    (scanBefore after s since before).2 = since + before.length ∨
    ∃ i, before[i]? = some '\n' ∧ (s.scan (i + 1) (before ++ after)).region = .code ∧
      (scanBefore after s since before).2 = before.length - (i + 1) := by
  induction before generalizing s since with
  | nil => exact Or.inl rfl
  | cons c rest ih =>
    rw [scanBefore,← List.head?_append]
    simp only [List.length_cons,List.cons_append]
    split
    next starts =>
      right
      obtain count | ⟨i, feed, code, count⟩ := ih (s.read c (rest ++ after).head?) 0
      · exact ⟨0, by simp [starts.1], starts.2, by omega⟩
      · exact ⟨i + 1, feed, code, by omega⟩
    next =>
      obtain count | ⟨i, feed, code, count⟩ := ih (s.read c (rest ++ after).head?) (since + 1)
      · exact Or.inl (by omega)
      · exact Or.inr ⟨i + 1, feed, code, by omega⟩

/-- The slice goes on to the end of the caret's line at least. -/
theorem le_sliceExtent (s : RegionState) {line : List Char} (rest : List Char)
    (single : '\n' ∉ line) : line.length ≤ sliceExtent s true (line ++ rest) := by
  induction line generalizing s with
  | nil => exact Nat.zero_le _
  | cons c line ih =>
    obtain ⟨first, later⟩ := not_or.mp (mt List.mem_cons.mpr single)
    have more := ih (s.read c (line ++ rest).head?) later
    have inLine : (true && decide (c ≠ '\n')) = true := by simpa using Ne.symm first
    simp only [List.cons_append,sliceExtent,inLine,List.length_cons]
    simp only [Bool.not_true,Bool.false_and,Bool.false_eq_true,if_false]
    omega

/-- A slice starts with the text or with a line that starts in code, and it has the line of the
caret to its end. -/
theorem surroundingSlice_eq_some (h : surroundingSlice before after = some (left, right)) :
    ∃ skipped line tail rest, before = skipped ++ left ∧ after = line ++ rest ∧
      right = line ++ tail ∧ tail <+: rest ∧ AtLineEnd rest ∧
      (skipped = [] ∨ ∃ i, skipped.length = i + 1 ∧ before[i]? = some '\n' ∧
        (initial.scan (i + 1) (before ++ after)).region = .code) := by
  obtain ⟨line, rest, rfl, single, ends⟩ : ∃ line rest, after = line ++ rest ∧ '\n' ∉ line ∧
      AtLineEnd rest :=
    ⟨_, _, (List.take_append_drop _ after).symm, (lineRun after).1, (lineRun after).2⟩
  have extent := le_sliceExtent (scanBefore (line ++ rest) initial 0 before).1 rest single
  have since := since_scanBefore (line ++ rest) before initial 0
  simp only [surroundingSlice] at h
  generalize scanBefore (line ++ rest) initial 0 before = scanned at h extent since
  split at h
  next =>
    obtain ⟨rfl, rfl⟩ := Prod.mk.inj (Option.some.inj h)
    refine ⟨before.take (before.length - scanned.2), line,
      rest.take (sliceExtent scanned.1 true (line ++ rest) - line.length), rest,
      (List.take_append_drop _ before).symm, rfl, ?_, List.take_prefix _ _, ends, ?_⟩
    · rw [List.take_append,List.take_of_length_le extent]
    · obtain count | ⟨i, feed, code, count⟩ := since
      · left
        rw [count,Nat.zero_add,Nat.sub_self,List.take_zero]
      · obtain ⟨lt, -⟩ := List.getElem?_eq_some_iff.mp feed
        right
        refine ⟨i, ?_, feed, code⟩
        rw [List.length_take,count]
        omega
  next => cases h

theorem splitAtByte_eq_some {text : List Char} {offset : Nat}
    (h : splitAtByte text offset = some (left, right)) :
    text = left ++ right ∧ byteLength left = offset := by
  fun_induction splitAtByte text offset generalizing left with
  | case1 =>
    cases h
    exact ⟨rfl, rfl⟩
  | case2 => cases h
  | case3 c cs n fits ih =>
    obtain ⟨⟨left, right⟩, split, same⟩ := Option.map_eq_some_iff.mp h
    cases same
    obtain ⟨rfl, size⟩ := ih split
    exact ⟨rfl, by rw [byteLength_cons,size]; omega⟩
  | case4 => cases h

theorem isDot_iff {token : Token} : token.isDot = true ↔ token = .dot ∨ token = .questionDot := by
  cases token <;> simp [Token.isDot]

/-- An intent is at a dot, or in a word of which a part stands before the offset. -/
theorem intentAmong_cases {ls : List Lexeme} {offset : Nat} {intent : Intent}
    (h : intentAmong ls offset = some intent) : ∃ index l, ls[index]? = some l ∧ l ∈ ls ∧
      l.span.start.offset < offset ∧ offset ≤ l.span.stop.offset ∧
      (l.token.isDot = true ∧
          intentAtDot ((ls.take index).reverse.map (·.token)) = some intent ∨
        ∃ name typed rest, l.token = .word name ∧ name.toList = typed ++ rest ∧
          l.span.start.offset + byteLength typed = offset ∧
          intentInWord ((ls.take index).reverse.map (·.token)) (String.ofList typed) =
            some intent) := by
  obtain ⟨index, touched, h⟩ := Option.bind_eq_some_iff.mp h
  obtain ⟨l, found, h⟩ := Option.bind_eq_some_iff.mp h
  obtain ⟨member, starts, stops⟩ := touchedToken?_eq_some touched found
  refine ⟨index, l, found, member, starts, stops, ?_⟩
  split at h
  next token => exact Or.inl ⟨by rw [token]; rfl, h⟩
  next token => exact Or.inl ⟨by rw [token]; rfl, h⟩
  next name token =>
    obtain ⟨⟨typed, rest⟩, split, h⟩ := Option.bind_eq_some_iff.mp h
    obtain ⟨whole, size⟩ := splitAtByte_eq_some split
    exact Or.inr ⟨name, typed, rest, token, whole, by omega, h⟩
  next => cases h

theorem intentAmong_eq_some {ls : List Lexeme} {offset : Nat} {intent : Intent}
    (h : intentAmong ls offset = some intent) : ∃ l ∈ ls, l.span.start.offset < offset ∧
      offset ≤ l.span.stop.offset ∧
      (l.token = .dot ∨ l.token = .questionDot ∨ ∃ word, l.token = .word word) := by
  obtain ⟨index, l, -, member, starts, stops, ⟨dot, -⟩ | ⟨name, -, -, token, -⟩⟩ :=
    intentAmong_cases h
  · exact ⟨l, member, starts, stops, or_assoc.mp (Or.inl (isDot_iff.mp dot))⟩
  · exact ⟨l, member, starts, stops, Or.inr (Or.inr ⟨name, token⟩)⟩

theorem kind_of_chainEndingIn {tokens : List Token} {chain : List String} {kind : IntentKind}
    (h : chainEndingIn tokens = some (chain, kind)) : kind ≠ .property := by
  fun_induction chainEndingIn tokens generalizing chain kind with
  | case1 _ _ _ ih | case2 _ _ _ ih =>
    obtain ⟨⟨first, kind⟩, found, same⟩ := Option.map_eq_some_iff.mp h
    cases same
    exact ih found
  | case3 | case5 | case6 | case7 =>
    cases h
    nofun
  | case4 | case8 => cases h

theorem kind_of_intentInWord {tokens : List Token} {typed : String} {intent : Intent}
    (h : intentInWord tokens typed = some intent) : intent.kind ≠ .property := by
  unfold intentInWord at h
  split at h
  · obtain ⟨chain, found, rfl⟩ := Option.map_eq_some_iff.mp h
    exact kind_of_chainEndingIn found
  · obtain ⟨chain, found, rfl⟩ := Option.map_eq_some_iff.mp h
    exact kind_of_chainEndingIn found
  · cases h
    nofun

end Slices

/-- No token starts with a hash. -/
theorem not_lexed_hash {here : Place} {last : Option Token} {rest : List Char} {ls : List Lexeme} :
    ¬ Lexed here last ('#' :: rest) ls := by
  intro h
  have solid : gapLength here ('#' :: rest) = .ok 0 := gapLength_solid (by decide) (by simp)
  generalize same : '#' :: rest = text at h solid
  cases h with
  | done length =>
    rw [length] at solid
    rw [List.eq_nil_of_length_eq_zero (Except.ok.inj solid)] at same
    cases same
  | token length read =>
    rw [length] at solid
    rw [List.eq_nil_of_length_eq_zero (Except.ok.inj solid),List.nil_append] at same
    obtain ⟨rfl, -⟩ := List.cons.inj same
    have error (start : Place) (rest : List Char) : readToken start last '#' rest =
        .error ⟨.unexpectedCharacter '#', start.position⟩ := rfl
    rw [error] at read
    cases read

theorem interpreterLine_of_lexed {here : Place} {last : Option Token} {text rest : List Char}
    {ls : List Lexeme} (h : Lexed here last text ls) (begins : rest <+: text) :
    interpreterLine rest = 0 := by
  unfold interpreterLine
  split
  next =>
    obtain ⟨more, rfl⟩ := begins
    exact absurd h not_lexed_hash
  next => rfl

/-- A text is read from behind its first line on, if this is to be skipped. -/
theorem lexed_of_lexChars {line rest : List Char} {ls : List Lexeme} (ends : AtLineEnd rest)
    (h : lexChars (line ++ rest) = .ok ls) :
    Lexed (origin.afterAll (line.take (interpreterLine line))) none
      (line.drop (interpreterLine line) ++ rest) ls := by
  have le := interpreterLine_le line
  have same : interpreterLine (line ++ rest) = interpreterLine line := by
    obtain rfl | ⟨rest, rfl⟩ := atLineEnd_iff.mp ends
    · rw [List.append_nil]
    · exact interpreterLine_append line rest
  simp only [lexChars,same,List.take_append_of_le_length le,List.drop_append_of_le_length le] at h
  exact lexed_iff.mp h

/-- The reader of a legible text can start anew with a line that starts in code. -/
theorem Legible.resumes_line {text : List Char} {ls : List Lexeme} {extent i : Nat}
    (legible : Legible text ls extent) (fits : extent ≤ text.length) (lexed : lexChars text = .ok ls)
    (within : i < extent) (feed : text[i]? = some '\n')
    (code : (initial.scan (i + 1) text).region = .code) :
    Resumes ls (origin.afterAll (text.take (i + 1))) (text.drop (i + 1)) (extent - (i + 1)) := by
  have outside : interpreterLine text ≤ i := by
    by_contra inside
    have member : '\n' ∈ text.take (interpreterLine text) :=
      List.mem_of_getElem? (by rwa [List.getElem?_take_of_lt (Nat.lt_of_not_le inside)])
    obtain none | line := interpreterLine_take text
    · omega
    · exact line.single member
  obtain ⟨j, rfl⟩ := Nat.exists_eq_add_of_le outside
  have cut := (List.take_append_drop (interpreterLine text) text).symm
  have length := List.length_take_of_le (interpreterLine_le text)
  rw [Nat.add_assoc,scan_add] at code
  have resumed := legible.resumes fits (lexed_iff.mp lexed) cut rfl (fun _ => id)
    (Or.inl (by rw [length]; exact legible.marked)) (i := j) (by omega) (by rwa [List.getElem?_drop])
    (by rwa [length])
  rw [length,← afterAll_append,List.drop_drop,← List.take_add] at resumed
  exact resumed

/-- The names and dots before the caret in a slice are those of the whole text. -/
theorem Legible.shares {before after left right : List Char} {ls found : List Lexeme} {l : Lexeme}
    (legible : Legible (before ++ after) ls (before.length + right.length))
    (lexed : lexChars (before ++ after) = .ok ls)
    (slice : surroundingSlice before after = some (left, right))
    (read : lexChars (left ++ right) = .ok found) (member : l ∈ found)
    (starts : l.span.start.offset < byteLength left)
    (link : l.token = .dot ∨ l.token = .questionDot ∨ ∃ word, l.token = .word word) :
    ∃ k ∈ ls, k.token = l.token ∧
      k.span.start.offset + byteLength left = l.span.start.offset + byteLength before ∧
      k.span.stop.offset + byteLength left = l.span.stop.offset + byteLength before := by
  obtain ⟨skipped, line, tail, rest, cut, rfl, rfl, begins, ends, boundary⟩ :=
    surroundingSlice_eq_some slice
  rw [← List.append_assoc] at read
  have read := lexed_of_lexChars (ends.of_prefix begins) read
  have size := byteLength_append ((left ++ line).take (interpreterLine (left ++ line)))
    ((left ++ line).drop (interpreterLine (left ++ line)))
  rw [List.take_append_drop,byteLength_append] at size
  obtain rfl | ⟨i, length, feed, code⟩ := boundary
  · -- Slice and text start alike, with the same line to skip.
    obtain rfl : before = left := cut
    rw [← List.append_assoc] at lexed
    obtain ⟨k, member', token, start, stop⟩ := read.shared (lexed_of_lexChars ends lexed)
      (ends.of_prefix begins) ends member (by rw [offset_origin_afterAll]; omega) link
    exact ⟨k, member', token, by omega, by omega⟩
  · obtain ⟨lt, -⟩ := List.getElem?_eq_some_iff.mp feed
    have fits := begins.length_le
    have resumed := legible.resumes_line (by simp only [List.length_append]; omega) lexed (by omega)
      (by rwa [List.getElem?_append_left lt]) code
    rw [cut,List.append_assoc,← length,List.take_left,List.drop_left] at resumed
    obtain ⟨known, more, ls', whole, reaches, lexed', among⟩ := resumed
    obtain ⟨rest', rfl⟩ : left ++ line <+: known := by
      refine List.prefix_of_prefix_length_le ⟨rest, ?_⟩ ⟨more, whole.symm⟩ ?_
      · rw [List.append_assoc]
      · simp only [List.length_append] at reaches ⊢
        omega
    have begins' : rest' <+: rest := ⟨more, by simpa using whole.symm⟩
    have unmarked : interpreterLine (left ++ line) = 0 :=
      interpreterLine_of_lexed lexed' (List.prefix_append _ _)
    rw [unmarked] at read
    obtain ⟨k', member', token, start, stop⟩ := read.shared lexed' (ends.of_prefix begins)
      (ends.of_prefix begins') member (by
        rw [List.drop_zero,byteLength_append]
        omega) link
    have notEnd : k'.token ≠ .endOfInput := by
      rw [token]
      rintro same
      simp [same] at link
    obtain ⟨k, found, same, span⟩ := (among k' member').resolve_left notEnd
    simp only [List.take_zero,offset_origin_afterAll,byteLength_nil] at start stop
    refine ⟨k, found, same.trans token, ?_, ?_⟩
    all_goals
      rw [span,cut,byteLength_append]
      omega

/-- Two tokens do not overlap. -/
theorem eq_of_overlap {ls : List Lexeme} (ordered : ls.Pairwise fun a b =>
    a.span.stop.offset ≤ b.span.start.offset) {l other : Lexeme} (member : l ∈ ls)
    (member' : other ∈ ls) {offset : Nat} (starts : l.span.start.offset < offset)
    (stops : offset ≤ l.span.stop.offset) (starts' : other.span.start.offset < offset)
    (stops' : offset < other.span.stop.offset) : other = l := by
  by_contra different
  have apart : ls.Pairwise fun a b => a.span.stop.offset ≤ b.span.start.offset ∨
      b.span.stop.offset ≤ a.span.start.offset := ordered.imp Or.inl
  have symmetric : Std.Symm fun a b : Lexeme => a.span.stop.offset ≤ b.span.start.offset ∨
      b.span.stop.offset ≤ a.span.start.offset := ⟨fun _ _ => Or.symm⟩
  obtain before | after := apart.forall member' member different
  · omega
  · omega

/-- How many characters of a text stand before the end of the slice around a caret. -/
def sliceEnd? (source : String) (caret : Position) : Option Nat := do
  let text := source.toList
  let offset ← (LineTable.ofChars text).offset? text caret
  let (before, after) ← splitAtByte text offset
  let (_, right) ← surroundingSlice before after
  return before.length + right.length

/-- In a text that is legible up to the end of the caret's slice an intent is found only at a name
or a dot of the text, and the caret is inside no other token. -/
theorem contextAt_touches (source : String) (caret : Position) (ls : List Lexeme) (intent : Intent)
    (extent : Nat) (lexed : lexText source = .ok ls) (ends : sliceEnd? source caret = some extent)
    (legible : Legible source.toList ls extent) (found : contextAt source caret = some intent) :
    ∃ offset, (LineTable.ofChars source.toList).offset? source.toList caret = some offset ∧
      ∃ l ∈ ls, l.span.start.offset < offset ∧ offset ≤ l.span.stop.offset ∧
        (l.token = .dot ∨ l.token = .questionDot ∨ ∃ word, l.token = .word word) ∧
        ∀ other ∈ ls, other.span.start.offset < offset → offset < other.span.stop.offset →
          other = l := by
  obtain ⟨offset, place, inText⟩ := Option.bind_eq_some_iff.mp found
  obtain ⟨⟨before, after⟩, split, around⟩ := Option.bind_eq_some_iff.mp inText
  obtain ⟨⟨left, right⟩, slice, inSlice⟩ := Option.bind_eq_some_iff.mp around
  refine ⟨offset, place, ?_⟩
  obtain ⟨whole, rfl⟩ := splitAtByte_eq_some split
  simp only at inSlice
  split at inSlice
  next read =>
    obtain ⟨l, member, starts, stops, link⟩ := intentAmong_eq_some inSlice
    obtain ⟨line, rest, -, -, tiling⟩ := tiling_of_lexChars lexed
    obtain rfl : before.length + right.length = extent := by
      simpa [sliceEnd?,place,split,slice] using ends
    rw [lexText,whole] at lexed
    rw [whole] at legible
    obtain ⟨k, member', token, start, stop⟩ := legible.shares lexed slice read member starts link
    refine ⟨k, member', by omega, by omega, by rwa [token], fun other among starts' stops' => ?_⟩
    exact eq_of_overlap tiling.ordered member' among (by omega) (by omega) starts' stops'
  next => cases inSlice

/-- A line to skip, a template over two lines with a substitution, and a division stand before the
line of the caret. Scan and reader come apart on the line behind it. -/
theorem contextAt_touches_after_template : ∃ ls intent,
    lexText "#!/bin/js\n`\n$\x7ba\x7d`/b\nc.d\ne++/f" = .ok ls ∧
    sliceEnd? "#!/bin/js\n`\n$\x7ba\x7d`/b\nc.d\ne++/f" ⟨3, 3⟩ = some 23 ∧
    Legible "#!/bin/js\n`\n$\x7ba\x7d`/b\nc.d\ne++/f".toList ls 23 ∧
    ¬ Legible "#!/bin/js\n`\n$\x7ba\x7d`/b\nc.d\ne++/f".toList ls 28 ∧
    contextAt "#!/bin/js\n`\n$\x7ba\x7d`/b\nc.d\ne++/f" ⟨3, 3⟩ = some intent ∧
    ∃ offset, (LineTable.ofChars "#!/bin/js\n`\n$\x7ba\x7d`/b\nc.d\ne++/f".toList).offset?
        "#!/bin/js\n`\n$\x7ba\x7d`/b\nc.d\ne++/f".toList ⟨3, 3⟩ = some offset ∧
      ∃ l ∈ ls, l.span.start.offset < offset ∧ offset ≤ l.span.stop.offset ∧
        (l.token = .dot ∨ l.token = .questionDot ∨ ∃ word, l.token = .word word) ∧
        ∀ other ∈ ls, other.span.start.offset < offset → offset < other.span.stop.offset →
          other = l := by
  have lexed : lexText "#!/bin/js\n`\n$\x7ba\x7d`/b\nc.d\ne++/f" = .ok
      [⟨.template "\n$\x7ba\x7d", ⟨⟨10, ⟨1, 0⟩⟩, ⟨17, ⟨2, 5⟩⟩⟩, true⟩,
        ⟨.op "/", ⟨⟨17, ⟨2, 5⟩⟩, ⟨18, ⟨2, 6⟩⟩⟩, false⟩,
        ⟨.word "b", ⟨⟨18, ⟨2, 6⟩⟩, ⟨19, ⟨2, 7⟩⟩⟩, false⟩,
        ⟨.word "c", ⟨⟨20, ⟨3, 0⟩⟩, ⟨21, ⟨3, 1⟩⟩⟩, true⟩,
        ⟨.dot, ⟨⟨21, ⟨3, 1⟩⟩, ⟨22, ⟨3, 2⟩⟩⟩, false⟩,
        ⟨.word "d", ⟨⟨22, ⟨3, 2⟩⟩, ⟨23, ⟨3, 3⟩⟩⟩, false⟩,
        ⟨.word "e", ⟨⟨24, ⟨4, 0⟩⟩, ⟨25, ⟨4, 1⟩⟩⟩, true⟩,
        ⟨.op "++", ⟨⟨25, ⟨4, 1⟩⟩, ⟨27, ⟨4, 3⟩⟩⟩, false⟩,
        ⟨.op "/", ⟨⟨27, ⟨4, 3⟩⟩, ⟨28, ⟨4, 4⟩⟩⟩, false⟩,
        ⟨.word "f", ⟨⟨28, ⟨4, 4⟩⟩, ⟨29, ⟨4, 5⟩⟩⟩, false⟩,
        ⟨.endOfInput, ⟨⟨29, ⟨4, 5⟩⟩, ⟨29, ⟨4, 5⟩⟩⟩, false⟩] := by decide +kernel
  have ends : sliceEnd? "#!/bin/js\n`\n$\x7ba\x7d`/b\nc.d\ne++/f" ⟨3, 3⟩ = some 23 := by decide +kernel
  have found : contextAt "#!/bin/js\n`\n$\x7ba\x7d`/b\nc.d\ne++/f" ⟨3, 3⟩ =
      some ⟨.identifier, ["c", "d"]⟩ := by decide +kernel
  refine ⟨_, _, lexed, ends, ?legible, by decide +kernel, found,
    contextAt_touches _ _ _ _ 23 lexed ends ?legible found⟩
  decide +kernel

/-- After an increment the scan takes a division for the start of a regular expression, and
so it misses the template that starts right behind the slash. -/
theorem contextAt_in_template : ∃ ls intent, lexText "a++ /`/\nfoo.b\n`" = .ok ls ∧
    contextAt "a++ /`/\nfoo.b\n`" ⟨1, 5⟩ = some intent ∧
    (LineTable.ofChars "a++ /`/\nfoo.b\n`".toList).offset? "a++ /`/\nfoo.b\n`".toList ⟨1, 5⟩ =
      some 13 ∧
    ∀ l ∈ ls, l.span.start.offset < 13 → 13 ≤ l.span.stop.offset → l.token = .template "/\nfoo.b\n" := by
  have lexed : lexText "a++ /`/\nfoo.b\n`" = .ok
      [⟨.word "a", ⟨⟨0, ⟨0, 0⟩⟩, ⟨1, ⟨0, 1⟩⟩⟩, false⟩,
        ⟨.op "++", ⟨⟨1, ⟨0, 1⟩⟩, ⟨3, ⟨0, 3⟩⟩⟩, false⟩,
        ⟨.op "/", ⟨⟨4, ⟨0, 4⟩⟩, ⟨5, ⟨0, 5⟩⟩⟩, false⟩,
        ⟨.template "/\nfoo.b\n", ⟨⟨5, ⟨0, 5⟩⟩, ⟨15, ⟨2, 1⟩⟩⟩, false⟩,
        ⟨.endOfInput, ⟨⟨15, ⟨2, 1⟩⟩, ⟨15, ⟨2, 1⟩⟩⟩, false⟩] := by decide +kernel
  have found : contextAt "a++ /`/\nfoo.b\n`" ⟨1, 5⟩ = some ⟨.identifier, ["foo", "b"]⟩ := by
    decide +kernel
  exact ⟨_, _, lexed, found, by decide +kernel, by decide⟩

end CodeCompletion
