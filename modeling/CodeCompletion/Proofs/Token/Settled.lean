import CodeCompletion.Proofs.Token.Extent
import Mathlib.Data.List.Find

/-! What is read at the front of a text does not depend on what comes behind the text on
other lines. A string, a template and the pattern of a regular expression are closed by what
they are read up to, so that not even the end of the line matters for them. -/
namespace CodeCompletion

variable {text more : List Char}

theorem atLineEnd_iff : AtLineEnd text ↔ text = [] ∨ ∃ rest, text = '\n' :: rest := by
  rw [AtLineEnd,List.head?_eq_some_iff]

theorem AtLineEnd.of_prefix {rest : List Char} (h : AtLineEnd rest) (begins : text <+: rest) :
    AtLineEnd text := by
  cases text with
  | nil => exact Or.inl rfl
  | cons c text =>
    obtain ⟨more, rfl⟩ := begins
    exact Or.inr (h.resolve_left (by simp))

/-- A run that stops before the end of a text. -/
theorem takeWhile_append_of_stops {p : Char → Bool}
    (stops : (text.takeWhile p).length < text.length) (more : List Char) :
    (text ++ more).takeWhile p = text.takeWhile p := by
  rw [List.takeWhile_append]
  simp [Nat.ne_of_lt stops]

/-- A run that a line feed would stop. -/
theorem takeWhile_append_atLineEnd {p : Char → Bool} (stops : p '\n' = false)
    (ends : AtLineEnd more) : (text ++ more).takeWhile p = text.takeWhile p := by
  have none : more.takeWhile p = [] := by
    obtain rfl | ⟨rest, rfl⟩ := atLineEnd_iff.mp ends <;> simp [stops]
  rw [List.takeWhile_append]
  split
  next whole =>
    have all : text.takeWhile p = text :=
      List.IsPrefix.eq_of_length (List.takeWhile_prefix p) whole
    simp [none,all]
  next => rfl

/-- A first character of a kind that no line feed is of. -/
theorem head?_append_atLineEnd {p : Char → Bool} (stops : p '\n' = false)
    (ends : AtLineEnd more) : (text ++ more).head?.any p = text.head?.any p := by
  cases text with
  | nil => obtain rfl | ⟨rest, rfl⟩ := atLineEnd_iff.mp ends <;> simp [stops]
  | cons => rfl

theorem hexCharacter_append {count : Nat} {c : Char} (h : hexCharacter count text = .ok c)
    (more : List Char) : hexCharacter count (text ++ more) = .ok c := by
  have full : count ≤ text.length := by
    by_contra short
    have : ¬ min count text.length = count := by omega
    simp [hexCharacter,this] at h
  unfold hexCharacter at h ⊢
  rwa [List.take_append_of_le_length full]

theorem size_escape {e : Reading (List Char)} (h : escape text = .ok e) : 0 < e.size := by
  unfold escape at h
  split at h
  case h_1 => cases h
  case h_8 => split at h <;> cases h <;> exact Nat.one_pos
  case h_12 =>
    obtain ⟨c, _, rfl⟩ := map_eq_ok.mp h
    exact Nat.succ_pos _
  case h_13 =>
    simp only at h
    split at h
    · split at h
      · cases h
        exact Nat.succ_pos _
      · cases h
    · cases h
  case h_14 =>
    obtain ⟨c, _, rfl⟩ := map_eq_ok.mp h
    exact Nat.succ_pos _
  all_goals
    cases h
    exact Nat.succ_pos _

/-- An escape that does not end the text. -/
theorem escape_append {e : Reading (List Char)} (h : escape text = .ok e)
    (inside : e.size < text.length) (more : List Char) : escape (text ++ more) = .ok e := by
  have taken := size_escape h
  -- One character more than the escape is enough to tell what it is.
  obtain ⟨c, d, rest, rfl⟩ : ∃ c d rest, text = c :: d :: rest := by
    match text with
    | [] => simp at inside
    | [_] => simp at inside; omega
    | c :: d :: rest => exact ⟨c, d, rest, rfl⟩
  unfold escape at h
  split at h
  case h_8 start =>
    cases start
    exact h
  case h_11 notFeed start =>
    cases start
    simp_all [escape]
  case h_12 start =>
    cases start
    obtain ⟨c, read, rfl⟩ := map_eq_ok.mp h
    exact map_eq_ok.mpr ⟨c, hexCharacter_append read more, rfl⟩
  case h_13 start =>
    cases start
    simp only at h
    split at h
    next closed =>
      have same := takeWhile_append_of_stops closed more
      have closed' : (rest.takeWhile (· ≠ '\x7d')).length < (rest ++ more).length := by
        simp only [List.length_append]
        omega
      simp only [List.cons_append,escape,same,closed',if_true]
      exact h
    next => cases h
  case h_14 notBrace start =>
    cases start
    obtain ⟨c, read, rfl⟩ := map_eq_ok.mp h
    have later := hexCharacter_append read more
    simp_all [escape,Except.map]
  all_goals
    simp_all [escape]

/-- A string is closed by its quote. -/
theorem stringBody_append {quote : Char} {b : Reading (List Char)}
    (h : stringBody quote text = .ok b) :
    b.size ≤ text.length ∧ ∀ more, stringBody quote (text ++ more) = .ok b := by
  fun_induction stringBody quote text generalizing b with
  | case1 => cases h
  | case2 => cases h
  | case3 rest notFeed =>
    cases h
    exact ⟨by simp, fun more => by simp [stringBody,notFeed]⟩
  | case4 => cases h
  | case5 => cases h
  | case6 rest e escaped body read notFeed notQuote ih =>
    cases h
    obtain ⟨size, later⟩ := ih read
    have taken : e.size < rest.length := by
      by_contra whole
      rw [List.drop_of_length_le (by omega)] at read
      simp [stringBody] at read
    simp only [List.length_drop] at size
    refine ⟨by simp only [List.length_cons]; omega, fun more => ?_⟩
    have same := later more
    rw [← List.drop_append_of_le_length (Nat.le_of_lt taken)] at same
    simp [stringBody,notQuote,escape_append escaped taken more,same]
  | case7 => cases h
  | case8 c rest notFeed notQuote plain body read ih =>
    cases h
    obtain ⟨size, later⟩ := ih read
    refine ⟨by simp only [List.length_cons]; omega, fun more => ?_⟩
    simp [stringBody,notFeed,notQuote,plain,later more]

/-- A template is closed by its backtick, wherever it stands. -/
theorem templateBody_append {start here : Place} {depth size : Nat}
    (h : templateBody start here depth text = .ok size) :
    size ≤ text.length ∧
      ∀ start' here' more, templateBody start' here' depth (text ++ more) = .ok size := by
  fun_induction templateBody start here depth text generalizing size with
  | case1 => cases h
  | case2 start here rest =>
    cases h
    exact ⟨by simp, fun _ _ more => by rw [List.cons_append,templateBody.eq_def]; simp⟩
  | case3 => cases h
  | case4 start here next rest notTick ih =>
    obtain ⟨n, read, rfl⟩ := map_eq_ok.mp h
    obtain ⟨size, later⟩ := ih read
    refine ⟨by simp only [List.length_cons]; omega, fun _ _ more => ?_⟩
    rw [List.cons_append,templateBody.eq_def]
    simp [later,Except.map]
  | case5 start here c rest notTick notEscape opens ih =>
    obtain ⟨n, read, rfl⟩ := map_eq_ok.mp h
    obtain ⟨size, later⟩ := ih read
    obtain ⟨rfl, brace⟩ := opens
    obtain ⟨rest, rfl⟩ := List.head?_eq_some_iff.mp brace
    simp only [List.drop_one,List.tail_cons] at size later
    refine ⟨by simp only [List.length_cons]; omega, fun _ _ more => ?_⟩
    rw [List.cons_append,templateBody.eq_def]
    simp [later,Except.map]
  | case6 start here c rest notTick notEscape plain ih =>
    obtain ⟨n, read, rfl⟩ := map_eq_ok.mp h
    obtain ⟨size, later⟩ := ih read
    refine ⟨by simp only [List.length_cons]; omega, fun _ _ more => ?_⟩
    have head : (rest ++ more).head? = rest.head? := by
      cases rest with
      | nil => simp [templateBody] at read
      | cons => rfl
    rw [List.cons_append,templateBody.eq_def]
    simp [notTick,notEscape,head,plain,later,Except.map]
  | case7 => cases h
  | case8 =>
    rename_i depth rest inside inner nested _ ihInner ih
    obtain ⟨n, read, rfl⟩ := map_eq_ok.mp h
    obtain ⟨size, later⟩ := ihInner nested
    obtain ⟨size', later'⟩ := ih read
    simp only [List.length_drop] at size'
    refine ⟨by simp only [List.length_cons]; omega, fun _ _ more => ?_⟩
    rw [List.cons_append,templateBody.eq_def]
    simp [inside,later,List.drop_append_of_le_length size,later',Except.map]
  | case9 => cases h
  | case10 =>
    rename_i depth quote rest inside notTick isQuote body string _ ih
    obtain ⟨n, read, rfl⟩ := map_eq_ok.mp h
    obtain ⟨size, later⟩ := stringBody_append string
    obtain ⟨size', later'⟩ := ih read
    simp only [List.length_drop] at size'
    refine ⟨by simp only [List.length_cons]; omega, fun _ _ more => ?_⟩
    rw [List.cons_append,templateBody.eq_def]
    simp [inside,notTick,isQuote,later,List.drop_append_of_le_length size,later',
      Except.map]
  | case11 =>
    rename_i depth c rest inside notTick notQuote _ ih
    obtain ⟨n, read, rfl⟩ := map_eq_ok.mp h
    obtain ⟨size, later⟩ := ih read
    refine ⟨by simp only [List.length_cons]; omega, fun _ _ more => ?_⟩
    rw [List.cons_append,templateBody.eq_def]
    simp only [inside,notTick,notQuote,if_false]
    exact map_eq_ok.mpr ⟨n, later _ _ more, rfl⟩

theorem templateLiteral_append {start : Place} {r : Reading String}
    (h : templateLiteral start text = .ok r) : r.size ≤ text.length ∧
      ∀ start' more, templateLiteral start' (text ++ more) = .ok r := by
  cases text with
  | nil => cases h
  | cons tick rest =>
    rw [templateLiteral_cons] at h
    obtain ⟨n, read, rfl⟩ := map_eq_ok.mp h
    obtain ⟨size, later⟩ := templateBody_append read
    refine ⟨by simp only [List.length_cons]; omega, fun start' more => ?_⟩
    have inner : (rest ++ more).take (n - 1) = rest.take (n - 1) :=
      List.take_append_of_le_length (by omega)
    simp [templateLiteral_cons,later,inner,Except.map]

theorem stringLiteral_append {r : Reading String} (h : stringLiteral text = .ok r) :
    r.size ≤ text.length ∧ ∀ more, stringLiteral (text ++ more) = .ok r := by
  cases text with
  | nil => cases h
  | cons quote rest =>
    obtain ⟨body, read, rfl⟩ := map_eq_ok.mp h
    obtain ⟨size, later⟩ := stringBody_append read
    refine ⟨by simp only [List.length_cons]; omega, fun more => ?_⟩
    simp [stringLiteral,later,Except.map]

/-- A pattern is closed by a slash outside of its character classes. -/
theorem regexBody_append {inClass : Bool} {size : Nat} (h : regexBody inClass text = .ok size) :
    0 < size ∧ size ≤ text.length ∧ ∀ more, regexBody inClass (text ++ more) = .ok size := by
  fun_induction regexBody inClass text generalizing size with
  | case1 => cases h
  | case2 => cases h
  | case3 => cases h
  | case4 => cases h
  | case5 =>
    rename_i inClass next rest notFeed _ ih
    obtain ⟨n, read, rfl⟩ := map_eq_ok.mp h
    obtain ⟨_, size, later⟩ := ih read
    refine ⟨by omega, by simp only [List.length_cons]; omega, fun more => ?_⟩
    simp [regexBody,notFeed,later,Except.map]
  | case6 =>
    rename_i c rest notFeed notEscape closes
    cases h
    obtain ⟨rfl, rfl⟩ := closes
    exact ⟨Nat.one_pos, by simp, fun more => by rw [List.cons_append,regexBody.eq_def]; simp⟩
  | case7 =>
    rename_i inClass c rest notFeed notEscape opens _ ih
    obtain ⟨n, read, rfl⟩ := map_eq_ok.mp h
    obtain ⟨_, size, later⟩ := ih read
    refine ⟨by omega, by simp only [List.length_cons]; omega, fun more => ?_⟩
    rw [List.cons_append,regexBody.eq_def]
    simp only [notFeed,notEscape,opens,if_false]
    exact map_eq_ok.mpr ⟨n, later more, rfl⟩

theorem isNameContinue_feed : isNameContinue '\n' = false := by decide

section Lines

variable (ends : AtLineEnd more)
include ends

theorem regexLiteral_append {r : Reading (String × String)} (h : regexLiteral text = .ok r) :
    r.size ≤ text.length ∧ regexLiteral (text ++ more) = .ok r := by
  cases text with
  | nil => cases h
  | cons slash rest =>
    rw [regexLiteral_cons] at h
    obtain ⟨size, body, rfl⟩ := map_eq_ok.mp h
    obtain ⟨positive, le, later⟩ := regexBody_append body
    have flags := (List.takeWhile_prefix isNameContinue (l := rest.drop size)).length_le
    simp only [List.length_drop] at flags
    refine ⟨by simp only [List.length_cons,runLength]; omega, ?_⟩
    have pattern : (rest ++ more).take (size - 1) = rest.take (size - 1) :=
      List.take_append_of_le_length (by omega)
    simp [regexLiteral_cons,runLength,later,pattern,List.drop_append_of_le_length le,
      takeWhile_append_atLineEnd isNameContinue_feed ends,Except.map]

theorem digitRun_append (base : Nat) (text : List Char) :
    digitRun base (text ++ more) = digitRun base text := by
  have stops : ('\n' = '_' || (digitValue? base '\n').isSome) = false := by
    simp [digitValue?,hexValue?]
  have same : (text ++ more).takeWhile (fun c => c = '_' || (digitValue? base c).isSome) =
      text.takeWhile fun c => c = '_' || (digitValue? base c).isSome :=
    takeWhile_append_atLineEnd stops ends
  simp only [digitRun,same]

omit ends in
theorem size_digitRun_le (base : Nat) (text : List Char) :
    (digitRun base text).size ≤ text.length :=
  (List.takeWhile_prefix _).length_le

theorem fractionPart_append (text : List Char) : fractionPart (text ++ more) = fractionPart text := by
  cases text with
  | nil => obtain rfl | ⟨rest, rfl⟩ := atLineEnd_iff.mp ends <;> rfl
  | cons c rest =>
    by_cases point : c = '.'
    · subst c
      simp [fractionPart,digitRun_append ends]
    · simp [fractionPart,point]

omit ends in
theorem size_fractionPart_le (text : List Char) : (fractionPart text).size ≤ text.length := by
  unfold fractionPart
  split
  next rest =>
    have := size_digitRun_le 10 rest
    simp only [List.length_cons]
    omega
  next => exact Nat.zero_le _

omit ends in
theorem size_exponentDigits_le {sign : Int} {before : Nat} {r : Reading Int}
    (h : exponentDigits sign before text = .ok r) : r.size ≤ before + text.length := by
  unfold exponentDigits at h
  split at h
  next =>
    cases h
    have := size_digitRun_le 10 text
    simp only
    omega
  next => cases h

omit ends in
theorem size_exponentPart_le {r : Reading Int} (h : exponentPart text = .ok r) :
    r.size ≤ text.length := by
  unfold exponentPart at h
  split at h
  next =>
    cases h
    exact Nat.zero_le _
  next e rest =>
    split at h
    next =>
      split at h
      all_goals
        have := size_exponentDigits_le h
        simp only [List.length_cons]
        omega
    next =>
      cases h
      exact Nat.zero_le _

omit ends in
theorem size_decimalNumber_le {r : Reading Binary64} (h : decimalNumber text = .ok r) :
    r.size ≤ text.length := by
  have whole := size_digitRun_le 10 text
  have fraction := size_fractionPart_le (text.drop (digitRun 10 text).size)
  simp only [List.length_drop] at fraction
  simp only [decimalNumber] at h
  split at h
  next => cases h
  next exponent read =>
    cases h
    have size := size_exponentPart_le read
    simp only [List.length_drop] at size ⊢
    omega

omit ends in
theorem size_announcedNumber_le {base : Nat} {r : Reading Binary64}
    (h : announcedNumber base text = .ok r) : r.size ≤ text.length := by
  have := size_digitRun_le base text
  simp only [announcedNumber] at h
  split at h
  next => cases h
  next =>
    split at h <;> cases h
    exact this

theorem exponentDigits_atLineEnd (sign : Int) (before : Nat) (text : List Char) :
    exponentDigits sign before (text ++ more) = exponentDigits sign before text := by
  simp only [exponentDigits,head?_append_atLineEnd (p := Char.isDigit) (by decide) ends,
    digitRun_append ends]

theorem exponentPart_atLineEnd (text : List Char) :
    exponentPart (text ++ more) = exponentPart text := by
  cases text with
  | nil => obtain rfl | ⟨rest, rfl⟩ := atLineEnd_iff.mp ends <;> rfl
  | cons e rest =>
    simp only [List.cons_append,exponentPart]
    split
    next =>
      cases rest with
      | nil => obtain rfl | ⟨rest, rfl⟩ := atLineEnd_iff.mp ends <;> rfl
      | cons sign rest =>
        by_cases plus : sign = '+'
        · subst plus
          exact exponentDigits_atLineEnd ends 1 2 rest
        by_cases minus : sign = '-'
        · subst minus
          exact exponentDigits_atLineEnd ends (-1) 2 rest
        have same := exponentDigits_atLineEnd ends 1 1 (sign :: rest)
        simpa [plus,minus] using same
    next => rfl

theorem decimalNumber_atLineEnd (text : List Char) :
    decimalNumber (text ++ more) = decimalNumber text := by
  have whole := size_digitRun_le 10 text
  have fraction := size_fractionPart_le (text.drop (digitRun 10 text).size)
  simp only [List.length_drop] at fraction
  have le : (digitRun 10 text).size + (fractionPart (text.drop (digitRun 10 text).size)).size ≤
      text.length := by omega
  simp only [decimalNumber,digitRun_append ends,List.drop_append_of_le_length whole,
    fractionPart_append ends,List.drop_append_of_le_length le,exponentPart_atLineEnd ends]

theorem announcedBase?_append (text : List Char) :
    announcedBase? (text ++ more) = announcedBase? text := by
  obtain rfl | ⟨rest, rfl⟩ := atLineEnd_iff.mp ends
  · rw [List.append_nil]
  · match text with
    | [] => rfl
    | c :: tail =>
      by_cases zero : c = '0'
      · subst c
        cases tail <;> simp [announcedBase?]
      · simp [announcedBase?,zero]

omit ends in
theorem length_of_announcedBase? {base : Nat} (h : announcedBase? text = some base) :
    2 ≤ text.length := by
  unfold announcedBase? at h
  split at h
  · simp
  · cases h

omit ends in
theorem size_numberDigits_le {r : Reading Binary64} (h : numberDigits text = .ok r) :
    r.size ≤ text.length := by
  unfold numberDigits at h
  split at h
  next base announced =>
    obtain ⟨digits, read, rfl⟩ := map_eq_ok.mp h
    have size := size_announcedNumber_le read
    have two := length_of_announcedBase? announced
    simp only [List.length_drop] at size ⊢
    omega
  next => exact size_decimalNumber_le h

omit ends in
/-- A suffix is counted only where it is. -/
theorem size_suffix_le {size : Nat} (le : size ≤ text.length) :
    size + (if (text.drop size).head? = some 'n' then 1 else 0) ≤ text.length := by
  split
  next big =>
    by_contra whole
    rw [List.drop_of_length_le (by omega)] at big
    cases big
  next => exact le

omit ends in
theorem size_numberLiteral_le {r : Reading Binary64} (h : numberLiteral text = .ok r) :
    r.size ≤ text.length := by
  simp only [numberLiteral] at h
  split at h
  next => cases h
  next digits read =>
    have inside := size_suffix_le (size_numberDigits_le read)
    generalize digits.size + _ = size at h inside
    split at h <;> cases h
    exact inside

theorem numberDigits_atLineEnd (text : List Char) :
    numberDigits (text ++ more) = numberDigits text := by
  simp only [numberDigits,announcedBase?_append ends,decimalNumber_atLineEnd ends]
  split
  next base announced =>
    have two := length_of_announcedBase? announced
    simp only [List.drop_append_of_le_length two,announcedNumber,digitRun_append ends]
  next => rfl

/-- A line feed is neither the suffix of a number nor the start of a name. -/
theorem numberLiteral_atLineEnd (text : List Char) :
    numberLiteral (text ++ more) = numberLiteral text := by
  simp only [numberLiteral,numberDigits_atLineEnd ends]
  split
  next => rfl
  next digits read =>
    have size := size_numberDigits_le read
    have suffix : ((text ++ more).drop digits.size).head? = some 'n' ↔
        (text.drop digits.size).head? = some 'n' := by
      rw [List.drop_append_of_le_length size]
      cases text.drop digits.size with
      | nil => obtain rfl | ⟨rest, rfl⟩ := atLineEnd_iff.mp ends <;> simp
      | cons => simp
    have inside := size_suffix_le size
    simp only [suffix,List.drop_append_of_le_length inside,
      head?_append_atLineEnd (p := isNameStart) (by decide) ends]

omit ends in
theorem punctuators_single_line : ∀ entry ∈ punctuators, '\n' ∉ entry.1 := by decide

theorem isPrefixOf_append_atLineEnd {chars : List Char} (single : '\n' ∉ chars) :
    chars.isPrefixOf (text ++ more) = chars.isPrefixOf text := by
  induction chars generalizing text with
  | nil => simp
  | cons c chars ih =>
    have first : c ≠ '\n' := fun same => single (by simp [same])
    cases text with
    | nil => obtain rfl | ⟨rest, rfl⟩ := atLineEnd_iff.mp ends <;> simp [List.isPrefixOf,first]
    | cons d rest => simp [List.isPrefixOf,ih (fun member => single (by simp [member]))]

omit ends in
/-- The table decides unless a digit has to be looked for. -/
theorem punctuator?_of_table (noDigit : ∀ digit rest, text ≠ '?' :: '.' :: digit :: rest) :
    punctuator? text = (punctuators.find? fun (chars, _) => chars.isPrefixOf text).map
      fun (chars, token) => ⟨token, chars.length⟩ := by
  unfold punctuator?
  split
  next digit rest => exact absurd rfl (noDigit digit rest)
  next => rfl

theorem punctuator?_atLineEnd (nonempty : text ≠ []) :
    punctuator? (text ++ more) = punctuator? text := by
  have table : (punctuators.find? fun (chars, _) => chars.isPrefixOf (text ++ more)) =
      punctuators.find? fun (chars, _) => chars.isPrefixOf text := by
    apply List.find?_congr
    intro entry member
    exact isPrefixOf_append_atLineEnd ends (punctuators_single_line entry member)
  -- Whether a digit comes after a question mark and a dot is seen in the text, or it does not.
  by_cases digit : ∃ digit rest, text = '?' :: '.' :: digit :: rest
  · obtain ⟨digit, rest, rfl⟩ := digit
    rfl
  by_cases mark : text = ['?', '.']
  · subst text
    obtain rfl | ⟨rest, rfl⟩ := atLineEnd_iff.mp ends <;> rfl
  have noDigit : ∀ d rest, text ≠ '?' :: '.' :: d :: rest :=
    fun d rest same => digit ⟨d, rest, same⟩
  have noDigit' : ∀ d rest, text ++ more ≠ '?' :: '.' :: d :: rest := by
    intro d rest same
    obtain rfl | ⟨rest', rfl⟩ := atLineEnd_iff.mp ends
    · exact noDigit d rest (by simpa using same)
    · rcases text with _ | ⟨a, _ | ⟨b, _ | ⟨c, tail⟩⟩⟩
      · exact nonempty rfl
      · simp at same
      · simp_all
      · simp_all
  rw [punctuator?_of_table noDigit,punctuator?_of_table noDigit',table]

omit ends in
theorem size_punctuator? {r : Reading Token} (h : punctuator? text = some r) :
    r.size ≤ text.length := by
  by_cases digit : ∃ digit rest, text = '?' :: '.' :: digit :: rest
  · obtain ⟨digit, rest, rfl⟩ := digit
    simp only [punctuator?] at h
    split at h <;> cases h <;> simp
  · rw [punctuator?_of_table fun d rest same => digit ⟨d, rest, same⟩] at h
    obtain ⟨⟨chars, token⟩, found, rfl⟩ := Option.map_eq_some_iff.mp h
    have begins : chars <+: text := by simpa using List.find?_some found
    exact begins.length_le

theorem slashToken_append {last last' : Option Token} {r : Reading Token}
    (h : slashToken last text = .ok r) (slash : text ≠ [])
    (same : Token.allowsRegex last' = Token.allowsRegex last) :
    r.size ≤ text.length ∧ slashToken last' (text ++ more) = .ok r := by
  unfold slashToken at h
  split at h
  next regex =>
    obtain ⟨literal, read, rfl⟩ := map_eq_ok.mp h
    obtain ⟨size, later⟩ := regexLiteral_append ends read
    exact ⟨size, by simp [slashToken,same,regex,later,Except.map]⟩
  next division =>
    split at h
    next c rest =>
      cases h
      exact ⟨by simp, by simp [slashToken,same,division]⟩
    next plain =>
      cases h
      refine ⟨List.length_pos_iff.mpr slash, ?_⟩
      match text with
      | [] => exact absurd rfl slash
      | [c] => obtain rfl | ⟨rest, rfl⟩ := atLineEnd_iff.mp ends <;> simp [slashToken,same,division]
      | c :: d :: rest =>
        have notEquals : d ≠ '=' := fun equals => plain c rest (by rw [equals])
        simp [slashToken,same,division,notEquals]

/-- A token is the same whatever comes behind it on other lines, wherever it stands, and after
whatever token that leaves a slash what it is. -/
theorem readToken_append {start : Place} (start' : Place) {last last' : Option Token} {c : Char}
    {rest : List Char} {r : Reading Token} (h : readToken start last c rest = .ok r)
    (same : Token.allowsRegex last' = Token.allowsRegex last) :
    r.size ≤ (c :: rest).length ∧ readToken start' last' c (rest ++ more) = .ok r := by
  simp only [readToken] at h
  split at h
  next quote =>
    obtain ⟨literal, read, rfl⟩ := map_eq_ok.mp (mapError_eq_ok.mp h)
    obtain ⟨size, later⟩ := stringLiteral_append read
    refine ⟨size, ?_⟩
    simp only [readToken,quote,if_true]
    exact mapError_eq_ok.mpr (map_eq_ok.mpr ⟨literal, later more, rfl⟩)
  next notQuote =>
  split at h
  next tick =>
    subst tick
    obtain ⟨literal, read, rfl⟩ := map_eq_ok.mp h
    obtain ⟨size, later⟩ := templateLiteral_append read
    exact ⟨size, map_eq_ok.mpr ⟨literal, later start' more, rfl⟩⟩
  next notTick =>
  have digit : (rest ++ more).head?.any Char.isDigit = rest.head?.any Char.isDigit :=
    head?_append_atLineEnd (by decide) ends
  split at h
  next number =>
    obtain ⟨literal, read, rfl⟩ := map_eq_ok.mp (mapError_eq_ok.mp h)
    refine ⟨size_numberLiteral_le read, ?_⟩
    simp only [readToken,notQuote,notTick,digit,number,if_true,if_false]
    rw [← numberLiteral_atLineEnd ends] at read
    exact mapError_eq_ok.mpr (map_eq_ok.mpr ⟨literal, read, rfl⟩)
  next notNumber =>
  split at h
  next name =>
    cases h
    refine ⟨(List.takeWhile_prefix _).length_le, ?_⟩
    have whole : (c :: rest ++ more).takeWhile isNameContinue =
        (c :: rest).takeWhile isNameContinue :=
      takeWhile_append_atLineEnd isNameContinue_feed ends
    rw [List.cons_append] at whole
    simp only [readToken,notQuote,notTick,digit,notNumber,name,whole,if_true,if_false]
  next notName =>
  split at h
  next => cases h
  next notEscape =>
  split at h
  next slash =>
    subst slash
    obtain ⟨size, later⟩ := slashToken_append ends (mapError_eq_ok.mp h) (by simp) same
    exact ⟨size, mapError_eq_ok.mpr later⟩
  next notSlash =>
  split at h
  next found =>
    cases h
    have later := punctuator?_atLineEnd ends (List.cons_ne_nil c rest)
    refine ⟨size_punctuator? found, ?_⟩
    rw [List.cons_append,found] at later
    simp only [readToken,notQuote,notTick,digit,notNumber,notName,notEscape,notSlash,later,
      Bool.false_eq_true,if_false]
  next => cases h

end Lines

end CodeCompletion
