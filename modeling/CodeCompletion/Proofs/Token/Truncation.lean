import CodeCompletion.Proofs.Token.Concatenation
import CodeCompletion.Proofs.Token.Shape

/-! What is read within a text is read without what comes behind the text on other lines, too. So
two texts that agree up to the end of a line have the same lexemes up to there. -/
namespace CodeCompletion

variable {text more : List Char}

section Literals

theorem hexCharacter_of_append {count : Nat} {c : Char} (full : count ≤ text.length)
    (h : hexCharacter count (text ++ more) = .ok c) : hexCharacter count text = .ok c := by
  unfold hexCharacter at h ⊢
  rwa [List.take_append_of_le_length full] at h

/-- An escape that does not end the text. -/
theorem escape_of_append {e : Reading (List Char)} (h : escape (text ++ more) = .ok e)
    (inside : e.size < text.length) : escape text = .ok e := by
  have taken := size_escape h
  obtain ⟨c, d, rest, rfl⟩ : ∃ c d rest, text = c :: d :: rest := by
    match text with
    | [] => simp at inside
    | [_] => simp at inside; omega
    | c :: d :: rest => exact ⟨c, d, rest, rfl⟩
  simp only [List.cons_append] at h
  unfold escape at h
  split at h
  case h_8 start =>
    cases start
    exact h
  case h_11 notFeed start =>
    cases start
    simp_all [escape]
  case h_12 start =>
    cases start
    obtain ⟨c, read, rfl⟩ := map_eq_ok.mp h
    simp only [List.length_cons] at inside
    exact map_eq_ok.mpr ⟨c, hexCharacter_of_append (by simp only [List.length_cons]; omega) read, rfl⟩
  case h_13 start =>
    cases start
    simp only at h
    split at h
    next =>
      split at h
      next code =>
        cases h
        simp only [List.length_cons] at inside
        have closed : (rest.takeWhile (· ≠ '\x7d')).length < rest.length := by
          by_contra open_
          have whole := List.IsPrefix.eq_of_length_le
            (List.takeWhile_prefix (· ≠ '\x7d') (l := rest)) (by omega)
          have := (List.takeWhile_prefix (· ≠ '\x7d') (l := rest ++ more)).length_le
          rw [List.takeWhile_append,if_pos (by rw [whole])] at inside
          simp only [List.length_append] at inside
          omega
        rw [takeWhile_append_of_stops closed] at code ⊢
        simp only [escape,closed,if_true,code]
      next => cases h
    next => cases h
  case h_14 notBrace start =>
    cases start
    obtain ⟨c, read, rfl⟩ := map_eq_ok.mp h
    simp only [List.length_cons] at inside
    rw [← List.cons_append] at read
    have read := hexCharacter_of_append (by simp only [List.length_cons]; omega) read
    simp_all [escape,Except.map]
  all_goals
    simp_all [escape]

theorem size_stringBody {quote : Char} {b : Reading (List Char)}
    (h : stringBody quote text = .ok b) : 0 < b.size := by
  fun_induction stringBody quote text generalizing b with
  | case1 | case2 | case4 | case5 | case7 => cases h
  | case3 | case6 | case8 =>
    cases h
    simp only
    omega

theorem stringBody_of_append {quote : Char} {b : Reading (List Char)}
    (h : stringBody quote (text ++ more) = .ok b) (inside : b.size ≤ text.length) :
    stringBody quote text = .ok b := by
  induction size : text.length using Nat.strongRecOn generalizing text b with
  | ind n ih =>
    cases text with
    | nil =>
      have := size_stringBody h
      simp only [List.length_nil] at inside
      omega
    | cons c rest =>
      simp only [List.length_cons] at size inside
      rw [List.cons_append,stringBody] at h
      rw [stringBody]
      by_cases feed : c = '\n'
      · rw [if_pos feed] at h
        cases h
      rw [if_neg feed] at h ⊢
      by_cases closes : c = quote
      · rwa [if_pos closes] at h ⊢
      rw [if_neg closes] at h ⊢
      by_cases escapes : c = '\\'
      · rw [if_pos escapes] at h ⊢
        split at h
        next => cases h
        next e read =>
          split at h
          next => cases h
          next body later =>
            cases h
            have := size_stringBody later
            simp only at inside
            have read := escape_of_append read (by omega)
            rw [List.drop_append_of_le_length (by omega)] at later
            have later := ih (rest.drop e.size).length (by simp only [List.length_drop]; omega) later
              (by simp only [List.length_drop]; omega) rfl
            simp only [read,later]
      · rw [if_neg escapes] at h ⊢
        split at h
        next => cases h
        next body later =>
          cases h
          simp only at inside
          have later := ih rest.length (by omega) later (by omega) rfl
          simp only [later]

theorem size_templateBody {start here : Place} {depth size : Nat}
    (h : templateBody start here depth text = .ok size) : 0 < size := by
  fun_induction templateBody start here depth text generalizing size with
  | case1 | case3 | case7 | case9 => cases h
  | case2 =>
    cases h
    exact Nat.one_pos
  | _ =>
    obtain ⟨n, _, rfl⟩ := map_eq_ok.mp h
    omega

theorem templateBody_of_append {start here : Place} {depth size : Nat}
    (h : templateBody start here depth (text ++ more) = .ok size) (inside : size ≤ text.length) :
    templateBody start here depth text = .ok size := by
  induction length : text.length using Nat.strongRecOn generalizing text start here depth size with
  | ind bound ih =>
    cases text with
    | nil =>
      have := size_templateBody h
      simp only [List.length_nil] at inside
      omega
    | cons c rest =>
      simp only [List.length_cons] at length inside
      rw [List.cons_append,templateBody.eq_def] at h
      rw [templateBody.eq_def]
      simp only at h ⊢
      by_cases outside : depth = 0
      · rw [if_pos outside] at h ⊢
        by_cases closes : c = '\x60'
        · rwa [if_pos closes] at h ⊢
        rw [if_neg closes] at h ⊢
        by_cases escapes : c = '\\'
        · rw [if_pos escapes] at h ⊢
          cases rest with
          | nil =>
            cases more with
            | nil => cases h
            | cons next more =>
              obtain ⟨n, -, rfl⟩ := map_eq_ok.mp h
              simp only [List.length_nil] at inside
              omega
          | cons next rest =>
            obtain ⟨n, later, rfl⟩ := map_eq_ok.mp h
            simp only [List.length_cons] at length inside
            exact map_eq_ok.mpr ⟨n, ih rest.length (by omega) later (by omega) rfl, rfl⟩
        rw [if_neg escapes] at h ⊢
        -- What comes next decides, and there is more of the template to come.
        have head : (rest ++ more).head? = rest.head? := by
          cases rest with
          | nil =>
            split at h
            all_goals
              obtain ⟨n, later, rfl⟩ := map_eq_ok.mp h
              have := size_templateBody later
              simp only [List.length_nil] at inside
              omega
          | cons => rfl
        rw [head] at h
        split at h
        next opens =>
          obtain ⟨n, later, rfl⟩ := map_eq_ok.mp h
          obtain ⟨rest, rfl⟩ := List.head?_eq_some_iff.mp opens.2
          simp only [List.length_cons] at length inside
          rw [if_pos opens]
          have later := ih rest.length (by omega) later (by omega) rfl
          exact map_eq_ok.mpr ⟨n, later, rfl⟩
        next plain =>
          obtain ⟨n, later, rfl⟩ := map_eq_ok.mp h
          rw [if_neg plain]
          exact map_eq_ok.mpr ⟨n, ih rest.length (by omega) later (by omega) rfl, rfl⟩
      · rw [if_neg outside] at h ⊢
        by_cases tick : c = '\x60'
        · rw [if_pos tick] at h ⊢
          split at h
          next => cases h
          next inner nested =>
            obtain ⟨n, later, rfl⟩ := map_eq_ok.mp h
            have nested := ih rest.length (by omega) nested (by omega) rfl
            rw [List.take_append_of_le_length (by omega),
              List.drop_append_of_le_length (by omega)] at later
            have later := ih (rest.drop inner).length (by simp only [List.length_drop]; omega) later
              (by simp only [List.length_drop]; omega) rfl
            simp only [nested]
            exact map_eq_ok.mpr ⟨n, later, rfl⟩
        rw [if_neg tick] at h ⊢
        by_cases quote : c = '"' ∨ c = '\''
        · rw [if_pos quote] at h ⊢
          split at h
          next => cases h
          next body string =>
            obtain ⟨n, later, rfl⟩ := map_eq_ok.mp h
            have string := stringBody_of_append string (by omega)
            rw [List.take_append_of_le_length (by omega),
              List.drop_append_of_le_length (by omega)] at later
            have later := ih (rest.drop body.size).length (by simp only [List.length_drop]; omega)
              later (by simp only [List.length_drop]; omega) rfl
            simp only [string]
            exact map_eq_ok.mpr ⟨n, later, rfl⟩
        rw [if_neg quote] at h ⊢
        obtain ⟨n, later, rfl⟩ := map_eq_ok.mp h
        exact map_eq_ok.mpr ⟨n, ih rest.length (by omega) later (by omega) rfl, rfl⟩

theorem regexBody_of_append {inClass : Bool} {size : Nat}
    (h : regexBody inClass (text ++ more) = .ok size) (inside : size ≤ text.length) :
    regexBody inClass text = .ok size := by
  induction length : text.length using Nat.strongRecOn generalizing text inClass size with
  | ind bound ih =>
    cases text with
    | nil =>
      have := (regexBody_append h).1
      simp only [List.length_nil] at inside
      omega
    | cons c rest =>
      simp only [List.length_cons] at length inside
      rw [List.cons_append,regexBody.eq_def] at h
      rw [regexBody.eq_def]
      simp only at h ⊢
      by_cases feed : c = '\n'
      · rw [if_pos feed] at h
        cases h
      rw [if_neg feed] at h ⊢
      by_cases escapes : c = '\\'
      · rw [if_pos escapes] at h ⊢
        cases rest with
        | nil =>
          cases more with
          | nil => cases h
          | cons next more =>
            simp only [List.nil_append] at h
            split at h
            · cases h
            · obtain ⟨n, -, rfl⟩ := map_eq_ok.mp h
              simp only [List.length_nil] at inside
              omega
        | cons next rest =>
          simp only [List.cons_append] at h
          simp only [List.length_cons] at length inside
          by_cases feed : next = '\n'
          · rw [if_pos feed] at h
            cases h
          rw [if_neg feed] at h
          obtain ⟨n, later, rfl⟩ := map_eq_ok.mp h
          simp only [if_neg feed]
          exact map_eq_ok.mpr ⟨n, ih rest.length (by omega) later (by omega) rfl, rfl⟩
      rw [if_neg escapes] at h ⊢
      by_cases closes : c = '/' ∧ inClass = false
      · rwa [if_pos closes] at h ⊢
      rw [if_neg closes] at h ⊢
      obtain ⟨n, later, rfl⟩ := map_eq_ok.mp h
      exact map_eq_ok.mpr ⟨n, ih rest.length (by omega) later (by omega) rfl, rfl⟩

theorem stringLiteral_of_append {r : Reading String} (h : stringLiteral (text ++ more) = .ok r)
    (inside : r.size ≤ text.length) (nonempty : text ≠ []) : stringLiteral text = .ok r := by
  obtain ⟨quote, rest, rfl⟩ := List.exists_cons_of_ne_nil nonempty
  obtain ⟨body, read, rfl⟩ := map_eq_ok.mp h
  simp only [List.length_cons] at inside
  exact map_eq_ok.mpr ⟨body, stringBody_of_append read (by omega), rfl⟩

theorem templateLiteral_of_append {start : Place} {r : Reading String}
    (h : templateLiteral start (text ++ more) = .ok r) (inside : r.size ≤ text.length)
    (nonempty : text ≠ []) : templateLiteral start text = .ok r := by
  obtain ⟨tick, rest, rfl⟩ := List.exists_cons_of_ne_nil nonempty
  rw [List.cons_append,templateLiteral_cons] at h
  obtain ⟨n, read, rfl⟩ := map_eq_ok.mp h
  simp only [List.length_cons] at inside
  rw [templateLiteral_cons]
  refine map_eq_ok.mpr ⟨n, templateBody_of_append read (by omega), ?_⟩
  rw [List.take_append_of_le_length (by omega)]

end Literals

section Lines

variable (ends : AtLineEnd more)
include ends

theorem regexLiteral_of_append {r : Reading (String × String)}
    (h : regexLiteral (text ++ more) = .ok r) (inside : r.size ≤ text.length) (nonempty : text ≠ []) :
    regexLiteral text = .ok r := by
  obtain ⟨slash, rest, rfl⟩ := List.exists_cons_of_ne_nil nonempty
  rw [List.cons_append,regexLiteral_cons] at h
  obtain ⟨size, body, rfl⟩ := map_eq_ok.mp h
  simp only [List.length_cons] at inside
  rw [regexLiteral_cons]
  refine map_eq_ok.mpr ⟨size, regexBody_of_append body (by omega), ?_⟩
  rw [List.take_append_of_le_length (by omega),List.drop_append_of_le_length (by omega),
    runLength,runLength,takeWhile_append_atLineEnd isNameContinue_feed ends]

theorem slashToken_of_append {last : Option Token} {r : Reading Token}
    (h : slashToken last (text ++ more) = .ok r) (inside : r.size ≤ text.length)
    (nonempty : text ≠ []) : slashToken last text = .ok r := by
  unfold slashToken at h ⊢
  split at h
  next regex =>
    obtain ⟨literal, read, rfl⟩ := map_eq_ok.mp h
    rw [if_pos regex]
    exact map_eq_ok.mpr ⟨literal, regexLiteral_of_append ends read inside nonempty, rfl⟩
  next division =>
    rw [if_neg division]
    match text with
    | [] => exact absurd rfl nonempty
    | [c] => obtain rfl | ⟨rest, rfl⟩ := atLineEnd_iff.mp ends <;> simpa using h
    | c :: d :: rest =>
      by_cases equals : d = '='
      · subst equals
        exact h
      · simpa [equals] using h

/-- A token that ends within a text. -/
theorem readToken_of_append {start : Place} {last : Option Token} {c : Char} {rest : List Char}
    {r : Reading Token} (h : readToken start last c (rest ++ more) = .ok r)
    (inside : r.size ≤ (c :: rest).length) : readToken start last c rest = .ok r := by
  have digit : (rest ++ more).head?.any Char.isDigit = rest.head?.any Char.isDigit :=
    head?_append_atLineEnd (by decide) ends
  simp only [readToken,digit] at h ⊢
  split at h
  next quote =>
    obtain ⟨literal, read, rfl⟩ := map_eq_ok.mp (mapError_eq_ok.mp h)
    rw [← List.cons_append] at read
    rw [if_pos quote]
    exact mapError_eq_ok.mpr (map_eq_ok.mpr
      ⟨literal, stringLiteral_of_append read inside (List.cons_ne_nil c rest), rfl⟩)
  next notQuote =>
  rw [if_neg notQuote]
  split at h
  next tick =>
    obtain ⟨literal, read, rfl⟩ := map_eq_ok.mp h
    rw [← List.cons_append] at read
    rw [if_pos tick]
    exact map_eq_ok.mpr
      ⟨literal, templateLiteral_of_append read inside (List.cons_ne_nil c rest), rfl⟩
  next notTick =>
  rw [if_neg notTick]
  split at h
  next number =>
    rw [if_pos number]
    rwa [← List.cons_append,numberLiteral_atLineEnd ends] at h
  next notNumber =>
  rw [if_neg notNumber]
  split at h
  next name =>
    rw [if_pos name]
    rwa [← List.cons_append,takeWhile_append_atLineEnd isNameContinue_feed ends] at h
  next notName =>
  rw [if_neg notName]
  split at h
  next => cases h
  next notEscape =>
  rw [if_neg notEscape]
  split at h
  next slash =>
    have read := mapError_eq_ok.mp h
    rw [← List.cons_append] at read
    rw [if_pos slash]
    exact mapError_eq_ok.mpr (slashToken_of_append ends read inside (List.cons_ne_nil c rest))
  next notSlash =>
  rw [if_neg notSlash]
  rwa [← List.cons_append,punctuator?_atLineEnd ends (List.cons_ne_nil c rest)] at h

end Lines

section Gaps

/-- Neither a blank nor a comment stands at the front of a text. -/
def Solid : List Char → Prop
  | [] => True
  | c :: rest => isGapChar c = false ∧
      (c = '/' → rest.head?.any (fun d => d = '/' || d = '*') = false)

theorem solid_of_gapLength {here : Place} {size : Nat} (h : gapLength here text = .ok size) :
    Solid (text.drop size) := by
  fun_induction gapLength here text generalizing size with
  | case1 here rest run =>
    rename_i ih
    obtain ⟨n, found, rfl⟩ := map_eq_ok.mp h
    simp only [run,Nat.add_sub_cancel_left] at ih found ⊢
    rw [(cut_opened '/' '/' rest _ n).2]
    exact ih found
  | case2 => cases h
  | case3 here rest body closed run =>
    rename_i ih
    obtain ⟨n, found, rfl⟩ := map_eq_ok.mp h
    rw [(cut_opened '/' '*' rest body n).2]
    exact ih found
  | case4 here c rest noLine noBlock blank ih =>
    obtain ⟨n, found, rfl⟩ := map_eq_ok.mp h
    rw [Nat.add_comm]
    exact ih found
  | case5 here c rest noLine noBlock solid =>
    cases h
    exact ⟨by simpa using solid, no_comment noLine noBlock⟩
  | case6 =>
    cases h
    trivial

theorem commentBody_of_first {body rest : List Char} (first : ¬ ['*', '/'] <:+: body) :
    commentBody (body ++ '*' :: '/' :: rest) = some (body.length + 2) := by
  induction body with
  | nil => rfl
  | cons c body ih =>
    have later := ih fun inside => first (inside.trans (List.suffix_cons c body).isInfix)
    have open_ : ∀ tail, c = '*' → body ++ '*' :: '/' :: rest = '/' :: tail → False := by
      intro tail star slash
      cases body with
      | nil => cases slash
      | cons d body =>
        obtain ⟨rfl, -⟩ := List.cons.inj slash
        exact first ⟨[], body, by simp [star]⟩
    rw [List.cons_append,commentBody.eq_3 _ _ open_,later]
    simp only [Option.map_some,List.length_cons]
    congr 1
    omega

/-- A gap is read up to what is no gap. -/
theorem gapLength_of_gap {gap rest : List Char} (h : Gap rest gap) (solid : Solid rest)
    (here : Place) : gapLength here (gap ++ rest) = .ok gap.length := by
  induction h generalizing here with
  | nil =>
    cases rest with
    | nil => rw [List.nil_append,gapLength]; rfl
    | cons c rest => exact gapLength_solid solid.1 solid.2
  | blank isBlank _ ih =>
    rw [List.cons_append,gapLength_blank (isGapChar_iff.mpr isBlank)]
    exact map_eq_ok.mpr ⟨_, ih _, Nat.add_comm _ _⟩
  | @line body gap single ends _ ih =>
    have run : runLength (· ≠ '\n') (body ++ (gap ++ rest)) = body.length := by
      rw [runLength,takeWhile_append_atLineEnd (by decide) ends,List.takeWhile_eq_self_iff.mpr]
      intro c member
      simp only [ne_eq,decide_not,Bool.not_eq_eq_eq_not,Bool.not_true,decide_eq_false_iff_not]
      rintro rfl
      exact single member
    simp only [List.cons_append,List.append_assoc,gapLength_line,run,List.drop_left]
    refine map_eq_ok.mpr ⟨_, ih _, ?_⟩
    simp only [List.length_cons,List.length_append]
    omega
  | @block body gap first _ ih =>
    have closed : commentBody (body ++ '*' :: '/' :: (gap ++ rest)) = some (body.length + 2) :=
      commentBody_of_first first
    have later : (body ++ '*' :: '/' :: (gap ++ rest)).drop (body.length + 2) = gap ++ rest :=
      List.drop_length_add_append 2
    simp only [List.cons_append,List.append_assoc,gapLength_block closed,later]
    refine map_eq_ok.mpr ⟨_, ih _, ?_⟩
    simp only [List.length_cons,List.length_append]
    omega

theorem gapLength_iff {here : Place} {gap rest : List Char} :
    gapLength here (gap ++ rest) = .ok gap.length ↔ Gap rest gap ∧ Solid rest := by
  constructor
  · intro h
    have gap' := gap_of_gapLength h
    have solid := solid_of_gapLength h
    rw [List.drop_left] at gap' solid
    rw [List.take_left] at gap'
    exact ⟨gap', solid⟩
  · exact fun ⟨h, solid⟩ => gapLength_of_gap h solid here

/-- Only whether something stands behind a gap matters to it. -/
theorem Gap.swap {gap rest rest' : List Char} (same : rest'.head? = rest.head?)
    (h : Gap rest gap) : Gap rest' gap := by
  induction h with
  | nil => exact .nil
  | blank isBlank _ ih => exact .blank isBlank ih
  | @line body gap single ends _ ih =>
    refine .line single ?_ ih
    rw [AtLineEnd,← List.head?_eq_none_iff,List.head?_append,same,← List.head?_append,
      List.head?_eq_none_iff]
    exact ends
  | block first _ ih => exact .block first ih

theorem Gap.alone {gap rest : List Char} (h : Gap rest gap) : Gap [] gap := by
  induction h with
  | nil => exact .nil
  | blank isBlank _ ih => exact .blank isBlank ih
  | line single ends _ ih => exact .line single (AtLineEnd.of_prefix ends (by simp)) ih
  | block first _ ih => exact .block first ih

theorem solid_append (ends : AtLineEnd more) (nonempty : text ≠ []) :
    Solid (text ++ more) ↔ Solid text := by
  obtain ⟨c, rest, rfl⟩ := List.exists_cons_of_ne_nil nonempty
  rw [List.cons_append,Solid,Solid,
    head?_append_atLineEnd (p := fun d => d = '/' || d = '*') (by decide) ends]

/-- A gap that something stands behind on its line does not depend on the next lines. -/
theorem gapLength_atLineEnd {here here' : Place} {gap rest : List Char} (ends : AtLineEnd more)
    (nonempty : rest ≠ []) : gapLength here (gap ++ (rest ++ more)) = .ok gap.length ↔
      gapLength here' (gap ++ rest) = .ok gap.length := by
  have same : (rest ++ more).head? = rest.head? := by
    obtain ⟨c, rest, rfl⟩ := List.exists_cons_of_ne_nil nonempty
    rfl
  rw [gapLength_iff,gapLength_iff,solid_append ends nonempty]
  exact and_congr_left fun _ => ⟨Gap.swap same.symm, Gap.swap same⟩

end Gaps

namespace Lexed

variable {here : Place} {last : Option Token} {ls : List Lexeme}

/-- A first token is among the lexemes. -/
theorem uncons {gap chars rest : List Char} {c : Char} {token : Token}
    (h : Lexed here last (gap ++ c :: (chars ++ rest)) ls)
    (length : gapLength here (gap ++ c :: (chars ++ rest)) = .ok gap.length)
    (read : readToken (here.afterAll gap) last c (chars ++ rest) = .ok ⟨token, chars.length + 1⟩) :
    ∃ newline ls', Lexed (here.afterAll (gap ++ c :: chars)) (some token) rest ls' ∧
      ls = ⟨token, ⟨here.afterAll gap, here.afterAll (gap ++ c :: chars)⟩, newline⟩ :: ls' := by
  have place : (here.afterAll gap).afterAll (c :: chars) = here.afterAll (gap ++ c :: chars) :=
    (Place.afterAll_append here gap (c :: chars)).symm
  rw [← lexed_iff,lexemes.eq_def] at h
  simp only [length] at h
  split at h
  next next => simp at next
  next next =>
    rw [List.drop_left] at next
    obtain ⟨rfl, rfl⟩ := List.cons.inj next
    simp only [List.take_left,read,List.take_succ_cons,Nat.add_sub_cancel,List.drop_left,place] at h
    split at h
    next => cases h
    next later =>
      cases h
      exact ⟨_, _, lexed_of_lexemes later, rfl⟩

theorem le_start (h : Lexed here last text ls) :
    ∀ l ∈ ls, here.offset ≤ l.span.start.offset := by
  induction h with
  | done =>
    intro l member
    obtain rfl := List.mem_singleton.mp member
    simp [Place.offset_afterAll]
  | token _ _ _ ih =>
    intro l member
    obtain rfl | member := List.mem_cons.mp member
    · simp [Place.offset_afterAll]
    · have := ih l member
      rw [Place.offset_afterAll] at this
      omega

end Lexed

/-- A name or a dot is on one line. -/
theorem single_line_of_link {start : Place} {last : Option Token} {c : Char} {rest : List Char}
    {r : Reading Token} (h : readToken start last c rest = .ok r)
    (link : r.value = .dot ∨ r.value = .questionDot ∨ ∃ word, r.value = .word word) :
    '\n' ∉ (c :: rest).take r.size := by
  cases shape_of_readToken h with
  | plain _ all => exact fun feed => all _ feed (by decide)
  | _ => simp at link

/-- What goes on behind a line has its line feed. -/
theorem feed_of_past {line tail chars rest : List Char} (whole : line ++ tail = chars ++ rest)
    (ends : AtLineEnd tail) (past : line.length < chars.length) :
    ∃ more, chars = line ++ '\n' :: more := by
  obtain ⟨excess, rfl, rfl⟩ | ⟨excess, rfl, -⟩ := List.append_eq_append_iff.mp whole
  · cases excess with
    | nil => simp at past
    | cons d more =>
      obtain rfl : d = '\n' := by simpa [AtLineEnd] using ends
      exact ⟨more, rfl⟩
  · simp only [List.length_append] at past
    omega

/-- Two texts that agree up to the end of a line have the same names and dots up to there. -/
theorem Lexed.shared {here here' : Place} {last : Option Token} {line tail tail' : List Char}
    {ls ls' : List Lexeme} (h : Lexed here last (line ++ tail) ls)
    (h' : Lexed here' last (line ++ tail') ls') (ends : AtLineEnd tail) (ends' : AtLineEnd tail')
    {l : Lexeme} (member : l ∈ ls) (starts : l.span.start.offset < here.offset + byteLength line)
    (link : l.token = .dot ∨ l.token = .questionDot ∨ ∃ word, l.token = .word word) :
    ∃ l' ∈ ls', l'.token = l.token ∧
      l'.span.start.offset + here.offset = l.span.start.offset + here'.offset ∧
      l'.span.stop.offset + here.offset = l.span.stop.offset + here'.offset := by
  generalize whole : line ++ tail = text at h
  induction h generalizing here' line ls' with
  | done => 
    obtain rfl := List.mem_singleton.mp member
    simp at link
  | @token here last gap chars rest c token ls length read later ih =>
    by_cases inside : (gap ++ c :: chars).length ≤ line.length
    · -- The token is on the lines that both texts have.
      obtain ⟨line, rfl⟩ : ∃ more, line = (gap ++ c :: chars) ++ more := by
        have begins : (gap ++ c :: chars) <+: line ++ tail := ⟨rest, by simp [whole]⟩
        obtain ⟨more, rfl⟩ := List.prefix_of_prefix_length_le begins (List.prefix_append line tail)
          inside
        exact ⟨more, rfl⟩
      obtain rfl : rest = line ++ tail := by simpa using whole.symm
      have text (end_ : List Char) : gap ++ c :: chars ++ line ++ end_ =
          gap ++ (c :: (chars ++ line) ++ end_) := by simp
      have text' (end_ : List Char) : gap ++ (c :: (chars ++ line) ++ end_) =
          gap ++ c :: (chars ++ (line ++ end_)) := by simp
      have length' : gapLength here' (gap ++ (c :: (chars ++ line) ++ tail')) = .ok gap.length := by
        rw [← text'] at length
        have alone : gapLength here (gap ++ c :: (chars ++ line)) = .ok gap.length :=
          (gapLength_atLineEnd ends (by simp)).mp length
        exact (gapLength_atLineEnd ends' (by simp)).mpr alone
      have read' : readToken (here'.afterAll gap) last c (chars ++ (line ++ tail')) =
          .ok ⟨token, chars.length + 1⟩ := by
        rw [← List.append_assoc] at read ⊢
        have alone := readToken_of_append ends read (by simp)
        exact (readToken_append ends' (here'.afterAll gap) alone rfl).2
      rw [text,text'] at h'
      rw [text'] at length'
      obtain ⟨newline, ls', later', rfl⟩ := h'.uncons length' read'
      obtain rfl | member := List.mem_cons.mp member
      · refine ⟨_, List.mem_cons_self, rfl, ?_, ?_⟩
        all_goals
          simp only [Place.offset_afterAll]
          omega
      · simp only [byteLength_append] at starts
        obtain ⟨l', member', token', start, stop⟩ := ih later' member (by
          simp only [Place.offset_afterAll,byteLength_append]
          omega) rfl
        simp only [Place.offset_afterAll] at start stop
        exact ⟨l', List.mem_cons_of_mem _ member', token', by omega, by omega⟩
    · -- The token goes on behind the line, so there is a line feed in it, or it is a later one.
      exfalso
      have cut : line ++ tail = (gap ++ c :: chars) ++ rest := by simp [whole]
      obtain ⟨more, past⟩ := feed_of_past cut ends (by omega)
      obtain rfl | member := List.mem_cons.mp member
      · have single := single_line_of_link read link
        rw [List.take_succ_cons,List.take_left] at single
        simp only [Place.offset_afterAll] at starts
        obtain ⟨chars', rfl, rest'⟩ | ⟨excess, rfl, -⟩ := List.append_eq_append_iff.mp past
        · rw [rest'] at single
          exact single (by simp)
        · simp only [byteLength_append] at starts
          omega
      · have after := later.le_start l member
        rw [Place.offset_afterAll,past,byteLength_append] at after
        omega

end CodeCompletion
