import CodeCompletion.Proofs.Token.Extent

/-! What a token is made of. A literal is read up to what closes it, a slash is a division after
a value, and every other token has nothing in it that opens a literal or a comment or that
ends a line. -/
namespace CodeCompletion

variable {text : List Char}

/-- A character that opens no literal and no comment and ends no line. -/
def Plain (c : Char) : Prop := c ∉ ['\n', '/', '"', '\'', '\x60']

instance (c : Char) : Decidable (Plain c) := inferInstanceAs (Decidable (_ ∉ _))

def AllPlain (size : Nat) (text : List Char) : Prop := ∀ c ∈ text.take size, Plain c

section Numbers

theorem allPlain_zero (text : List Char) : AllPlain 0 text := by
  simp [AllPlain]

theorem AllPlain.add {a b : Nat} (first : AllPlain a text) (later : AllPlain b (text.drop a)) :
    AllPlain (a + b) text := by
  intro c member
  rw [List.take_add,List.mem_append] at member
  exact member.elim (first c) (later c)

theorem AllPlain.cons {c : Char} {size : Nat} (first : Plain c) (later : AllPlain size text) :
    AllPlain (1 + size) (c :: text) := by
  intro d member
  rw [Nat.add_comm,List.take_succ_cons,List.mem_cons] at member
  obtain rfl | member := member
  · exact first
  · exact later d member

theorem allPlain_runLength {p : Char → Bool}
    (excluded : ['\n', '/', '"', '\'', '\x60'].any p = false) (text : List Char) :
    AllPlain (runLength p text) text := by
  intro c member special
  rw [take_runLength] at member
  exact List.any_eq_false.mp excluded c special (List.mem_takeWhile_imp member)

theorem allPlain_digitRun {base : Nat} (text : List Char) :
    AllPlain (digitRun base text).size text := by
  apply allPlain_runLength
  simp [digitValue?,hexValue?]

theorem allPlain_fractionPart (text : List Char) : AllPlain (fractionPart text).size text := by
  unfold fractionPart
  split
  next rest => exact .cons (by decide) (allPlain_digitRun rest)
  next => exact allPlain_zero text

theorem allPlain_exponentDigits {sign : Int} {before : Nat} {r : Reading Int}
    (h : exponentDigits sign before text = .ok r) :
    ∃ size, r.size = before + size ∧ AllPlain size text := by
  unfold exponentDigits at h
  split at h
  next =>
    cases h
    exact ⟨_, rfl, allPlain_digitRun text⟩
  next => cases h

theorem allPlain_exponentPart {r : Reading Int} (h : exponentPart text = .ok r) :
    AllPlain r.size text := by
  unfold exponentPart at h
  split at h
  next =>
    cases h
    exact allPlain_zero _
  next e rest =>
    split at h
    next marked =>
      have mark : Plain e := by obtain rfl | rfl := marked <;> decide
      split at h
      all_goals obtain ⟨size, taken, digits⟩ := allPlain_exponentDigits h
      all_goals rw [taken]
      · rw [show 2 + size = 1 + (1 + size) by omega]
        exact .cons mark (.cons (by decide) digits)
      · rw [show 2 + size = 1 + (1 + size) by omega]
        exact .cons mark (.cons (by decide) digits)
      · exact .cons mark digits
    next =>
      cases h
      exact allPlain_zero _

theorem allPlain_numberDigits {r : Reading Binary64} (h : numberDigits text = .ok r) :
    AllPlain r.size text := by
  unfold numberDigits at h
  split at h
  next base announced =>
    obtain ⟨digits, read, rfl⟩ := map_eq_ok.mp h
    have run : AllPlain digits.size (text.drop 2) := by
      have size : digits.size = (digitRun base (text.drop 2)).size := by
        simp only [announcedNumber] at read
        split at read
        next => cases read
        next =>
          split at read <;> cases read
          rfl
      rw [size]
      exact allPlain_digitRun _
    unfold announcedBase? at announced
    split at announced
    next letter rest =>
      have mark : Plain letter := by
        split at announced
        next hex => obtain rfl | rfl := hex <;> decide
        next =>
        split at announced
        next octal => obtain rfl | rfl := octal <;> decide
        next =>
        split at announced
        next binary => obtain rfl | rfl := binary <;> decide
        next => cases announced
      exact AllPlain.add (AllPlain.cons (by decide) (.cons mark (allPlain_zero rest))) run
    next => cases announced
  next =>
    simp only [decimalNumber] at h
    split at h
    next => cases h
    next exponent read =>
      cases h
      exact ((allPlain_digitRun text).add (allPlain_fractionPart _)).add
        (allPlain_exponentPart read)

theorem allPlain_numberLiteral {r : Reading Binary64} (h : numberLiteral text = .ok r) :
    AllPlain r.size text := by
  simp only [numberLiteral] at h
  split at h
  next => cases h
  next digits read =>
    have size : r.size =
        digits.size + (if (text.drop digits.size).head? = some 'n' then 1 else 0) := by
      generalize digits.size + _ = size at h
      split at h <;> cases h
      rfl
    rw [size]
    refine (allPlain_numberDigits read).add ?_
    split
    next big =>
      obtain ⟨rest, same⟩ := List.head?_eq_some_iff.mp big
      rw [same]
      exact .cons (by decide) (allPlain_zero rest)
    next => exact allPlain_zero _

end Numbers

theorem allPlain_name (text : List Char) : AllPlain (runLength isNameContinue text) text :=
  allPlain_runLength (by decide) text

theorem punctuators_plain : ∀ entry ∈ punctuators, ∀ c ∈ entry.1, Plain c := by
  have all : (punctuators.all fun entry => entry.1.all fun c => decide (Plain c)) = true := by decide
  intro entry member c inside
  exact of_decide_eq_true (List.all_eq_true.mp (List.all_eq_true.mp all entry member) c inside)

theorem allPlain_punctuator? {r : Reading Token} (h : punctuator? text = some r) :
    AllPlain r.size text := by
  unfold punctuator? at h
  split at h
  next digit rest =>
    have mark : AllPlain 1 ('?' :: '.' :: digit :: rest) :=
      .cons (by decide) (allPlain_zero _)
    split at h <;> cases h
    · exact mark
    · exact mark.add (.cons (by decide) (allPlain_zero _))
  next =>
    obtain ⟨entry, found, rfl⟩ := Option.map_eq_some_iff.mp h
    have begins : entry.1 <+: text := by simpa using List.find?_some found
    intro c member
    rw [← List.prefix_iff_eq_take.mp begins] at member
    exact punctuators_plain entry (List.mem_of_find?_eq_some found) c member

inductive TokenShape (last : Option Token) : List Char → Reading Token → Prop where
  | string {quote : Char} {rest : List Char} {body : Reading (List Char)} :
      quote = '"' ∨ quote = '\'' → stringBody quote rest = .ok body →
      TokenShape last (quote :: rest) ⟨.str (String.ofList body.value), 1 + body.size⟩
  | template {start here : Place} {rest : List Char} {size : Nat} {raw : String} :
      templateBody start here 0 rest = .ok size →
      TokenShape last ('\x60' :: rest) ⟨.template raw, 1 + size⟩
  | regex {rest : List Char} {size : Nat} {pattern flags : String} :
      Token.allowsRegex last = true → regexBody false rest = .ok size →
      TokenShape last ('/' :: rest)
        ⟨.regex pattern flags, 1 + size + runLength isNameContinue (rest.drop size)⟩
  | division {rest : List Char} : Token.allowsRegex last = false →
      TokenShape last ('/' :: rest) ⟨.op "/", 1⟩
  | divisionAssignment {rest : List Char} : Token.allowsRegex last = false →
      TokenShape last ('/' :: '=' :: rest) ⟨.op "/=", 2⟩
  | plain {c : Char} {rest : List Char} {r : Reading Token} : Plain c →
      AllPlain r.size (c :: rest) → TokenShape last (c :: rest) r

theorem shape_of_slashToken {last : Option Token} {rest : List Char} {r : Reading Token}
    (h : slashToken last ('/' :: rest) = .ok r) : TokenShape last ('/' :: rest) r := by
  unfold slashToken at h
  split at h
  next allowed =>
    obtain ⟨literal, read, rfl⟩ := map_eq_ok.mp h
    rw [regexLiteral_cons] at read
    obtain ⟨size, body, rfl⟩ := map_eq_ok.mp read
    exact .regex allowed body
  next value =>
    have value : Token.allowsRegex last = false := by simpa using value
    split at h
    next start =>
      cases h
      obtain ⟨rfl, rfl⟩ := List.cons.inj start
      exact .divisionAssignment value
    next =>
      cases h
      exact .division value

theorem shape_of_readToken {start : Place} {last : Option Token} {c : Char} {rest : List Char}
    {r : Reading Token} (h : readToken start last c rest = .ok r) : TokenShape last (c :: rest) r := by
  have taken := (readToken_ok h).1
  have plain : AllPlain r.size (c :: rest) → TokenShape last (c :: rest) r := by
    intro all
    refine .plain (all c ?_) all
    obtain ⟨value, _ | n⟩ := r
    · exact absurd taken (Nat.lt_irrefl 0)
    · simp
  simp only [readToken] at h
  split at h
  next quote =>
    obtain ⟨literal, read, rfl⟩ := map_eq_ok.mp (mapError_eq_ok.mp h)
    obtain ⟨body, closed, rfl⟩ := map_eq_ok.mp read
    exact .string quote closed
  next =>
  split at h
  next tick =>
    obtain ⟨literal, read, rfl⟩ := map_eq_ok.mp h
    rw [templateLiteral_cons] at read
    obtain ⟨size, closed, rfl⟩ := map_eq_ok.mp read
    subst tick
    exact .template closed
  next =>
  split at h
  next =>
    obtain ⟨literal, read, rfl⟩ := map_eq_ok.mp (mapError_eq_ok.mp h)
    exact plain (allPlain_numberLiteral read)
  next =>
  split at h
  next =>
    cases h
    exact plain (allPlain_name _)
  next =>
  split at h
  next => cases h
  next =>
  split at h
  next slash =>
    subst slash
    exact shape_of_slashToken (mapError_eq_ok.mp h)
  next =>
  split at h
  next found =>
    cases h
    exact plain (allPlain_punctuator? found)
  next => cases h

end CodeCompletion
