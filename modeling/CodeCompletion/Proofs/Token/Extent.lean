import CodeCompletion.Proofs.Token.Length

/-! Every token takes up text. -/
namespace CodeCompletion

theorem size_stringLiteral {text : List Char} {r : Reading String}
    (h : stringLiteral text = .ok r) : 0 < r.size := by
  cases text with
  | nil => cases h
  | cons quote rest =>
    obtain ⟨body, _, rfl⟩ := map_eq_ok.mp h
    simp only
    omega

theorem size_templateLiteral {start : Place} {text : List Char} {r : Reading String}
    (h : templateLiteral start text = .ok r) : 0 < r.size := by
  cases text with
  | nil => cases h
  | cons tick rest =>
    rw [templateLiteral_cons] at h
    obtain ⟨size, _, rfl⟩ := map_eq_ok.mp h
    simp only
    omega

theorem size_regexLiteral {text : List Char} {r : Reading (String × String)}
    (h : regexLiteral text = .ok r) : 0 < r.size := by
  cases text with
  | nil => cases h
  | cons slash rest =>
    rw [regexLiteral_cons] at h
    obtain ⟨size, _, rfl⟩ := map_eq_ok.mp h
    simp only
    omega

theorem digitValue?_of_isDigit {c : Char} (digit : c.isDigit = true) :
    (digitValue? 10 c).isSome = true := by
  have range : '0' ≤ c ∧ c ≤ '9' := by
    simpa [Char.isDigit,Char.le_def] using digit
  have upper : c.toNat ≤ 57 := range.2
  have small : c.toNat - 48 < 10 := by omega
  simp [digitValue?,hexValue?,range,small]

/-- A run of decimal digits takes up at least the digit it starts with. -/
theorem size_digitRun {c : Char} (rest : List Char) (digit : c.isDigit = true) :
    0 < (digitRun 10 (c :: rest)).size := by
  simp [digitRun,digitValue?_of_isDigit digit]

/-- A number starts with a digit, or with a point before one. -/
theorem size_decimalNumber {c : Char} {rest : List Char} {r : Reading Binary64}
    (starts : c.isDigit = true ∨ c = '.') (h : decimalNumber (c :: rest) = .ok r) :
    0 < r.size := by
  have whole : 0 < (digitRun 10 (c :: rest)).size ∨
      0 < (fractionPart ((c :: rest).drop (digitRun 10 (c :: rest)).size)).size := by
    rcases starts with digit | rfl
    · exact Or.inl (size_digitRun rest digit)
    · rcases Nat.eq_zero_or_pos (digitRun 10 ('.' :: rest)).size with none | some
      · rw [none]
        exact Or.inr (by simp only [List.drop_zero,fractionPart]; omega)
      · exact Or.inl some
  simp only [decimalNumber] at h
  split at h <;> cases h
  simp only
  omega

theorem size_numberLiteral {c : Char} {rest : List Char} {r : Reading Binary64}
    (starts : c.isDigit = true ∨ c = '.') (h : numberLiteral (c :: rest) = .ok r) :
    0 < r.size := by
  simp only [numberLiteral] at h
  split at h
  · cases h
  · rename_i digits read
    have : 0 < digits.size := by
      unfold numberDigits at read
      split at read
      · obtain ⟨announced, _, rfl⟩ := map_eq_ok.mp read
        simp only
        omega
      · exact size_decimalNumber starts read
    split at h <;> split at h <;> cases h <;> simp only <;> omega

theorem punctuators_nonempty :
    ∀ entry ∈ punctuators, 0 < entry.1.length ∧ entry.2 ≠ .endOfInput := by
  decide

theorem size_punctuator {text : List Char} {r : Reading Token}
    (h : punctuator? text = some r) : 0 < r.size ∧ r.value ≠ .endOfInput := by
  unfold punctuator? at h
  split at h
  · split at h <;> cases h <;> exact ⟨Nat.succ_pos _, nofun⟩
  · obtain ⟨entry, found, rfl⟩ := Option.map_eq_some_iff.mp h
    exact punctuators_nonempty entry (List.mem_of_find?_eq_some found)

theorem size_slashToken {last : Option Token} {text : List Char} {r : Reading Token}
    (h : slashToken last text = .ok r) : 0 < r.size ∧ r.value ≠ .endOfInput := by
  unfold slashToken at h
  split at h
  · obtain ⟨regex, found, rfl⟩ := map_eq_ok.mp h
    exact ⟨size_regexLiteral found, nofun⟩
  · split at h <;> cases h <;> exact ⟨Nat.succ_pos _, nofun⟩

theorem mapError_eq_ok {ε ε' α : Type} {x : Except ε α} {f : ε → ε'} {a : α} :
    x.mapError f = .ok a ↔ x = .ok a := by
  cases x <;> simp [Except.mapError]

/-- A token takes up text, and none but the last lexeme is the end of input. -/
theorem readToken_ok {start : Place} {last : Option Token} {c : Char} {rest : List Char}
    {r : Reading Token} (h : readToken start last c rest = .ok r) :
    0 < r.size ∧ r.value ≠ .endOfInput := by
  simp only [readToken] at h
  split at h
  · obtain ⟨literal, read, rfl⟩ := map_eq_ok.mp (mapError_eq_ok.mp h)
    exact ⟨size_stringLiteral read, nofun⟩
  split at h
  · obtain ⟨literal, read, rfl⟩ := map_eq_ok.mp h
    exact ⟨size_templateLiteral read, nofun⟩
  split at h
  · rename_i number
    obtain ⟨literal, read, rfl⟩ := map_eq_ok.mp (mapError_eq_ok.mp h)
    exact ⟨size_numberLiteral (number.imp_right And.left) read, nofun⟩
  split at h
  · rename_i name
    cases h
    exact ⟨by simp [isNameContinue_of_isNameStart name], nofun⟩
  split at h
  · cases h
  split at h
  · exact size_slashToken (mapError_eq_ok.mp h)
  · split at h
    · cases h
      exact size_punctuator ‹_›
    · cases h

end CodeCompletion
