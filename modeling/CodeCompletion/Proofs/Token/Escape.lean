import CodeCompletion.Proofs.Token.Length
import CodeCompletion.Token.StringLiteral
import Mathlib.Data.List.Forall2
import Mathlib.Data.List.Induction
import Mathlib.Data.Nat.Digits.Defs

/-! What may stand between the quotes of a string. The escapes are told by a grammar, and the
reader of strings takes exactly the texts of that grammar and fails on all others. -/
namespace CodeCompletion

open SyntaxError.Reason

section Numerals

def HexDigit (c : Char) (value : Nat) : Prop :=
  "0123456789abcdef".toList[value]? = some c ∨ "0123456789ABCDEF".toList[value]? = some c

instance (c : Char) (value : Nat) : Decidable (HexDigit c value) :=
  inferInstanceAs (Decidable (_ ∨ _))

/-- A hexadecimal number. Its last digit has the least weight. -/
def HexNumeral (digits : List Char) (n : Nat) : Prop :=
  ∃ values, List.Forall₂ HexDigit digits.reverse values ∧ Nat.ofDigits 16 values = n

theorem hexValue?_codes : ∀ n < 128, ∀ value < 16,
    hexValue? (Char.ofNat n) = some value ↔ HexDigit (Char.ofNat n) value := by
  decide +kernel

theorem HexDigit.small {c : Char} {value : Nat} (h : HexDigit c value) :
    c.toNat < 128 ∧ value < 16 := by
  have ascii : ("0123456789abcdef".toList ++ "0123456789ABCDEF".toList).all (·.toNat < 128) := by
    decide
  refine ⟨of_decide_eq_true (List.all_eq_true.mp ascii c ?_), ?_⟩
  · exact List.mem_append.mpr (h.imp List.mem_of_getElem? List.mem_of_getElem?)
  · rcases h with h | h
    all_goals exact (List.getElem?_eq_some_iff.mp h).1

theorem small_of_hexValue? {c : Char} {value : Nat} (h : hexValue? c = some value) :
    c.toNat < 128 ∧ value < 16 := by
  have code (d : Char) : d ≤ c ↔ d.toNat ≤ c.toNat := Iff.rfl
  have code' (d : Char) : c ≤ d ↔ c.toNat ≤ d.toNat := Iff.rfl
  simp only [hexValue?,code,code',Char.reduceToNat] at h
  grind

theorem hexValue?_eq_some {c : Char} {value : Nat} :
    hexValue? c = some value ↔ HexDigit c value := by
  have known (small : c.toNat < 128 ∧ value < 16) := hexValue?_codes c.toNat small.1 value small.2
  rw [Char.ofNat_toNat] at known
  exact ⟨fun h => (known (small_of_hexValue? h)).mp h, fun h => (known h.small).mpr h⟩

theorem digitValue?_eq_some {c : Char} {value : Nat} :
    digitValue? 16 c = some value ↔ HexDigit c value := by
  rw [digitValue?,Option.filter_eq_some_iff,hexValue?_eq_some]
  exact ⟨And.left, fun h => ⟨h, by simpa using h.small.2⟩⟩

theorem hexNumeral_nil {n : Nat} : HexNumeral [] n ↔ n = 0 := by
  simp [HexNumeral,eq_comm]

theorem hexNumeral_append {digits : List Char} {c : Char} {n : Nat} :
    HexNumeral (digits ++ [c]) n ↔
      ∃ m value, HexNumeral digits m ∧ HexDigit c value ∧ m * 16 + value = n := by
  simp only [HexNumeral,List.reverse_append,List.reverse_singleton,List.singleton_append,
    List.forall₂_cons_left_iff]
  constructor
  · rintro ⟨_, ⟨value, values, digit, spelled, rfl⟩, rfl⟩
    refine ⟨_, value, ⟨values, spelled, rfl⟩, digit, ?_⟩
    simp [Nat.ofDigits_cons]
    omega
  · rintro ⟨_, value, ⟨values, spelled, rfl⟩, digit, rfl⟩
    refine ⟨_, ⟨value, values, digit, spelled, rfl⟩, ?_⟩
    simp [Nat.ofDigits_cons]
    omega

/-- Numbers are read digit by digit. -/
theorem digitsValue?_eq_some {digits : List Char} {n : Nat} :
    digitsValue? 16 digits = some n ↔ HexNumeral digits n := by
  induction digits using List.reverseRecOn generalizing n with
  | nil => simp [digitsValue?,hexNumeral_nil,eq_comm]
  | append_singleton digits c ih =>
    have read : digitsValue? 16 (digits ++ [c]) =
        (digitsValue? 16 digits).bind fun m => (digitValue? 16 c).map (m * 16 + ·) := by
      simp [digitsValue?,List.foldlM_append]
    simp only [read,hexNumeral_append,Option.bind_eq_some_iff,Option.map_eq_some_iff,ih,
      digitValue?_eq_some,← exists_and_left]

end Numerals

section Escapes

variable {text rest : List Char}

def letterEscapes : List (Char × Char) :=
  [('n', '\n'), ('t', '\t'), ('r', '\r'), ('b', '\x08'), ('f', '\x0c'), ('v', '\x0b')]

/-- The character of a number with four digits. A surrogate has none of its own. -/
def UnitCharacter (n : Nat) (c : Char) : Prop :=
  c.toNat = n ∨ 0xd800 ≤ n ∧ n ≤ 0xdfff ∧ c = '\uFFFD'

inductive Braced : List Char → Char → Prop where
  | plain {digits : List Char} {c : Char} (nonempty : digits ≠ [])
      (spelled : HexNumeral digits c.toNat) : Braced digits c
  | signed {digits : List Char} {c : Char} (nonempty : digits ≠ [])
      (spelled : HexNumeral digits c.toNat) : Braced ('+' :: digits) c

/-- What stands after a backslash and before `rest`, and the characters it stands for. -/
inductive Escape (rest : List Char) : List Char → List Char → Prop where
  | letter {c value : Char} (listed : (c, value) ∈ letterEscapes) : Escape rest [c] [value]
  | null (alone : rest.head?.any Char.isDigit = false) : Escape rest ['0'] ['\x00']
  | zero (continued : rest.head?.any Char.isDigit = true) : Escape rest ['0'] ['0']
  | feed : Escape rest ['\n'] []
  | returnFeed : Escape rest ['\r', '\n'] []
  | carriageReturn (alone : rest.head? ≠ some '\n') : Escape rest ['\r'] []
  | byte {digits : List Char} {c : Char} (two : digits.length = 2)
      (spelled : HexNumeral digits c.toNat) : Escape rest ('x' :: digits) [c]
  | unit {digits : List Char} {n : Nat} {c : Char} (four : digits.length = 4)
      (spelled : HexNumeral digits n) (named : UnitCharacter n c) : Escape rest ('u' :: digits) [c]
  | braced {content : List Char} {c : Char} (named : Braced content c) :
      Escape rest ('u' :: '\x7b' :: (content ++ ['\x7d'])) [c]
  | other {c : Char} (plain : c ∉ ['n', 't', 'r', 'b', 'f', 'v', '0', '\n', '\r', 'x', 'u']) :
      Escape rest [c] [c]

theorem charOfCode?_eq_some {n : Nat} {c : Char} : charOfCode? n = some c ↔ c.toNat = n := by
  by_cases valid : n.isValidChar
  · rw [charOfCode?,dif_pos valid,Option.some_inj]
    constructor
    · rintro rfl
      rfl
    · rintro rfl
      exact Char.ext rfl
  · rw [charOfCode?,dif_neg valid]
    constructor
    · rintro ⟨⟩
    · rintro rfl
      exact absurd c.valid valid

theorem HexNumeral.lt {digits : List Char} {n : Nat} (h : HexNumeral digits n) :
    n < 16 ^ digits.length := by
  induction digits using List.reverseRecOn generalizing n with
  | nil => simp [hexNumeral_nil.mp h]
  | append_singleton digits c ih =>
    obtain ⟨m, value, spelled, digit, rfl⟩ := hexNumeral_append.mp h
    have front := ih spelled
    have last := digit.small.2
    rw [List.length_append,List.length_singleton,Nat.pow_succ]
    omega

theorem HexNumeral.digit {digits : List Char} {n : Nat} (h : HexNumeral digits n) :
    ∀ c ∈ digits, ∃ value, HexDigit c value := by
  induction digits using List.reverseRecOn generalizing n with
  | nil => simp
  | append_singleton digits c ih =>
    obtain ⟨m, value, spelled, digit, -⟩ := hexNumeral_append.mp h
    intro d member
    rcases List.mem_append.mp member with earlier | last
    · exact ih spelled d earlier
    · obtain rfl := List.mem_singleton.mp last
      exact ⟨value, digit⟩

/-- Neither braces nor a plus sign are digits. -/
theorem HexNumeral.no_sign {digits : List Char} {n : Nat} (h : HexNumeral digits n) :
    ∀ c ∈ ['\x7b', '\x7d', '+'], c ∉ digits := by
  have signs : ['\x7b', '\x7d', '+'].all fun c => (hexValue? c).isNone := by decide
  intro c sign member
  obtain ⟨value, digit⟩ := h.digit c member
  have none := List.all_eq_true.mp signs c sign
  rw [hexValue?_eq_some.mpr digit] at none
  cases none

theorem hexCharacter_eq_ok {count : Nat} {c : Char} : hexCharacter count text = .ok c ↔
    ∃ digits rest n, text = digits ++ rest ∧ digits.length = count ∧ HexNumeral digits n ∧
      (charOfCode? n).getD '\uFFFD' = c := by
  constructor
  · intro h
    simp only [hexCharacter] at h
    split at h
    next full =>
      split at h
      next n spelled =>
        exact ⟨_, _, n, (List.take_append_drop count text).symm, full,
          digitsValue?_eq_some.mp spelled, Except.ok.inj h⟩
      next => cases h
    next => cases h
  · rintro ⟨digits, rest, n, rfl, rfl, spelled, rfl⟩
    simp [hexCharacter,digitsValue?_eq_some.mpr spelled]

theorem reason_of_hexCharacter {count : Nat} {reason : SyntaxError.Reason}
    (h : hexCharacter count text = .error reason) : reason = invalidHexEscape := by
  grind [hexCharacter]

theorem charOfCode?_getD {n : Nat} {c : Char} : (charOfCode? n).getD '\uFFFD' = c ↔
    c.toNat = n ∨ ¬ n.isValidChar ∧ c = '\uFFFD' := by
  rw [← charOfCode?_eq_some]
  by_cases valid : n.isValidChar
  · rw [charOfCode?,dif_pos valid]
    exact ⟨fun same => Or.inl (congrArg some same), fun same =>
      same.elim Option.some.inj fun other => absurd valid other.1⟩
  · rw [charOfCode?,dif_neg valid]
    simp [valid,eq_comm]

/-- Two digits always name a character. -/
theorem byteCharacter {digits : List Char} {n : Nat} {c : Char} (spelled : HexNumeral digits n)
    (two : digits.length = 2) : (charOfCode? n).getD '\uFFFD' = c ↔ c.toNat = n := by
  have small : n < 16 ^ 2 := two ▸ spelled.lt
  have valid : n.isValidChar := Or.inl (by omega)
  simp [charOfCode?_getD,valid]

theorem unitCharacter {digits : List Char} {n : Nat} {c : Char} (spelled : HexNumeral digits n)
    (four : digits.length = 4) : (charOfCode? n).getD '\uFFFD' = c ↔ UnitCharacter n c := by
  have small : n < 16 ^ 4 := four ▸ spelled.lt
  have surrogate : ¬ n.isValidChar ↔ 0xd800 ≤ n ∧ n ≤ 0xdfff := by
    unfold Nat.isValidChar
    omega
  rw [charOfCode?_getD,surrogate,UnitCharacter,and_assoc]

theorem braced_iff {content : List Char} {c : Char} :
    (codeInBraces? content).bind charOfCode? = some c ↔ Braced content c := by
  have read (digits : List Char) :
      (if digits.isEmpty then none else digitsValue? 16 digits).bind charOfCode? = some c ↔
        digits ≠ [] ∧ HexNumeral digits c.toNat := by
    cases digits with
    | nil => simp
    | cons d digits =>
      simp [Option.bind_eq_some_iff,digitsValue?_eq_some,charOfCode?_eq_some]
  constructor
  · intro h
    unfold codeInBraces? at h
    dsimp only at h
    split at h
    next digits =>
      obtain ⟨nonempty, spelled⟩ := (read digits).mp h
      exact .signed nonempty spelled
    next =>
      obtain ⟨nonempty, spelled⟩ := (read content).mp h
      exact .plain nonempty spelled
  · rintro (⟨nonempty, spelled⟩ | ⟨nonempty, spelled⟩)
    · have unsigned : ∀ tail, content ≠ '+' :: tail := by
        rintro tail rfl
        exact spelled.no_sign '+' (by decide) List.mem_cons_self
      unfold codeInBraces?
      dsimp only
      split
      next tail => exact absurd rfl (unsigned tail)
      next => exact (read content).mpr ⟨nonempty, spelled⟩
    · exact (read _).mpr ⟨nonempty, spelled⟩

/-- The closing brace of an escape is the first one. -/
theorem Braced.no_brace {content : List Char} {c : Char} (h : Braced content c) :
    '\x7d' ∉ content := by
  rcases h with ⟨-, spelled⟩ | ⟨-, spelled⟩
  · exact spelled.no_sign _ (by decide)
  · have inside := spelled.no_sign '\x7d' (by decide)
    simpa using inside

/-- A run that does not reach the end of a text stops before the character it avoids. -/
theorem takeWhile_ne_of_stops {stop : Char}
    (stops : (text.takeWhile (· ≠ stop)).length < text.length) :
    ∃ rest, text = text.takeWhile (· ≠ stop) ++ stop :: rest := by
  have split := List.takeWhile_append_dropWhile (p := (· ≠ stop)) (l := text)
  have first := List.head?_dropWhile_not (· ≠ stop) text
  cases after : text.dropWhile (· ≠ stop) with
  | nil =>
    rw [after,List.append_nil] at split
    rw [split] at stops
    exact absurd stops (Nat.lt_irrefl _)
  | cons c rest =>
    rw [after] at split first
    obtain rfl : c = stop := by simpa using first
    exact ⟨rest, split.symm⟩

theorem takeWhile_ne_append {run : List Char} {stop : Char} (inside : stop ∉ run)
    (rest : List Char) : (run ++ stop :: rest).takeWhile (· ≠ stop) = run := by
  have all : ∀ c ∈ run, decide (c ≠ stop) = true := by
    intro c member
    exact decide_eq_true (ne_of_mem_of_not_mem member inside)
  rw [List.takeWhile_append_of_pos all]
  simp

/-- Whatever is taken for an escape is one. -/
theorem escape_sound {e : Reading (List Char)} (h : escape text = .ok e) :
    ∃ written rest, text = written ++ rest ∧ e.size = written.length ∧
      Escape rest written e.value := by
  unfold escape at h
  split at h
  case h_1 => cases h
  case h_2 | h_3 | h_4 | h_5 | h_6 | h_7 =>
    cases h
    exact ⟨[_], _, rfl, rfl, .letter (by decide)⟩
  case h_8 rest =>
    split at h
    next continued =>
      cases h
      exact ⟨['0'], rest, rfl, rfl, .zero continued⟩
    next alone =>
      cases h
      exact ⟨['0'], rest, rfl, rfl, .null (eq_false_of_ne_true alone)⟩
  case h_9 rest =>
    cases h
    exact ⟨['\n'], rest, rfl, rfl, .feed⟩
  case h_10 rest =>
    cases h
    exact ⟨['\r', '\n'], rest, rfl, rfl, .returnFeed⟩
  case h_11 rest alone =>
    cases h
    refine ⟨['\r'], rest, rfl, rfl, .carriageReturn fun feed => ?_⟩
    obtain ⟨tail, rfl⟩ := List.head?_eq_some_iff.mp feed
    exact alone tail rfl
  case h_12 =>
    obtain ⟨c, read, rfl⟩ := map_eq_ok.mp h
    obtain ⟨digits, rest, n, rfl, two, spelled, named⟩ := hexCharacter_eq_ok.mp read
    obtain rfl := (byteCharacter spelled two).mp named
    exact ⟨'x' :: digits, rest, rfl, by simp [two], .byte two spelled⟩
  case h_13 =>
    dsimp only at h
    split at h
    next closed =>
      obtain ⟨rest, whole⟩ := takeWhile_ne_of_stops closed
      split at h
      next c named =>
        cases h
        refine ⟨_, rest, ?_, ?_, .braced (braced_iff.mp named)⟩
        · rw [List.cons_append,List.cons_append,List.append_assoc]
          exact congrArg ('u' :: '\x7b' :: ·) whole
        · simp
      next => cases h
    next => cases h
  case h_14 =>
    obtain ⟨c, read, rfl⟩ := map_eq_ok.mp h
    obtain ⟨digits, rest, n, rfl, four, spelled, named⟩ := hexCharacter_eq_ok.mp read
    exact ⟨'u' :: digits, rest, rfl, by simp [four],
      .unit four spelled ((unitCharacter spelled four).mp named)⟩
  case h_15 =>
    cases h
    refine ⟨[_], _, rfl, rfl, .other ?_⟩
    simp only [List.mem_cons,List.not_mem_nil]
    tauto

/-- Every escape is taken for what it is. -/
theorem escape_complete {written value : List Char} (h : Escape rest written value) :
    escape (written ++ rest) = .ok ⟨value, written.length⟩ := by
  cases h with
  | letter listed =>
    simp only [letterEscapes,List.mem_cons,Prod.mk.injEq,List.not_mem_nil,or_false] at listed
    rcases listed with ⟨rfl, rfl⟩ | ⟨rfl, rfl⟩ | ⟨rfl, rfl⟩ | ⟨rfl, rfl⟩ | ⟨rfl, rfl⟩ | ⟨rfl, rfl⟩
    all_goals rfl
  | null alone => simp [escape,alone]
  | zero continued => simp [escape,continued]
  | feed => rfl
  | returnFeed => rfl
  | carriageReturn alone =>
    cases rest with
    | nil => rfl
    | cons d rest =>
      have other : d ≠ '\n' := by simpa using alone
      simp [escape,other]
  | byte two spelled =>
    have read := hexCharacter_eq_ok.mpr
      ⟨_, rest, _, rfl, two, spelled, (byteCharacter spelled two).mpr rfl⟩
    simp [escape,read,two,Except.map]
  | @unit digits n c four spelled named =>
    have read := hexCharacter_eq_ok.mpr
      ⟨_, rest, _, rfl, four, spelled, (unitCharacter spelled four).mpr named⟩
    have unbraced : ∀ tail, digits ++ rest ≠ '\x7b' :: tail := by
      intro tail same
      obtain ⟨d, digits, rfl⟩ := List.exists_cons_of_length_eq_add_one four
      obtain ⟨rfl, -⟩ := List.cons.inj same
      exact spelled.no_sign _ (by decide) List.mem_cons_self
    rw [List.cons_append,escape.eq_14 _ unbraced,read]
    simp [four,Except.map]
  | @braced content c named =>
    have run : (content ++ '\x7d' :: rest).takeWhile (· ≠ '\x7d') = content :=
      takeWhile_ne_append named.no_brace rest
    have whole : 'u' :: '\x7b' :: (content ++ ['\x7d']) ++ rest =
        'u' :: '\x7b' :: (content ++ '\x7d' :: rest) := by simp
    rw [whole,escape.eq_13]
    simp only [run,braced_iff.mpr named]
    simp
  | @other c plain =>
    simp only [List.mem_cons,List.not_mem_nil,or_false,not_or] at plain
    simp [escape,plain]

def escapeFaults : List SyntaxError.Reason :=
  [unterminatedEscape, invalidHexEscape, unterminatedUnicodeEscape, invalidUnicodeEscape]

theorem fault_of_escape {reason : SyntaxError.Reason} (h : escape text = .error reason) :
    reason ∈ escapeFaults := by
  have hex {count size : Nat} {text : List Char}
      (failed : (hexCharacter count text).map (fun c => (⟨[c], size⟩ : Reading (List Char))) =
        .error reason) : reason = invalidHexEscape := by
    cases read : hexCharacter count text with
    | ok c =>
      rw [read] at failed
      cases failed
    | error r =>
      rw [read] at failed
      cases failed
      exact reason_of_hexCharacter read
  unfold escape at h
  split at h
  case h_1 =>
    cases h
    decide
  case h_8 => split at h <;> cases h
  case h_12 | h_14 =>
    rw [hex h]
    decide
  case h_13 =>
    dsimp only at h
    split at h
    next =>
      split at h
      next => cases h
      next =>
        cases h
        decide
    next =>
      cases h
      decide
  all_goals cases h

/-- No other text is taken for an escape. -/
theorem escape_fails
    (none : ∀ written rest value, text = written ++ rest → ¬ Escape rest written value) :
    ∃ reason ∈ escapeFaults, escape text = .error reason := by
  cases read : escape text with
  | error reason => exact ⟨reason, fault_of_escape read, rfl⟩
  | ok e =>
    obtain ⟨written, rest, whole, -, found⟩ := escape_sound read
    exact absurd found (none written rest e.value whole)

end Escapes

section Strings

variable {quote : Char} {rest : List Char}

inductive StringText (quote : Char) (rest : List Char) : List Char → List Char → Prop where
  | nil : StringText quote rest [] []
  | plain {c : Char} {text value : List Char} (other : c ≠ quote) (unescaped : c ≠ '\\')
      (inLine : c ≠ '\n') (later : StringText quote rest text value) :
      StringText quote rest (c :: text) (c :: value)
  | escape {written stands text value : List Char} (first : Escape (text ++ rest) written stands)
      (later : StringText quote rest text value) :
      StringText quote rest ('\\' :: (written ++ text)) (stands ++ value)

/-- Whatever is read as a string is one, up to its closing quote. -/
theorem stringBody_sound {text : List Char} {b : Reading (List Char)}
    (h : stringBody quote text = .ok b) : ∃ body after, text = body ++ quote :: after ∧
      b.size = body.length + 1 ∧ StringText quote (quote :: after) body b.value := by
  fun_induction stringBody quote text generalizing b with
  | case1 | case2 | case4 | case5 | case7 => cases h
  | case3 rest =>
    cases h
    exact ⟨[], rest, rfl, rfl, .nil⟩
  | case6 rest e found b later _ _ ih =>
    cases h
    obtain ⟨written, tail, rfl, size, first⟩ := escape_sound found
    rw [size,List.drop_left] at ih later
    obtain ⟨body, after, rfl, length, spelled⟩ := ih later
    refine ⟨'\\' :: (written ++ body), after, by simp, ?_, .escape first spelled⟩
    simp only [size,length,List.length_cons,List.length_append]
    omega
  | case8 c rest inLine other unescaped b later ih =>
    cases h
    obtain ⟨body, after, rfl, length, spelled⟩ := ih later
    refine ⟨c :: body, after, rfl, ?_, .plain other unescaped inLine spelled⟩
    simp only [length,List.length_cons]
    omega

theorem backslash_ne_quote (quotes : quote = '"' ∨ quote = '\'') : '\\' ≠ quote := by
  rcases quotes with rfl | rfl <;> decide

/-- The reader takes the text of a string for what it stands for and goes on behind it. -/
theorem stringBody_append_of_text {body value : List Char} (quotes : quote = '"' ∨ quote = '\'')
    (h : StringText quote rest body value) : stringBody quote (body ++ rest) =
      (stringBody quote rest).map fun b => ⟨value ++ b.value, body.length + b.size⟩ := by
  have slash := backslash_ne_quote quotes
  induction h with
  | nil =>
    rw [List.nil_append]
    cases stringBody quote rest <;> simp [Except.map]
  | plain other unescaped inLine later ih =>
    rw [List.cons_append,stringBody]
    simp only [other,unescaped,inLine,if_false,ih]
    cases stringBody quote rest with
    | error reason => rfl
    | ok b => simp [Except.map,Nat.add_assoc,Nat.add_comm 1,Nat.add_left_comm]
  | @escape written stands text value first later ih =>
    rw [List.cons_append,List.append_assoc,stringBody]
    simp only [escape_complete first,slash,(by decide : '\\' ≠ '\n'),if_false,if_true,List.drop_left,
      ih]
    cases stringBody quote rest with
    | error reason => rfl
    | ok b => simp [Except.map,Nat.add_assoc,Nat.add_comm 1,Nat.add_left_comm]

end Strings

end CodeCompletion
