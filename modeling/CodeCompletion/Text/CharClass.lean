import CodeCompletion.Text.Alphabetic
import CodeCompletion.Text.Numeral

/-! Character classes of source text. Letters and digits are those of Unicode, not of ASCII alone,
and blanks are the characters with the property White_Space. -/
namespace CodeCompletion

def blankRanges : Ranges :=
  [(0x85, 0x85), (0xa0, 0xa0), (0x1680, 0x1680), (0x2000, 0x200a), (0x2028, 0x2029),
    (0x202f, 0x202f), (0x205f, 0x205f), (0x3000, 0x3000)]

/-- White space: tab to carriage return, space, and the blanks outside ASCII. -/
def isBlank (c : Char) : Bool :=
  c = ' ' || 0x9 ≤ c.toNat && c.toNat ≤ 0xd || blankRanges.contains c.toNat

def isAlphabetic (c : Char) : Bool :=
  c.isAlpha || alphabeticRanges.contains c.toNat

def isNumeral (c : Char) : Bool :=
  c.isDigit || numeralRanges.contains c.toNat

def isNameStart (c : Char) : Bool :=
  isAlphabetic c || c = '_' || c = '$'

/-- Characters that can continue a name: those that begin one, numerals, and the two
joiners U+200C and U+200D. -/
def isNameContinue (c : Char) : Bool :=
  isAlphabetic c || isNumeral c || c = '_' || c = '$' || c.toNat = 0x200c || c.toNat = 0x200d

def hexValue? (c : Char) : Option Nat :=
  if '0' ≤ c ∧ c ≤ '9' then some (c.toNat - '0'.toNat)
  else if 'a' ≤ c ∧ c ≤ 'f' then some (c.toNat - 'a'.toNat + 10)
  else if 'A' ≤ c ∧ c ≤ 'F' then some (c.toNat - 'A'.toNat + 10)
  else none

def digitValue? (base : Nat) (c : Char) : Option Nat :=
  (hexValue? c).filter (· < base)

/-- The number that digits spell, most significant first; `none` when one is no digit of
the base. -/
def digitsValue? (base : Nat) (digits : List Char) : Option Nat :=
  digits.foldlM (fun n c => (digitValue? base c).map (n * base + ·)) 0

theorem isNameContinue_of_isNameStart {c : Char} (h : isNameStart c = true) :
    isNameContinue c = true := by
  simp only [isNameStart,Bool.or_eq_true] at h
  simp only [isNameContinue,Bool.or_eq_true]
  rcases h with (h | h) | h <;> simp [h]

end CodeCompletion
