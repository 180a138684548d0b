import CodeCompletion.Text.CharClass
import CodeCompletion.Token.Reading

/-! Numeric literals: decimal ones, and whole numbers in base 16, 8 or 2 that fit in 64 bits.
Underscores between digits are skipped, and an `n` may end any of them. -/
namespace CodeCompletion

open SyntaxError.Reason

def announcedBase? : List Char → Option Nat
  | '0' :: letter :: _ =>
    if letter = 'x' ∨ letter = 'X' then some 16
    else if letter = 'o' ∨ letter = 'O' then some 8
    else if letter = 'b' ∨ letter = 'B' then some 2
    else none
  | _ => none

/-- A run of digits of a base, underscores among them skipped. The run may be empty. -/
def digitRun (base : Nat) (text : List Char) : Reading (List Char) :=
  let run := text.takeWhile fun c => c = '_' || (digitValue? base c).isSome
  ⟨run.filter (· ≠ '_'), run.length⟩

def decimalValue (digits : List Char) : Nat :=
  (digitsValue? 10 digits).getD 0

def largestWord : Nat := 0xffffffffffffffff

def announcedNumber (base : Nat) : Reader Binary64 := fun text =>
  let run := digitRun base text
  match run.value with
  | [] => .error missingDigits
  | digits =>
    let n := (digitsValue? base digits).getD 0
    if n ≤ largestWord then .ok ⟨Binary64.ofNat n, run.size⟩
    else .error (numberTooLarge (String.ofList digits))

/-- A fraction: a point and the digits after it. Without a point it is empty. -/
def fractionPart : List Char → Reading (List Char)
  | '.' :: rest =>
    let run := digitRun 10 rest
    ⟨run.value, 1 + run.size⟩
  | _ => ⟨[], 0⟩

/-- The digits of an exponent after its sign; the first character must be a digit. -/
def exponentDigits (sign : Int) (before : Nat) (text : List Char) :
    Except SyntaxError.Reason (Reading Int) :=
  if text.head?.any Char.isDigit then
    let run := digitRun 10 text
    .ok ⟨sign * decimalValue run.value, before + run.size⟩
  else .error missingExponent

def exponentPart : Reader Int
  | [] => .ok ⟨0, 0⟩
  | e :: rest =>
    if e = 'e' ∨ e = 'E' then
      match rest with
      | '+' :: rest => exponentDigits 1 2 rest
      | '-' :: rest => exponentDigits (-1) 2 rest
      | _ => exponentDigits 1 1 rest
    else .ok ⟨0, 0⟩

def decimalNumber : Reader Binary64 := fun text =>
  let whole := digitRun 10 text
  let fraction := fractionPart (text.drop whole.size)
  let size := whole.size + fraction.size
  match exponentPart (text.drop size) with
  | .error reason => .error reason
  | .ok exponent =>
    let digits := decimalValue (whole.value ++ fraction.value)
    .ok ⟨Binary64.ofDecimal digits (exponent.value - fraction.value.length),
      size + exponent.size⟩

def numberDigits : Reader Binary64 := fun text =>
  match announcedBase? text with
  | some base => (announcedNumber base (text.drop 2)).map fun r => ⟨r.value, 2 + r.size⟩
  | none => decimalNumber text

/-- A numeric literal. No name may follow it directly. -/
def numberLiteral : Reader Binary64 := fun text =>
  match numberDigits text with
  | .error reason => .error reason
  | .ok digits =>
    let suffix := if (text.drop digits.size).head? = some 'n' then 1 else 0
    let size := digits.size + suffix
    if (text.drop size).head?.any isNameStart then .error nameAfterNumber
    else .ok ⟨digits.value, size⟩

end CodeCompletion
