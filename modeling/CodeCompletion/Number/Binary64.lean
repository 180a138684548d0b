/-! Non-negative binary64 numbers. A number is kept as its 64 bits, so equality is decidable and
every conversion is exact integer arithmetic: a ratio is rounded to the nearest number, a tie goes
to the even one, and what is too large becomes infinity. -/
namespace CodeCompletion

structure Binary64 where
  bits : UInt64
deriving DecidableEq, Inhabited

namespace Binary64

def fractionBits : Nat := 52

/-- Exponent of the last bit of the smallest numbers. -/
def leastExponent : Int := -1074

/-- The leading significand bit of a normal number, which is not stored. -/
def hiddenBit : Nat := Nat.pow 2 fractionBits

def infinityBits : Nat := 2047 * hiddenBit

def infinity : Binary64 := ⟨infinityBits.toUInt64⟩

def zero : Binary64 := ⟨0⟩

/-- Significand `m` and exponent `q` with value `m * 2 ^ q`. -/
structure Parts where
  significand : Nat
  exponent : Int
deriving DecidableEq

def isFinite (x : Binary64) : Bool :=
  x.bits.toNat < infinityBits

def parts (x : Binary64) : Parts :=
  let fraction := x.bits.toNat % hiddenBit
  let biased := x.bits.toNat / hiddenBit
  if biased = 0 then ⟨fraction, leastExponent⟩
  else ⟨hiddenBit + fraction, leastExponent + (biased - 1 : Nat)⟩

/-- `n / d` to the nearest whole number, a tie to the even one. -/
def roundHalfEven (n d : Nat) : Nat :=
  let q := n / d
  let r := n % d
  if 2 * r < d ∨ 2 * r = d ∧ q % 2 = 0 then q else q + 1

/-- `n / d` in units of `2 ^ exponent`, as a ratio of whole numbers. -/
def inUnits (n d : Nat) (exponent : Int) : Nat × Nat :=
  match exponent with
  | .ofNat k => (n, d * Nat.pow 2 k)
  | .negSucc k => (n * Nat.pow 2 (k + 1), d)

/-- The exponent for which `n / d` has 53 bits before the point, but no less than the
least exponent. -/
def unitExponent (n d : Nat) : Int :=
  let guess : Int := (Nat.log2 n : Int) - Nat.log2 d - fractionBits
  let (n', d') := inUnits n d guess
  let exponent := if n' / d' < hiddenBit then guess - 1 else guess
  max exponent leastExponent

def ofRatio (n d : Nat) : Binary64 :=
  if n = 0 then zero
  else
    let exponent := unitExponent n d
    let (n', d') := inUnits n d exponent
    -- A significand that rounds up to 2 ^ 53 carries into the exponent field.
    let bits := (exponent - leastExponent).toNat * hiddenBit + roundHalfEven n' d'
    if infinityBits ≤ bits then infinity else ⟨bits.toUInt64⟩

def ofNat (n : Nat) : Binary64 :=
  ofRatio n 1

/-- The number nearest to `digits * 10 ^ exponent`. Exponents far outside the range are
settled by size alone. -/
def ofDecimal (digits : Nat) (exponent : Int) : Binary64 :=
  if digits = 0 then zero
  else if 310 ≤ exponent then infinity
  else if exponent + (Nat.log2 digits / 3 + 1 : Nat) < -330 then zero
  else match exponent with
    | .ofNat k => ofRatio (digits * Nat.pow 10 k) 1
    | .negSucc k => ofRatio digits (Nat.pow 10 (k + 1))

def toNat? (x : Binary64) : Option Nat :=
  if x.isFinite then
    match x.parts with
    | ⟨m, .ofNat k⟩ => some (m * Nat.pow 2 k)
    | ⟨m, .negSucc k⟩ =>
      if m % Nat.pow 2 (k + 1) = 0 then some (m / Nat.pow 2 (k + 1)) else none
  else none

end Binary64

end CodeCompletion
