import CodeCompletion.Number.Binary64

/-! The shortest decimal that reads back as a given binary64 number. Decimal grids are tried from
coarse to fine; on each one the two neighbours of the value are tested against the interval of
reals that round to it. The first grid with a hit wins, of two hits the nearer one, and an exact
tie goes up. -/
namespace CodeCompletion

/-- `digits * 10 ^ exponent`. -/
structure Decimal where
  digits : Nat
  exponent : Int
deriving DecidableEq

namespace Binary64

/-- A positive value and the interval of reals that round to it, over one denominator. -/
structure Interval where
  low : Nat
  value : Nat
  high : Nat
  denominator : Nat
  /-- Whether the two ends round to the value themselves. -/
  closed : Bool

/-- Half a unit to both sides, but only a quarter below a power of two whose lower
neighbour lies in a finer binade. -/
def interval (x : Binary64) : Interval :=
  let ⟨m, q⟩ := x.parts
  let below := if m = hiddenBit ∧ leastExponent < q then 1 else 2
  let (scale, denominator) :=
    match q - 2 with
    | .ofNat k => (Nat.pow 2 k, 1)
    | .negSucc k => (1, Nat.pow 2 (k + 1))
  { low := (4 * m - below) * scale
    value := 4 * m * scale
    high := (4 * m + 2) * scale
    denominator
    closed := m % 2 = 0 }

def Interval.holds (i : Interval) (n d : Nat) : Bool :=
  if i.closed then i.low * d ≤ n * i.denominator && n * i.denominator ≤ i.high * d
  else i.low * d < n * i.denominator && n * i.denominator < i.high * d

/-- The multiple of `10 ^ exponent` in the interval that is nearest to the value. -/
def Interval.onGrid? (i : Interval) (exponent : Int) : Option Nat :=
  let (up, down) :=
    match exponent with
    | .ofNat k => (Nat.pow 10 k, 1)
    | .negSucc k => (1, Nat.pow 10 (k + 1))
  let floor := i.value * down / (i.denominator * up)
  let holds n := i.holds (n * up) down
  let upper := 2 * i.value * down < (2 * floor + 1) * (i.denominator * up)
  match holds floor, holds (floor + 1) with
  | true, true => some (if upper then floor else floor + 1)
  | true, false => some floor
  | false, true => some (floor + 1)
  | false, false => none

/-- The first hit on the grids `10 ^ exponent`, `10 ^ (exponent - 1)`, and so on. -/
def Interval.search (i : Interval) : Nat → Int → Decimal
  | 0, exponent => ⟨0, exponent⟩
  | tries + 1, exponent =>
    match i.onGrid? exponent with
    | some digits => ⟨digits, exponent⟩
    | none => i.search tries (exponent - 1)

/-- A power of ten above the number, and by less than a factor of ten thousand. -/
def decimalBound (p : Parts) : Int :=
  ((Nat.log2 p.significand : Int) + p.exponent + 1) * 30103 / 100000 + 2

/-- The shortest decimal that reads back as a finite number. Seventeen digits always
suffice, and the search starts at most four places above the first of them. -/
def shortest (x : Binary64) : Decimal :=
  if x.bits = 0 then ⟨0, 0⟩
  else x.interval.search 24 (decimalBound x.parts)

end Binary64

end CodeCompletion
