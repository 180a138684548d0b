import CodeCompletion.Number.Shortest

/-! How a number is written out. Both layouts use the fewest digits that read back; one changes to
exponent form far from one and always shows a fraction, the other is positional throughout and
shows a fraction only where there is one. -/
namespace CodeCompletion

structure NumberLayout where
  /-- Whether a number whose first digit stands for `10 ^ n` is written with an exponent. -/
  exponential : Int → Bool
  /-- What ends a whole number in positional form. -/
  wholeSuffix : String
  infinity : String

namespace NumberLayout

def scientific (digits : List Char) (power : Int) : String :=
  let lead := String.ofList (digits.take 1)
  let rest := String.ofList (digits.drop 1)
  let fraction := if rest.isEmpty then "" else "." ++ rest
  lead ++ fraction ++ "e" ++ toString power

def positional (layout : NumberLayout) (digits : List Char) (exponent : Int) : String :=
  match exponent with
  | .ofNat k => String.ofList (digits ++ List.replicate k '0') ++ layout.wholeSuffix
  | .negSucc k =>
    let places := k + 1
    let padded := List.replicate (places + 1 - digits.length) '0' ++ digits
    let whole := padded.take (padded.length - places)
    let fraction := padded.drop (padded.length - places)
    String.ofList whole ++ "." ++ String.ofList fraction

def write (layout : NumberLayout) (x : Binary64) : String :=
  if x.isFinite then
    let ⟨digits, exponent⟩ := x.shortest
    let shown := Nat.toDigits 10 digits
    let power := exponent + (shown.length - 1 : Nat)
    if digits ≠ 0 && layout.exponential power then scientific shown power
    else layout.positional shown exponent
  else layout.infinity

/-- Exponent form below 10 ^ -4 and from 10 ^ 16 on, and always a fraction. -/
def diagnostic : NumberLayout where
  exponential power := power < -4 || 16 ≤ power
  wholeSuffix := ".0"
  infinity := "inf"

/-- Positional at every size, and a whole number without a fraction. -/
def plain : NumberLayout where
  exponential _ := false
  wholeSuffix := ""
  infinity := "inf"

end NumberLayout

/-- The largest whole number that a property key is written with below 10 ^ 21. -/
def largestKey : Nat := 0x7fffffffffffffff

/-- A number as a property key. Whole numbers below 10 ^ 21 stop at `largestKey`. -/
def Binary64.key (x : Binary64) : String :=
  match x.toNat? with
  | some n => if n < Nat.pow 10 21 then toString (min n largestKey) else NumberLayout.plain.write x
  | none => NumberLayout.plain.write x

end CodeCompletion
