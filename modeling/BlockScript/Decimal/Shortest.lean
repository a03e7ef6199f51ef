import BlockScript.Binary64

/-! The shortest decimal that reads back as a given binary64 number: of all decimals that round to
the number those with the fewest digits, and of these the nearest. -/

namespace BlockScript

/-- The number `digits * 10 ^ power`. -/
structure Decimal where
  digits : Nat
  power : Int
deriving DecidableEq

namespace Decimal

/-- A positive number and the interval of reals that round to it, all over one denominator. -/
structure Rounding where
  value : Nat
  low : Nat
  high : Nat
  den : Nat
  /-- Whether the ends of the interval round to the number as well. -/
  closed : Bool

/-- The interval of a number reaches half way to its neighbours; the one below is half as far where
the exponent steps. Ends round to even significands. -/
def Rounding.of (x : Binary64) : Rounding :=
  let below := if x.significand = 1 <<< 52 ∧ x.exponent ≠ -1074 then 1 else 2
  let (unit, den) := scaleRatio 1 4 x.exponent
  ⟨4 * x.significand * unit, (4 * x.significand - below) * unit, (4 * x.significand + 2) * unit,
    den, x.significand % 2 == 0⟩

/-- Numerator and denominator of `10 ^ power`. -/
def gridUnit (power : Int) : Nat × Nat :=
  if 0 ≤ power then (Nat.pow 10 power.toNat, 1) else (1, Nat.pow 10 (-power).toNat)

/-- Whether `digits * 10 ^ power` rounds to the number. -/
def Rounding.admits (r : Rounding) (digits : Nat) (power : Int) : Bool :=
  let (up, down) := gridUnit power
  let point := digits * up * r.den
  if r.closed then r.low * down ≤ point && point ≤ r.high * down
  else r.low * down < point && point < r.high * down

/-- The better of the two multiples of `10 ^ power` around the number, if one rounds to it: the
nearer, and the even one of two equally near. -/
def Rounding.onGrid? (r : Rounding) (power : Int) : Option Decimal :=
  let (up, down) := gridUnit power
  let unit := up * r.den
  let below := r.value * down / unit
  let rest := r.value * down % unit
  match r.admits below power, r.admits (below + 1) power with
  | true, true =>
    if 2 * rest < unit ∨ (2 * rest = unit ∧ below % 2 = 0) then some ⟨below, power⟩
    else some ⟨below + 1, power⟩
  | true, false => some ⟨below, power⟩
  | false, true => some ⟨below + 1, power⟩
  | false, false => none

def digitCount (n : Nat) : Nat := (Nat.toDigits 10 n).length

/-- The power of ten of the leading digit of `num / den`. -/
def leadingPower (num den : Nat) : Int :=
  if den ≤ num then digitCount (num / den) - 1
  else -(digitCount ((den - 1) / num) : Int)

/-- The first grid with a hit, from the one with a single digit to the one with `fuel` more. -/
def Rounding.search (r : Rounding) : (fuel : Nat) → (power : Int) → Decimal
  | 0, power => (r.onGrid? power).getD ⟨0, power⟩
  | fuel + 1, power =>
    match r.onGrid? power with
    | some d => d
    | none => r.search fuel (power - 1)

/-- Seventeen digits tell any two binary64 numbers apart. -/
def maxDigits : Nat := 17

/-- The shortest decimal that rounds to the number, its sign left aside. -/
def shortest (x : Binary64) : Decimal :=
  let r := Rounding.of x
  r.search (maxDigits - 1) (leadingPower r.value r.den)

end Decimal

end BlockScript
