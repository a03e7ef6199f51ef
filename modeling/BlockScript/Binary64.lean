/-! Finite binary64 numbers in exact arithmetic: rounding a ratio to the nearest of them, a half to
the even neighbour, and from that multiplication, division and the scaling of a decimal. -/

namespace BlockScript

/-- The significand and exponent of a finite binary64 number, each number having one such pair:
normal significands have 53 bits, subnormal ones fewer with the least exponent. -/
def IsBinary64 (significand : Nat) (exponent : Int) : Prop :=
  significand < 1 <<< 53 ∧ -1074 ≤ exponent ∧ exponent ≤ 971 ∧
    (1 <<< 52 ≤ significand ∨ exponent = -1074)

instance (m : Nat) (e : Int) : Decidable (IsBinary64 m e) :=
  inferInstanceAs (Decidable (_ ∧ _ ∧ _ ∧ (_ ∨ _)))

/-- The number `significand * 2 ^ exponent` with a sign; zero has a sign too. -/
structure Binary64 where
  negative : Bool
  significand : Nat
  exponent : Int
  canonical : IsBinary64 significand exponent
deriving DecidableEq

namespace Binary64

def zero (negative : Bool) : Binary64 := ⟨negative, 0, -1074, by decide⟩

instance : Inhabited Binary64 := ⟨zero false⟩

def isZero (x : Binary64) : Bool := x.significand == 0

/-- Equality of numbers: the two zeros are equal. -/
def sameAs (x y : Binary64) : Bool := x == y || (x.isZero && y.isZero)

def withSign (negative : Bool) (x : Binary64) : Binary64 := { x with negative }

end Binary64

/-- The natural number nearest to `num / den`, a half going to the even one. -/
def nearest (num den : Nat) : Nat :=
  let q := num / den
  let r := num % den
  if den < 2 * r ∨ (2 * r = den ∧ q % 2 = 1) then q + 1 else q

/-- Numerator and denominator of `num / den * 2 ^ shift`. -/
def scaleRatio (num den : Nat) (shift : Int) : Nat × Nat :=
  if 0 ≤ shift then (num <<< shift.toNat, den) else (num, den <<< (-shift).toNat)

namespace Binary64

/-- The exponent at which `num / den` has a 53-bit significand, or the least exponent if it is
smaller than that. -/
def exponentOf (num den : Nat) : Int :=
  let low := max ((num.log2 : Int) - den.log2 - 53) (-1074)
  let (n, d) := scaleRatio num den (-low)
  if n < d <<< 53 then low else low + 1

/-- The nonnegative number nearest to `num / den`, or `none` if that lies beyond the largest. -/
def ofRatio? (num den : Nat) : Option Binary64 :=
  if num = 0 then some (zero false) else
  let e := exponentOf num den
  let (n, d) := scaleRatio num den (-e)
  let m := nearest n d
  let (m, e) := if m = 1 <<< 53 then (1 <<< 52, e + 1) else (m, e)
  if h : IsBinary64 m e then some ⟨false, m, e, h⟩ else none

def mul? (x y : Binary64) : Option Binary64 :=
  let (n, d) := scaleRatio (x.significand * y.significand) 1 (x.exponent + y.exponent)
  (ofRatio? n d).map (withSign (x.negative != y.negative))

def div? (x y : Binary64) : Option Binary64 :=
  let (n, d) := scaleRatio x.significand y.significand (x.exponent - y.exponent)
  (ofRatio? n d).map (withSign (x.negative != y.negative))

/-- The number nearest to `10 ^ k`. -/
def powerOfTen? (k : Nat) : Option Binary64 := ofRatio? (Nat.pow 10 k) 1

/-- The largest power of ten that is finite. -/
def decades : Nat := 308

/-- The quotient `x / 10 ^ k`, at most 308 decades at a time and rounded after each division. -/
def scaleDown? (x : Binary64) (k : Nat) : Option Binary64 :=
  if k ≤ decades then do x.div? (← powerOfTen? k)
  else if x.isZero then some x
  else do
    let y ← x.div? (← powerOfTen? decades)
    y.scaleDown? (k - decades)
termination_by k
decreasing_by simp only [decades] at *; omega

/-- The number `significand * 10 ^ exponent`, rounded after each of three steps: the significand,
the power of ten and their product or quotient. `none` if the result is not finite. -/
def ofDecimal? (significand : Nat) (exponent : Int) : Option Binary64 := do
  let x ← ofRatio? significand 1
  if exponent < 0 then x.scaleDown? exponent.natAbs
  else if x.isZero then some x
  else if exponent.toNat ≤ decades then x.mul? (← powerOfTen? exponent.toNat)
  else none

end Binary64

end BlockScript
