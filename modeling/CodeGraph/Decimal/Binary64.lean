/-!
# Binary64 numbers

The finite magnitudes of the 64-bit floating point format, computed with exactly. `nearest?` rounds
a ratio of natural numbers to the closest magnitude, a tie to the even one; `mul?` and `div?` round
the exact product and quotient in the same way.
-/

namespace CodeGraph

/-- A power of ten. -/
def tenTo (k : Nat) : Nat := Nat.pow 10 k

/-- The number `mantissa · 2 ^ exponent`. -/
structure Magnitude where
  mantissa : Nat
  exponent : Int
  deriving DecidableEq, Repr, Inhabited

namespace Magnitude

/-- The exponent of the least positive magnitude. -/
def leastExponent : Int := -1074

/-- The exponent of the greatest magnitudes. -/
def greatestExponent : Int := 971

/-- The ratio `num / den`, divided by `2 ^ e`. -/
def scaled (num den : Nat) (e : Int) : Nat × Nat :=
  if 0 ≤ e then (num, den <<< e.toNat) else (num <<< (-e).toNat, den)

/-- The quotient rounded to the nearest natural number, a tie to the even one. -/
def roundDiv (num den : Nat) : Nat :=
  let q := num / den
  let r := num % den
  if 2 * r < den ∨ (2 * r = den ∧ q % 2 = 0) then q else q + 1

/-- The exponent under which a positive ratio has a mantissa of 53 bits. -/
def binade (num den : Nat) : Int :=
  let guess : Int := (num.log2 : Int) - den.log2 - 52
  let (n, d) := scaled num den guess
  if n < d <<< 52 then guess - 1 else guess

/-- The magnitude nearest to a ratio, or none if the ratio is beyond the greatest. -/
def nearest? (num den : Nat) : Option Magnitude :=
  if num = 0 then some ⟨0, leastExponent⟩
  else
    let e := max (binade num den) leastExponent
    let (n, d) := scaled num den e
    let m := roundDiv n d
    let result := if m = 1 <<< 53 then ⟨1 <<< 52, e + 1⟩ else ⟨m, e⟩
    if result.exponent ≤ greatestExponent then some result else none

/-- The magnitude as a ratio. -/
def ratio (x : Magnitude) : Nat × Nat := scaled x.mantissa 1 (-x.exponent)

/-- The product, rounded. -/
def mul? (x y : Magnitude) : Option Magnitude :=
  let (a, b) := x.ratio
  let (c, d) := y.ratio
  nearest? (a * c) (b * d)

/-- The quotient by a positive magnitude, rounded. -/
def div? (x y : Magnitude) : Option Magnitude :=
  let (a, b) := x.ratio
  let (c, d) := y.ratio
  nearest? (a * d) (b * c)

/-- The magnitude nearest to `digits · 10 ^ exponent`. The bounds on the exponent, beyond which the
result is known, keep the powers of ten small. -/
def ofDecimal? (digits : Nat) (exponent : Int) : Option Magnitude :=
  let places : Int := (Nat.toDigits 10 digits).length
  if digits = 0 ∨ places + exponent < -330 then some ⟨0, leastExponent⟩
  else if 310 < places + exponent then none
  else if 0 ≤ exponent then nearest? (digits * tenTo exponent.toNat) 1
  else nearest? digits (tenTo (-exponent).toNat)

end Magnitude

/-- A number of the 64-bit floating point format. -/
inductive Binary64
  | finite (negative : Bool) (magnitude : Magnitude)
  | infinite (negative : Bool)
  | nan
  deriving DecidableEq, Repr, Inhabited

end CodeGraph
