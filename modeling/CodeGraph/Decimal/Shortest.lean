import CodeGraph.Decimal.Binary64

/-!
# The shortest decimal form

A magnitude is written with the fewest digits that read back as the same magnitude, and of those
with the digits nearest to it. A `FloatStyle` says which decimal exponents are written out in full;
the others are written with an `e`.
-/

namespace CodeGraph

/-- The number `digits · 10 ^ exponent`. -/
structure DecimalForm where
  digits : Nat
  exponent : Int
  deriving DecidableEq, Repr, Inhabited

namespace Magnitude

/-- The greatest power of ten that is not above a positive ratio. -/
def decade (num den : Nat) : Int :=
  if den ≤ num then (Nat.toDigits 10 (num / den)).length - 1
  else
    let steps := (den + num - 1) / num - 1
    if steps = 0 then 0 else -((Nat.toDigits 10 steps).length : Int)

/-- Whether a ratio rounds to a positive magnitude: it lies between the middles to the two
neighbours, where the middles count if the mantissa is even. The lower neighbour of a power of two
is half as far away. -/
def readsAs (x : Magnitude) (num den : Nat) : Bool :=
  let (n, d) := scaled (4 * num) den x.exponent
  let low := if x.mantissa = 1 <<< 52 ∧ leastExponent < x.exponent then 4 * x.mantissa - 1
    else 4 * x.mantissa - 2
  let high := 4 * x.mantissa + 2
  if x.mantissa % 2 = 0 then low * d ≤ n && n ≤ high * d else low * d < n && n < high * d

end Magnitude

namespace DecimalForm

/-- The form as a ratio. -/
def ratio (x : DecimalForm) : Nat × Nat :=
  if 0 ≤ x.exponent then (x.digits * tenTo x.exponent.toNat, 1)
  else (x.digits, tenTo (-x.exponent).toNat)

/-- Whether the form reads back as a magnitude. -/
def reads (x : DecimalForm) (m : Magnitude) : Bool :=
  let (num, den) := x.ratio
  m.readsAs num den

/-- The form without zeros at the end of its digits. -/
def trim (x : DecimalForm) : DecimalForm :=
  let zeros := ((Nat.toDigits 10 x.digits).reverse.takeWhile (· == '0')).length
  ⟨x.digits / tenTo zeros, x.exponent + zeros⟩

end DecimalForm

namespace Magnitude

/-- The better of the two forms with the last digit at `exponent` that enclose a magnitude. -/
def onGrid? (x : Magnitude) (exponent : Int) : Option DecimalForm :=
  let (num, den) := x.ratio
  let (n, d) := if 0 ≤ exponent then (num, den * tenTo exponent.toNat)
    else (num * tenTo (-exponent).toNat, den)
  let q := n / d
  let below : DecimalForm := ⟨q, exponent⟩
  let above : DecimalForm := ⟨q + 1, exponent⟩
  let nearer := if 2 * (n % d) < d ∨ (2 * (n % d) = d ∧ q % 2 = 0) then below else above
  if nearer.reads x then some nearer
  else if below.reads x then some below
  else if above.reads x then some above
  else none

/-- The shortest form of a magnitude; seventeen digits always suffice. -/
def shortest (x : Magnitude) : DecimalForm :=
  if x.mantissa = 0 then ⟨0, 0⟩
  else
    let (num, den) := x.ratio
    let top := decade num den
    (((List.range 17).findSome? fun k : Nat => x.onGrid? (top - k)).map (·.trim)).getD ⟨0, 0⟩

end Magnitude

/-- How numbers are written. -/
structure FloatStyle where
  /-- Whether a number whose first digit stands at this power of ten is written out in full. -/
  positional : Int → Bool

namespace FloatStyle

/-- A number written out in full has at least one digit on either side of the point. -/
def writePositional (digits : List Char) (top : Int) : List Char :=
  if top < 0 then '0' :: '.' :: List.replicate (-top - 1).toNat '0' ++ digits
  else
    let whole := top.toNat + 1
    let fraction := digits.drop whole
    digits.take whole ++ List.replicate (whole - digits.length) '0' ++ '.' ::
      (if fraction.isEmpty then ['0'] else fraction)

/-- A number with an exponent has one digit before the point, and no point without more digits. -/
def writeScientific (digits : List Char) (top : Int) : List Char :=
  let fraction := if digits.length ≤ 1 then [] else '.' :: digits.drop 1
  digits.take 1 ++ fraction ++ 'e' :: (if top < 0 then '-' else '+') ::
    Nat.toDigits 10 top.natAbs

def writeMagnitude (style : FloatStyle) (x : Magnitude) : List Char :=
  let form := x.shortest
  let digits := Nat.toDigits 10 form.digits
  let top := form.exponent + digits.length - 1
  if style.positional top then writePositional digits top else writeScientific digits top

/-- The text of a number. -/
def write (style : FloatStyle) : Binary64 → String
  | .finite negative x =>
    String.ofList ((if negative then ['-'] else []) ++ style.writeMagnitude x)
  | .infinite negative => if negative then "-inf" else "inf"
  | .nan => "NaN"

end FloatStyle

end CodeGraph
