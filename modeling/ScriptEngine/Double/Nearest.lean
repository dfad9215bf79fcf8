import ScriptEngine.Double.Basic

/-!
# The nearest double

`Double.nearest` is the magnitude closest to a fraction, ties to even, with infinity standing for
everything that rounds above the largest finite number.
-/

namespace ScriptEngine

namespace Double

/-- The fraction counted in units of `2 ^ e`, rounded. -/
def inUnits (f : Fraction) (e : Int) : Nat := (f.scale2 (-e)).round

/-- The magnitude nearest to a fraction, at most infinity. -/
def nearest (f : Fraction) : Nat :=
  if f.isZero then 0
  else
    let e := max (f.binaryExponent - 52) (-1074)
    min infinity ((e + 1074).toNat * binade + inUnits f e)

/-- The fraction rounded to 53 bits, whatever the exponent. -/
def roundUnbounded (f : Fraction) : Fraction :=
  let e := f.binaryExponent - 52
  (Fraction.ofNat (inUnits f e)).scale2 e

/-- Below the least normal number, after rounding. -/
def isTiny (f : Fraction) : Bool := (roundUnbounded f).less ((Fraction.ofNat 1).scale2 (-1022))

/-- Whether a tiny fraction, counted in units of `2 ^ -1074`, is taken for `m`: it is `m` units, or
`m` and a quarter from `2 ^ -1023` up, where the quarter is the bit right after 53 significant ones. -/
def tinyIs (f : Fraction) (m : Nat) : Bool :=
  f.equals ((Fraction.ofNat m).scale2 (-1074)) ||
    (f.equals ((Fraction.ofNat (4 * m + 1)).scale2 (-1076)) &&
      !f.less ((Fraction.ofNat 1).scale2 (-1023)))

def ofNat (n : Nat) : Double := ofMagnitude (nearest (Fraction.ofNat n))

end Double

end ScriptEngine
