import ScriptEngine.Double.Nearest
import ScriptEngine.Text

/-!
# Decimal text of a double

`Double.decimal p` writes a whole number below `10 ^ 15` as an integer. Any other number is rounded
to `p` significant digits from its exact value, a half going to the even digit, and written without
trailing zeros: with an exponent when the decimal exponent is below -4 or at least `p`,
positionally otherwise.
-/

namespace ScriptEngine

namespace Decimal

/-- The `p` significant digits of a fraction as one number, with the exponent of the first. -/
def significant (p : Nat) (f : Fraction) : Nat × Int :=
  let e := f.decimalExponent
  let d := (f.scale10 ((p : Int) - 1 - e)).round
  if d = Nat.pow 10 p then (Nat.pow 10 (p - 1), e + 1) else (d, e)

def dropTrailingZeros (ds : Text) : Text := (ds.reverse.dropWhile (· == Byte.zero)).reverse

/-- A point and the digits, or nothing when there are none. -/
def fractional (ds : Text) : Text := if ds = [] then [] else Byte.point :: ds

/-- A sign and at least two digits. -/
def exponentText (e : Int) : Text :=
  let sign := if e < 0 then Text.ascii "e-" else Text.ascii "e+"
  sign ++ (if e.natAbs < 10 then [Byte.zero] else []) ++ Text.ofNat e.natAbs

/-- Digits `ds`, the first of which stands for units of `10 ^ e`, with an exponent. -/
def scientific (ds : Text) (e : Int) : Text :=
  ds.take 1 ++ fractional (dropTrailingZeros (ds.drop 1)) ++ exponentText e

/-- Digits `ds`, the first of which stands for units of `10 ^ e`, without an exponent. -/
def positional (ds : Text) (e : Int) : Text :=
  if e < 0 then
    Byte.zero :: fractional (List.replicate (e.natAbs - 1) Byte.zero ++ dropTrailingZeros ds)
  else
    ds.take (e.toNat + 1) ++ fractional (dropTrailingZeros (ds.drop (e.toNat + 1)))

/-- A fraction to `p` significant digits. -/
def general (p : Nat) (f : Fraction) : Text :=
  let (d, e) := significant p f
  if e < -4 ∨ (p : Int) ≤ e then scientific (Text.ofNat d) e else positional (Text.ofNat d) e

/-- Whole and below `10 ^ 15`: written as an integer. -/
def isSmallInteger (f : Fraction) : Bool := f.isWhole && f.floor < Nat.pow 10 15

def text (p : Nat) (f : Fraction) : Text :=
  if isSmallInteger f then Text.ofNat f.floor else general p f

end Decimal

/-- The text of a number, to `p` significant digits when it is not a small integer. -/
def Double.decimal (p : Nat) (x : Double) : Text :=
  if x.isNaN then Text.ascii "nan"
  else
    let sign := if x.isNegative && !x.isZero then [Byte.minus] else []
    sign ++ if x.isFinite then Decimal.text p (fraction x.magnitude) else Text.ascii "inf"

end ScriptEngine
