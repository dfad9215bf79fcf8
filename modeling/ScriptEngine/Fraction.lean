/-!
# Fractions

Numbers are read and written by way of exact non-negative fractions. `Fraction.scale` moves the point
of a fraction in a given base, `Fraction.round` goes to the nearest natural number.
-/

namespace ScriptEngine

structure Fraction where
  num : Nat
  den : Nat
  den_pos : 0 < den

namespace Fraction

def ofNat (n : Nat) : Fraction := ⟨n, 1, Nat.one_pos⟩

/-- `f · base ^ e`. -/
def scale (f : Fraction) (base : Nat) (base_pos : 0 < base) (e : Int) : Fraction where
  num := f.num * Nat.pow base e.toNat
  den := f.den * Nat.pow base (-e).toNat
  den_pos := Nat.mul_pos f.den_pos (Nat.pow_pos base_pos)

/-- `f · 2 ^ e`. -/
def scale2 (f : Fraction) (e : Int) : Fraction := f.scale 2 Nat.two_pos e

/-- `f · 10 ^ e`. -/
def scale10 (f : Fraction) (e : Int) : Fraction := f.scale 10 (Nat.succ_pos 9) e

def isZero (f : Fraction) : Bool := f.num == 0

def isWhole (f : Fraction) : Bool := f.num % f.den == 0

def floor (f : Fraction) : Nat := f.num / f.den

def less (f g : Fraction) : Bool := f.num * g.den < g.num * f.den

def equals (f g : Fraction) : Bool := f.num * g.den == g.num * f.den

/-- The nearest natural number, the even one of two that are equally near. -/
def round (f : Fraction) : Nat :=
  let q := f.num / f.den
  let r := f.num % f.den
  if 2 * r < f.den ∨ (2 * r = f.den ∧ q % 2 = 0) then q else q + 1

/-- The `e` with `2 ^ e ≤ f < 2 ^ (e + 1)`, for `f` not zero. -/
def binaryExponent (f : Fraction) : Int :=
  let e : Int := (Nat.log2 f.num : Int) - (Nat.log2 f.den : Int)
  if f.less ((ofNat 1).scale2 e) then e - 1 else e

/-- How many decimal digits `n` has; none for zero. -/
def digitCount (n : Nat) : Nat := if n = 0 then 0 else digitCount (n / 10) + 1

/-- The `e` with `10 ^ e ≤ f < 10 ^ (e + 1)`, for `f` not zero. -/
def decimalExponent (f : Fraction) : Int :=
  if f.den ≤ f.num then (digitCount (f.num / f.den) : Int) - 1
  else -(digitCount ((f.den - 1) / f.num) : Int)

end Fraction

end ScriptEngine
