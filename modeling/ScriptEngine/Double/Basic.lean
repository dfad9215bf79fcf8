import ScriptEngine.Fraction

/-!
# Binary64 numbers

A `Double` is the 64 bits of an IEEE 754 number. Arithmetic and comparison are those of the
standard, rounding to nearest with ties to even. For reading and writing decimals the bits are
taken apart exactly: a finite number is, up to its sign, `significand · 2 ^ exponent`.

The bits without the sign are the *magnitude*. Magnitudes count the non-negative numbers upwards
from zero, the first one that is not finite being infinity.
-/

namespace ScriptEngine

structure Double where
  bits : UInt64
  deriving DecidableEq

namespace Double

def toFloat (x : Double) : Float := Float.ofBits x.bits

def ofFloat (x : Float) : Double := ⟨x.toBits⟩

instance : Add Double := ⟨fun a b => ofFloat (a.toFloat + b.toFloat)⟩
instance : Sub Double := ⟨fun a b => ofFloat (a.toFloat - b.toFloat)⟩
instance : Mul Double := ⟨fun a b => ofFloat (a.toFloat * b.toFloat)⟩
instance : Div Double := ⟨fun a b => ofFloat (a.toFloat / b.toFloat)⟩

def less (a b : Double) : Bool := a.toFloat < b.toFloat

def lessEq (a b : Double) : Bool := a.toFloat ≤ b.toFloat

/-! ## Parts -/

/-- The weight of the sign bit. -/
def signBit : Nat := Nat.pow 2 63

/-- How many magnitudes share one exponent. -/
def binade : Nat := Nat.pow 2 52

/-- The magnitude of the infinities; those above it are not numbers. -/
def infinity : Nat := 2047 * binade

def isNegative (x : Double) : Bool := signBit ≤ x.bits.toNat

def magnitude (x : Double) : Nat := x.bits.toNat % signBit

def ofMagnitude (m : Nat) : Double := ⟨UInt64.ofNat m⟩

def zero : Double := ofMagnitude 0

/-- Both zeros count. -/
def isZero (x : Double) : Bool := x.magnitude == 0

def isNaN (x : Double) : Bool := infinity < x.magnitude

def isFinite (x : Double) : Bool := x.magnitude < infinity

/-- The integer factor of a finite magnitude. -/
def significand (m : Nat) : Nat := if m < binade then m else binade + m % binade

/-- The power of two of a finite magnitude; the least one is shared by the subnormal numbers. -/
def exponent (m : Nat) : Int := if m < binade then -1074 else (m / binade : Nat) - 1075

/-- The exact value of a finite magnitude. -/
def fraction (m : Nat) : Fraction := (Fraction.ofNat (significand m)).scale2 (exponent m)

end Double

end ScriptEngine
