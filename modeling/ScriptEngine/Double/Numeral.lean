import ScriptEngine.Double.Nearest
import ScriptEngine.Text

/-!
# Numerals

A numeral is a run of digits, or two of them with a point between. `Numeral.scan` takes the longest
one from the front of a text, `Numeral.value?` gives the double nearest to it. A numeral is out of
range when it rounds to infinity, or when it is not zero, lies below the normal numbers and is not
taken for a double there (`Double.tinyIs`): such numbers are to be written out exactly, save for the
one bit that follows the 53 significant bits of the larger ones.
-/

namespace ScriptEngine

structure Numeral where
  whole : Text
  /-- The digits after the point, when there is a point. -/
  fraction : Option Text
  deriving DecidableEq

namespace Numeral

/-- The numeral at the front of `input`; its fraction is empty when no digit follows the point. -/
def scan (input : Text) : Numeral :=
  let whole := input.takeWhile Byte.isDigit
  match input.dropWhile Byte.isDigit with
  | b :: rest => ⟨whole, if b = Byte.point then some (rest.takeWhile Byte.isDigit) else none⟩
  | [] => ⟨whole, none⟩

def text (n : Numeral) : Text :=
  match n.fraction with
  | none => n.whole
  | some ds => n.whole ++ Byte.point :: ds

/-- Whether a point stands at the end with no digit after it. -/
def endsInPoint (n : Numeral) : Bool := n.fraction == some []

/-- The exact value. -/
def exact (n : Numeral) : Fraction :=
  let ds := n.fraction.getD []
  (Fraction.ofNat (Text.digitsValue (n.whole ++ ds))).scale10 (-ds.length)

/-- The nearest double, if the numeral is in range. -/
def value? (n : Numeral) : Option Double :=
  let f := n.exact
  let m := Double.nearest f
  if m = Double.infinity then none
  else if !f.isZero && Double.isTiny f && !Double.tinyIs f m then none
  else some (Double.ofMagnitude m)

end Numeral

end ScriptEngine
