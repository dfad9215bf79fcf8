/-!
# Byte text

Sources, names, string values and messages are byte strings. `Text` is a list of bytes, so that
a source may hold any byte, and so that columns and orders are those of bytes. `Text.ascii` writes
the fixed wordings, `Text.ofNat` and `Text.ofInt` the decimal numbers inside them.
-/

namespace ScriptEngine

abbrev Text := List UInt8

/-! ## Bytes -/

namespace Byte

def newline : UInt8 := 10
def space : UInt8 := 32
def doubleQuote : UInt8 := 34
def singleQuote : UInt8 := 39
def openParen : UInt8 := 40
def closeParen : UInt8 := 41
def minus : UInt8 := 45
def point : UInt8 := 46
def zero : UInt8 := 48
def colon : UInt8 := 58

/-- Tab, newline, vertical tab, form feed, carriage return and space. -/
def isBlank (b : UInt8) : Bool := (9 ≤ b && b ≤ 13) || b == space

def isLetter (b : UInt8) : Bool := (65 ≤ b && b ≤ 90) || (97 ≤ b && b ≤ 122)

def isDigit (b : UInt8) : Bool := zero ≤ b && b ≤ 57

/-- Either quote opens a string; the same one closes it. -/
def isQuote (b : UInt8) : Bool := b == doubleQuote || b == singleQuote

end Byte

namespace Text

/-- The bytes of an ASCII wording. -/
def ascii (s : String) : Text := s.toList.map Char.toUInt8

/-- The digit for a number below ten. -/
def digit (d : Nat) : UInt8 := Byte.zero + UInt8.ofNat d

/-- Writes `n` in decimal in front of `rest`. -/
def natOnto (n : Nat) (rest : Text) : Text :=
  if n < 10 then digit n :: rest else natOnto (n / 10) (digit (n % 10) :: rest)

def ofNat (n : Nat) : Text := natOnto n []

def ofInt : Int → Text
  | .ofNat n => ofNat n
  | .negSucc n => Byte.minus :: ofNat (n + 1)

/-- The number that a run of decimal digits denotes. -/
def digitsValue (ds : Text) : Nat := ds.foldl (fun n d => 10 * n + (d - Byte.zero).toNat) 0

/-- The part before the first NUL byte. -/
def beforeNul (t : Text) : Text := t.takeWhile (· != 0)

end Text

end ScriptEngine
