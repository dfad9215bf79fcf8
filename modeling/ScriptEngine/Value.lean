import ScriptEngine.Double.Decimal

/-!
# Values

A script works on numbers, texts and booleans.
-/

namespace ScriptEngine

inductive ValueType where
  | number
  | text
  | boolean
  deriving DecidableEq

def ValueType.name : ValueType → Text
  | number => Text.ascii "number"
  | text => Text.ascii "text"
  | boolean => Text.ascii "boolean"

inductive Value where
  | number (x : Double)
  | text (s : Text)
  | boolean (b : Bool)
  deriving DecidableEq

namespace Value

def type : Value → ValueType
  | number _ => .number
  | text _ => .text
  | boolean _ => .boolean

/-- Numbers that are not small integers show six significant digits. -/
def render : Value → Text
  | number x => x.decimal 6
  | text s => s
  | boolean true => Text.ascii "true"
  | boolean false => Text.ascii "false"

end Value

end ScriptEngine
