import ScriptEngine.Error

/-!
# Operators

Arithmetic and comparison are defined on numbers only. Operands of other types are a type mismatch
whatever the operator; on numbers, an operator that is not of the right class is invalid.
-/

namespace ScriptEngine

/-- The value of `a op b` for an arithmetic operator. -/
def arithmetic (pos : Pos) (op : TokenKind) : Value → Value → Except Failure Value
  | .number a, .number b =>
    match op with
    | .plus => .ok (.number (a + b))
    | .minus => .ok (.number (a - b))
    | .star => .ok (.number (a * b))
    | .slash =>
      if b.isZero then .error (.error (.of .divisionByZero pos)) else .ok (.number (a / b))
    | _ => .error (.invalidOperator .arithmetic op)
  | a, b => .error (.error (.of (.typeMismatch (.arithmetic op a.type b.type)) pos))

/-- The value of `a op b` for a comparison. -/
def compareValues (pos : Pos) (op : TokenKind) : Value → Value → Except Failure Value
  | .number a, .number b =>
    match op with
    | .greater => .ok (.boolean (b.less a))
    | .greaterEq => .ok (.boolean (b.lessEq a))
    | .less => .ok (.boolean (a.less b))
    | .lessEq => .ok (.boolean (a.lessEq b))
    | _ => .error (.invalidOperator .comparison op)
  | a, b => .error (.error (.of (.typeMismatch (.comparison op a.type b.type)) pos))

/-- A condition is a boolean. -/
def asCondition (pos : Pos) : Value → Except Failure Bool
  | .boolean b => .ok b
  | v => .error (.error (.of (.typeMismatch (.condition v.type)) pos))

end ScriptEngine
