import ScriptEngine.Position
import ScriptEngine.Token.Kind
import ScriptEngine.Value

/-!
# Errors

An `Error` is a cause and a position. Causes say what went wrong in terms of the language; the words
for them are given by `Cause.text`, in one place. The message has the position in front when it is
set.

A `Failure` is how a run can end badly: with an error of the language, or with one of the faults
that only a tree built by hand or a host function can bring about.
-/

namespace ScriptEngine

/-! ## Causes -/

inductive LexFault where
  | missingDigit (numeral : Text)
  | outOfRange (numeral : Text)
  | unterminated (quote : UInt8)
  | unexpected (byte : UInt8)
  | cannotRestart
  /-- In the words of whoever reports it. -/
  | other (text : Text)
  deriving DecidableEq

def LexFault.text : LexFault → Text
  | missingDigit n => Text.ascii "Expected digit after decimal point in " ++ n
  | outOfRange n => Text.ascii "Number literal out of range: " ++ n
  | unterminated q => Text.ascii "Expected " ++ q :: Text.ascii " to terminate string literal"
  | unexpected b => Text.ascii "Unexpected character '" ++ [b, Byte.singleQuote]
  | cannotRestart => Text.ascii "Cannot restart lexer, stream does not support seeking"
  | other t => t

inductive TypeFault where
  | arithmetic (op : TokenKind) (lhs rhs : ValueType)
  | comparison (op : TokenKind) (lhs rhs : ValueType)
  | condition (found : ValueType)
  | noResult (function : Text)
  /-- In the words of whoever reports it. -/
  | other (text : Text)
  deriving DecidableEq

def TypeFault.text : TypeFault → Text
  | arithmetic op l r =>
    Text.ascii "Cannot apply " ++ op.name ++ Text.ascii " to " ++ l.name ++ Text.ascii " and " ++ r.name
  | comparison op l r =>
    Text.ascii "Cannot compare " ++ l.name ++ Text.ascii " and " ++ r.name ++ Text.ascii " with " ++
      op.name
  | condition t => Text.ascii "Expected boolean condition, got " ++ t.name
  | noResult f => Text.ascii "Function " ++ f ++ Text.ascii " returned no value"
  | other t => t

/-- Why a call of a host function failed. -/
inductive InvocationReason where
  | unknownFunction
  | arityMismatch
  | typeMismatch
  deriving DecidableEq

/-- The classes of errors that arise while a script runs. -/
inductive RuntimeKind where
  | undefinedVariable
  | typeMismatch
  | divisionByZero
  | invocation
  | cancelled
  deriving DecidableEq

inductive Cause where
  | plain (text : Text)
  | lexical (fault : LexFault)
  | unexpected (expected found : Text)
  /-- An error of a class, with no more said than its text. -/
  | runtime (kind : RuntimeKind) (text : Text)
  | undefinedVariable (name : Text)
  | typeMismatch (fault : TypeFault)
  | divisionByZero
  | invocation (reason : InvocationReason) (function text : Text)
  | cancelled
  deriving DecidableEq

namespace Cause

def text : Cause → Text
  | plain t => t
  | lexical f => f.text
  | unexpected expected found =>
    Text.ascii "Expected " ++ expected ++ Text.ascii " but found " ++ found
  | runtime _ t => t
  | undefinedVariable n => Text.ascii "Undefined variable " ++ n
  | typeMismatch f => f.text
  | divisionByZero => Text.ascii "Division by zero"
  | invocation _ _ t => t
  | cancelled => Text.ascii "Evaluation cancelled"

/-- The class of an error that arises while a script runs. -/
def runtimeKind? : Cause → Option RuntimeKind
  | runtime k _ => some k
  | undefinedVariable _ => some .undefinedVariable
  | typeMismatch _ => some .typeMismatch
  | divisionByZero => some .divisionByZero
  | invocation _ _ _ => some .invocation
  | cancelled => some .cancelled
  | _ => none

/-- Division by zero counts as operands of the wrong sort. -/
def isTypeMismatch : Cause → Bool
  | typeMismatch _ | divisionByZero => true
  | _ => false

end Cause

/-! ## Errors with positions -/

/-- An error keeps its message, which is put together when the error arises and again whenever it is
given another position. -/
structure Error where
  cause : Cause
  pos : Pos
  message : Text
  message_eq : message = pos.before cause.text
  deriving DecidableEq

namespace Error

/-- An error as it arises. -/
def of (cause : Cause) (pos : Pos) : Error := ⟨cause, pos, pos.before cause.text, rfl⟩

@[simp] theorem cause_of (cause : Cause) (pos : Pos) : (of cause pos).cause = cause := rfl

@[simp] theorem pos_of (cause : Cause) (pos : Pos) : (of cause pos).pos = pos := rfl

/-- There is one message for a cause at a position. -/
@[ext] theorem ext {e e' : Error} (hc : e.cause = e'.cause) (hp : e.pos = e'.pos) : e = e' := by
  obtain ⟨cause, pos, message, rfl⟩ := e
  obtain ⟨cause', pos', message', rfl⟩ := e'
  cases hc
  cases hp
  rfl

@[simp] theorem of_inj {cause cause' : Cause} {pos pos' : Pos} :
    of cause pos = of cause' pos' ↔ cause = cause' ∧ pos = pos' :=
  ⟨fun h => ⟨congrArg Error.cause h, congrArg Error.pos h⟩, fun ⟨hc, hp⟩ => by rw [hc, hp]⟩

def text (e : Error) : Text := e.cause.text

def setPos (p : Pos) (e : Error) : Error :=
  { e with pos := p, message := p.before e.text, message_eq := rfl }

@[simp] theorem setPos_of (p pos : Pos) (cause : Cause) : (of cause pos).setPos p = of cause p := rfl

/-- Whatever has become of an error, its message tells its position, if it has one, and its text. -/
theorem message_eq_ite (e : Error) :
    e.message = if 0 < e.pos.line then e.pos.label ++ e.text else e.text := by
  rw [e.message_eq, Pos.before]
  simp [Pos.isSet, text]

/-- An invocation error that has no position yet takes that of the call. -/
def locate (p : Pos) (e : Error) : Error :=
  match e.cause with
  | .invocation _ _ _ => if e.pos.isSet then e else e.setPos p
  | _ => e

end Error

/-! ## Failures of a run -/

/-- The two uses of an operator between operands. -/
inductive OperatorUse where
  | arithmetic
  | comparison
  deriving DecidableEq

inductive Failure where
  | error (e : Error)
  /-- A tree holds an operator that its node cannot apply. -/
  | invalidOperator (use : OperatorUse) (op : TokenKind)
  /-- A statement was evaluated for its value. -/
  | noValue
  /-- A host function failed for reasons of its own. -/
  | host (message : Text)
  deriving DecidableEq

namespace Failure

def message : Failure → Text
  | error e => e.message
  | invalidOperator .arithmetic op => Text.ascii "Invalid arithmetic operator " ++ op.name
  | invalidOperator .comparison op => Text.ascii "Invalid comparison operator " ++ op.name
  | noValue => Text.ascii "Node does not produce a value"
  | host m => m

/-- Gives an error the position of the call it came out of, where it has none. -/
def locate (p : Pos) : Failure → Failure
  | error e => error (e.locate p)
  | f => f

end Failure

end ScriptEngine
