import ScriptEngine.Error

/-!
# Arguments of host functions

A host function takes its arguments by index and type; a missing argument or one of another type is
an invocation error that names the function.
-/

namespace ScriptEngine

namespace Argument

/-- How messages speak of a type that was asked for. -/
def wanted : ValueType → Text
  | .number => Text.ascii "a number"
  | .text => Text.ascii "text"
  | .boolean => Text.ascii "a boolean"

def missing (function : Text) (index given : Nat) : Failure :=
  .error (.of (.invocation .arityMismatch function
    (function ++ Text.ascii " expects at least " ++ Text.ofNat (index + 1) ++
      Text.ascii " argument(s), got " ++ Text.ofNat given)) Pos.unset)

def wrongType (function : Text) (index : Nat) (want found : ValueType) : Failure :=
  .error (.of (.invocation .typeMismatch function
    (function ++ Text.ascii " expects argument " ++ Text.ofNat (index + 1) ++ Text.ascii " to be " ++
      wanted want ++ Text.ascii ", got " ++ found.name)) Pos.unset)

/-- The argument at an index, which must be of type `want`. -/
def expect (want : ValueType) (function : Text) (args : List Value) (index : Nat) :
    Except Failure Value :=
  match args[index]? with
  | none => .error (missing function index args.length)
  | some v => if v.type = want then .ok v else .error (wrongType function index want v.type)

def number (function : Text) (args : List Value) (index : Nat) : Except Failure Double := do
  match ← expect .number function args index with
  | .number x => return x
  | v => throw (wrongType function index .number v.type)

def text (function : Text) (args : List Value) (index : Nat) : Except Failure Text := do
  match ← expect .text function args index with
  | .text s => return s
  | v => throw (wrongType function index .text v.type)

end Argument

end ScriptEngine
