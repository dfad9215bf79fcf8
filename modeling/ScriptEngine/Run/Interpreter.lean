import ScriptEngine.Run.Operator
import ScriptEngine.Run.State
import ScriptEngine.Tree.Node

/-!
# The interpreter

`Interpreter.eval` gives the value of an expression, `Interpreter.exec` carries out a statement. Both
follow the tree; all that is not in the tree is in the `Interpreter`: the options of the run, what
becomes of a call, and how many rounds a loop may take.

The cancel hook is asked before the arguments of a call are evaluated and before each test of a loop.
-/

namespace ScriptEngine

structure Interpreter (σ : Type) where
  options : Options
  /-- Calls a host function. -/
  invoke : Text → List Value → Run σ (Option Value)
  /-- How many rounds a loop may take. -/
  rounds : Nat

namespace Interpreter

variable {σ : Type} (it : Interpreter σ)

/-- Asks the cancel hook, if there is one. -/
def poll (pos : Pos) : Run σ Unit := do
  match it.options.cancel with
  | none => return
  | some fires =>
    modify fun s => { s with polls := s.polls + 1 }
    if fires (← get).polls then Run.fail (.error (.of .cancelled pos))

def traceStatement (s : Stmt) : Run σ Unit :=
  if it.options.trace then Run.noteStatement s else pure ()

/-- A call whose arguments are given by `args`. -/
@[inline] def call (pos : Pos) (name : Text) (args : Run σ (List Value)) : Run σ (Option Value) := do
  it.poll pos
  let vs ← args
  Run.mapFailure (Failure.locate pos) (it.invoke name vs)

/-! ## Expressions -/

mutual

def eval : Expr → Run σ Value
  | .number _ x => return .number x
  | .string _ s => return .text s
  | .var pos name => do
    match ← Run.find? name with
    | some v => return v
    | none => Run.fail (.error (.of (.undefinedVariable name) pos))
  | .binary pos op lhs rhs => do
    let a ← eval lhs
    let b ← eval rhs
    Run.ofExcept (arithmetic pos op a b)
  | .comparison pos op lhs rhs => do
    let a ← eval lhs
    let b ← eval rhs
    Run.ofExcept (compareValues pos op a b)
  | .call pos name args => do
    match ← it.call pos name (evalArgs args) with
    | some v => return v
    | none => Run.fail (.error (.of (.typeMismatch (.noResult name)) pos))

/-- The values of arguments, from left to right. -/
def evalArgs : List Expr → Run σ (List Value)
  | [] => return []
  | e :: es => do
    let v ← eval e
    let vs ← evalArgs es
    return v :: vs

end

def condition (c : Condition) : Run σ Bool := do
  let v ← it.eval c.toExpr
  Run.ofExcept (asCondition c.pos v)

/-- The value of a node, if it is an expression. -/
def evalNode : Node → Run σ Value
  | .expr e => it.eval e
  | .stmt _ => Run.fail .noValue

/-! ## Statements -/

mutual

/-- A call that stands as a statement need not give a value. -/
def exec : Stmt → Run σ Unit
  | .expr (.call pos name args) => discard <| it.call pos name (it.evalArgs args)
  | .expr e => discard <| it.eval e
  | .assign _ name value => do
    let v ← it.eval value
    Run.assign name v
  | .block b => execBlock b
  | .ifThen _ c t => do
    if ← it.condition c then execBlock t
  | .ifElse _ c t e => do
    if ← it.condition c then execBlock t else execBlock e
  | .loop pos c body =>
    Run.repeatWhile (do it.poll pos; it.condition c) (execBlock body) it.rounds

def execBlock : Block → Run σ Unit
  | .mk _ ss => execBody ss

/-- The statements in turn, each after its line in the trace. -/
def execBody : List Stmt → Run σ Unit
  | [] => return
  | s :: ss => do
    it.traceStatement s
    exec s
    execBody ss

end

end Interpreter

end ScriptEngine
