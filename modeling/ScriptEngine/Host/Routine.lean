import ScriptEngine.Run.Interpreter

/-!
# Host functions

What a host function does once it is called is a `Routine`: a tree of steps, each of which may depend
on what the steps before it gave. A routine may work on the environment, on what the host keeps, call
other functions and run programs. It takes finitely many steps, though the programs it runs may not
end. A step that fails, or is cancelled, ends the routine with the same failure, unless the routine
recovers from it.
-/

namespace ScriptEngine

inductive Routine (σ : Type) where
  /-- Ends with a value, or without one. -/
  | done (result : Option Value)
  | fail (failure : Failure)
  /-- Goes on with the environment as it is. -/
  | inspect (next : Environment → Routine σ)
  | assign (name : Text) (value : Value) (next : Routine σ)
  | clear (next : Routine σ)
  /-- Changes what the host keeps, and goes on with it as it is then. -/
  | update (f : σ → σ) (next : σ → Routine σ)
  | invoke (name : Text) (args : List Value) (next : Option Value → Routine σ)
  | run (program : Block) (next : Routine σ)
  | eval (node : Node) (next : Value → Routine σ)
  /-- Goes on with what comes of `attempt`, be it a failure. -/
  | recover (attempt : Routine σ) (next : Except Failure (Option Value) → Routine σ)

namespace Routine

variable {σ : Type}

/-- Carries out a routine, with `it` for the functions it calls and the programs it runs. -/
def perform (it : Interpreter σ) : Routine σ → Run σ (Option Value)
  | done result => return result
  | fail failure => Run.fail failure
  | inspect next => do
    let env ← Run.environment
    (next env).perform it
  | assign name value next => do
    Run.assign name value
    next.perform it
  | clear next => do
    Run.clear
    next.perform it
  | update f next => do
    let s ← Run.updateHost f
    (next s).perform it
  | invoke name args next => do
    let v ← it.invoke name args
    (next v).perform it
  | run program next => do
    it.execBlock program
    next.perform it
  | eval node next => do
    let v ← it.evalNode node
    (next v).perform it
  | recover attempt next => do
    let r ← Run.attempt (attempt.perform it)
    (next r).perform it

end Routine

end ScriptEngine
