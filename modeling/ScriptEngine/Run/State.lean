import ScriptEngine.Error
import ScriptEngine.NameTable
import ScriptEngine.Tree.Basic

/-!
# Runs

A run works on an environment and on whatever the host keeps for its functions, a `σ`. It notes the
calls of host functions, a line for each statement if a trace is wanted, and how often the cancel
hook was asked. All this is kept when a run fails.

Runs are bounded from outside, so a run may also stop unfinished: that is no failure.
-/

namespace ScriptEngine

abbrev Environment := NameTable Value

/-- The answers to the first, second, … question whether to cancel. -/
abbrev CancelHook := Nat → Bool

/-- Lets a run go on `n` times. -/
def CancelHook.after (n : Nat) : CancelHook := fun k => n < k

structure Options where
  cancel : Option CancelHook
  trace : Bool

/-- No hook and no trace. -/
def Options.plain : Options := ⟨none, false⟩

/-! ## What a run notes -/

structure CallRecord where
  name : Text
  args : List Value
  deriving DecidableEq

inductive Action where
  | assign (name : Text)
  | call (name : Text)
  | branch
  | loop
  | other
  deriving DecidableEq

def Action.text : Action → Text
  | assign n => Text.ascii "assign " ++ n
  | call n => Text.ascii "call " ++ n
  | branch => Text.ascii "if"
  | loop => Text.ascii "while"
  | other => Text.ascii "statement"

/-- What a trace says of a statement. -/
def Stmt.action : Stmt → Action
  | expr (.call _ n _) => .call n
  | assign _ n _ => .assign n
  | ifThen _ _ _ | ifElse _ _ _ _ => .branch
  | loop _ _ _ => .loop
  | expr _ | block _ => .other

structure TraceLine where
  pos : Pos
  action : Action
  deriving DecidableEq

def TraceLine.text (l : TraceLine) : Text := l.pos.label ++ l.action.text ++ [Byte.newline]

structure RunState (σ : Type) where
  env : Environment
  /-- What the host functions keep between calls. -/
  host : σ
  calls : Array CallRecord
  trace : Array TraceLine
  polls : Nat

/-- The state before anything has happened. -/
def RunState.start {σ : Type} (env : Environment) (host : σ) : RunState σ := ⟨env, host, #[], #[], 0⟩

def RunState.traceText {σ : Type} (s : RunState σ) : Text := s.trace.toList.flatMap TraceLine.text

/-! ## Steps of a run -/

/-- Why a run stops early. -/
inductive Stop where
  | failed (f : Failure)
  /-- The bound on rounds or on nested calls was reached. -/
  | unfinished
  deriving DecidableEq

abbrev Run (σ : Type) := ExceptT Stop (StateM (RunState σ))

namespace Run

variable {σ α : Type}

def fail (f : Failure) : Run σ α := throw (.failed f)

def unfinished : Run σ α := throw .unfinished

def ofExcept : Except Failure α → Run σ α
  | .ok a => pure a
  | .error f => fail f

def environment : Run σ Environment := return (← get).env

def find? (name : Text) : Run σ (Option Value) := return (← environment).find? name

def assign (name : Text) (value : Value) : Run σ Unit :=
  modify fun s => { s with env := s.env.insert name value }

def clear : Run σ Unit := modify fun s => { s with env := NameTable.empty }

/-- Changes what the host keeps, and gives it as it is then. -/
def updateHost (f : σ → σ) : Run σ σ := do
  modify fun s => { s with host := f s.host }
  return (← get).host

def noteCall (name : Text) (args : List Value) : Run σ Unit :=
  modify fun s => { s with calls := s.calls.push ⟨name, args⟩ }

def noteStatement (s : Stmt) : Run σ Unit :=
  modify fun r => { r with trace := r.trace.push ⟨s.pos, s.action⟩ }

/-- Carries out `x`, changing the failure with which it may end. -/
def mapFailure (f : Failure → Failure) (x : Run σ α) : Run σ α :=
  tryCatch x fun
    | .failed e => fail (f e)
    | .unfinished => unfinished

/-- Carries out `x` and gives what comes of it, be it a failure. -/
def attempt (x : Run σ α) : Run σ (Except Failure α) :=
  tryCatch (Except.ok <$> x) fun
    | .failed f => pure (.error f)
    | .unfinished => unfinished

/-- Carries out `body` as long as `test` holds, at most `rounds` times. -/
@[specialize] def repeatWhile (test : Run σ Bool) (body : Run σ Unit) : Nat → Run σ Unit
  | 0 => unfinished
  | n + 1 => do
    if ← test then
      body
      repeatWhile test body n

end Run

end ScriptEngine
