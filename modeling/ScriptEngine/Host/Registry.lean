import ScriptEngine.Host.Routine

/-!
# The registry of host functions

A registry binds names to functions, the latest definition of a name counting. A call is noted before
anything else; it fails when the name is unknown, or when the function has a fixed number of
arguments and is given another. A function may run programs that call functions again, to a depth
given by the fuel of the run.
-/

namespace ScriptEngine

structure HostFunction (σ : Type) where
  /-- How many arguments the function takes, if it insists. -/
  arity : Option Nat
  body : List Value → Routine σ

abbrev Registry (σ : Type) := NameTable (HostFunction σ)

namespace Registry

variable {σ : Type}

def unknownFunction (name : Text) : Error :=
  (.of (.invocation .unknownFunction name (Text.ascii "Unknown function " ++ name)) Pos.unset)

def wrongArity (name : Text) (arity given : Nat) : Error :=
  (.of (.invocation .arityMismatch name
    (name ++ Text.ascii " expects " ++ Text.ofNat arity ++ Text.ascii " argument(s), got " ++
      Text.ofNat given)) Pos.unset)

/-- A name that is defined again has its new function, with its number of arguments. -/
def define (reg : Registry σ) (name : Text) (f : HostFunction σ) : Registry σ := reg.insert name f

/-- What a call sets going. -/
def resolve (reg : Registry σ) (name : Text) (args : List Value) : Except Error (Routine σ) :=
  match reg.find? name with
  | none => .error (unknownFunction name)
  | some f =>
    match f.arity with
    | none => .ok (f.body args)
    | some n => if n = args.length then .ok (f.body args) else .error (wrongArity name n args.length)

/-- Calls a function. The fuel bounds how deep calls and runs may be nested in it, and the rounds of
the loops in them. -/
def invoke (reg : Registry σ) (options : Options) :
    Nat → Text → List Value → Run σ (Option Value)
  | 0, _, _ => Run.unfinished
  | fuel + 1, name, args => do
    Run.noteCall name args
    match reg.resolve name args with
    | .error e => Run.fail (.error e)
    | .ok routine => routine.perform ⟨options, reg.invoke options fuel, fuel⟩

/-- The interpreter whose calls go to a registry. -/
def interpreter (reg : Registry σ) (options : Options) (fuel : Nat) : Interpreter σ :=
  ⟨options, reg.invoke options fuel, fuel⟩

end Registry

end ScriptEngine
