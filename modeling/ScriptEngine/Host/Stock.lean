import ScriptEngine.Double.Nearest
import ScriptEngine.Host.Argument
import ScriptEngine.Host.Registry

/-!
# Stock functions

A small stock of host functions, enough to try out everything a host function can do: giving values,
counting, checking arguments, working on the environment, calling, running programs and failing.
-/

namespace ScriptEngine

/-- How often each function that counts its calls has been called. -/
abbrev Counters := NameTable Nat

inductive Stock where
  | nothing
  | constant (value : Value)
  /-- The first argument. -/
  | echo
  /-- The name of the first argument's type. -/
  | typeName
  /-- The number of arguments. -/
  | count
  /-- The number of calls, this one included. -/
  | counter
  | sum
  /-- An argument that must be of the given type. -/
  | expect (type : ValueType) (index : Nat)
  /-- The texts of all arguments in a row. -/
  | join
  /-- Assigns the first argument to a variable. -/
  | assign (name : Text)
  /-- The variable named by the first argument. -/
  | lookup
  | clear
  /-- Calls the function named by the first argument with the others. -/
  | call
  /-- Runs a program. -/
  | run (slot : Text)
  | raise (error : Error)
  | fail (message : Text)

namespace Stock

/-- Goes on with what a check of the arguments gives. -/
def check {α σ : Type} (x : Except Failure α) (next : α → Routine σ) : Routine σ :=
  match x with
  | .ok a => next a
  | .error f => .fail f

def total (function : Text) (args : List Value) : Except Failure Double :=
  (List.range args.length).foldlM (fun t i => return t + (← Argument.number function args i))
    Double.zero

def bump (function : Text) (counters : Counters) : Counters :=
  counters.insert function ((counters.find? function).getD 0 + 1)

/-- What a stock function called `function` does, where `programs` has the programs it may run. -/
def routine (programs : NameTable Block) (function : Text) (args : List Value) :
    Stock → Routine Counters
  | nothing => .done none
  | constant v => .done (some v)
  | echo => .done args.head?
  | typeName => .done (args.head?.map fun v => .text v.type.name)
  | count => .done (some (.number (Double.ofNat args.length)))
  | counter =>
    .update (bump function) fun c =>
      .done (some (.number (Double.ofNat ((c.find? function).getD 0))))
  | sum => check (total function args) fun x => .done (some (.number x))
  | expect type index => check (Argument.expect type function args index) fun v => .done (some v)
  | join => .done (some (.text (args.flatMap Value.render)))
  | assign x =>
    match args with
    | [] => .done none
    | v :: _ => .assign x v (.done (some v))
  | lookup => check (Argument.text function args 0) fun x =>
    .inspect fun env => .done (env.find? x)
  | clear => .clear (.done none)
  | call => check (Argument.text function args 0) fun f => .invoke f args.tail .done
  | run slot =>
    match programs.find? slot with
    | some b => .run b (.done none)
    | none => .done none
  | raise e => .fail (.error e)
  | fail m => .fail (.host m)

end Stock

end ScriptEngine
