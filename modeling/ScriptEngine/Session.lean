import ScriptEngine.Host.Stock
import ScriptEngine.Script

/-!
# Sessions

A session is what an embedding application keeps: environments by name, the host functions it has
defined, and slots holding programs, compiled from a source or built by hand. A program in a slot
runs on one of the environments with all the functions.
-/

namespace ScriptEngine

/-- What a slot holds. -/
inductive Program where
  | script (s : Script)
  | tree (root : Node)

namespace Program

def root : Program → Node
  | script s => s.root.toNode
  | tree n => n

/-- The block to run; an expression or a lone statement has none. -/
def block? (p : Program) : Option Block :=
  match p.root with
  | .stmt (.block b) => some b
  | _ => none

end Program

/-- A stock function and the number of arguments it insists on. -/
structure Definition where
  arity : Option Nat
  stock : Stock

structure Session where
  environments : NameTable Environment
  functions : NameTable Definition
  counters : Counters
  slots : NameTable Program

/-- What a step that ran something has to show. -/
structure Report (α : Type) where
  result : Except Stop α
  final : RunState Counters

namespace Session

def start : Session := ⟨.empty, .empty, .empty, .empty⟩

/-- More rounds and nested calls than any run could take. -/
def fuel : Nat := Nat.pow 2 62

/-! ## Environments -/

/-- An environment is empty until something is assigned in it. -/
def environment (s : Session) (env : Text) : Environment :=
  (s.environments.find? env).getD NameTable.empty

def setEnvironment (s : Session) (env : Text) (e : Environment) : Session :=
  { s with environments := s.environments.insert env e }

def assign (s : Session) (env name : Text) (value : Value) : Session :=
  s.setEnvironment env ((s.environment env).insert name value)

def clear (s : Session) (env : Text) : Session := s.setEnvironment env NameTable.empty

/-! ## Functions and programs -/

/-- A function that counts its calls starts anew when it is defined again. -/
def define (s : Session) (name : Text) (d : Definition) : Session :=
  { s with functions := s.functions.insert name d, counters := s.counters.insert name 0 }

def store (s : Session) (slot : Text) (p : Program) : Session :=
  { s with slots := s.slots.insert slot p }

/-- Compiles a source into a slot, which keeps what it had if the source is no program. -/
def compile (s : Session) (slot file source : Text) : Except Rejection Script × Session :=
  match Script.compile file source with
  | .ok script => (.ok script, s.store slot (.script script))
  | .error r => (.error r, s)

/-- The programs that host functions may run. -/
def programs (s : Session) : NameTable Block :=
  ⟨s.slots.entries.filterMap fun e => e.2.block?.map (e.1, ·)⟩

def registry (s : Session) : Registry Counters :=
  let programs := s.programs
  s.functions.map fun name d => ⟨d.arity, fun args => d.stock.routine programs name args⟩

/-! ## Runs -/

/-- Carries out `x` on an environment and keeps what it leaves behind. -/
def perform {α : Type} (s : Session) (env : Text) (x : Run Counters α) : Report α × Session :=
  let (result, final) := x.run (RunState.start (s.environment env) s.counters)
  (⟨result, final⟩, { s with counters := final.host }.setEnvironment env final.env)

def interpreter (s : Session) (options : Options) : Interpreter Counters :=
  s.registry.interpreter options fuel

def invoke (s : Session) (env name : Text) (args : List Value) : Report (Option Value) × Session :=
  s.perform env ((s.interpreter Options.plain).invoke name args)

def run (s : Session) (env : Text) (options : Options) (b : Block) : Report Unit × Session :=
  s.perform env ((s.interpreter options).execBlock b)

def eval (s : Session) (env : Text) (options : Options) (n : Node) : Report Value × Session :=
  s.perform env ((s.interpreter options).evalNode n)

end Session

end ScriptEngine
