import ScriptEngine.Host.Registry
import ScriptEngine.Proofs.Run.ValueStack

/-!
# The interpreter as a stack machine

Wherever programs are run with a stack of values, also by host functions that run programs again,
the stack makes no difference (`stack_machine_refines`). It does not matter what stands on it at
first, nor what a pop off the empty stack would do.

To visit an expression adds its value to the stack, and statements add the values that nobody takes.
These are not looked at again: the machine may do with the stack what it likes each time it leaves
one (`Interpreter.leavingBlock_leaves`).
-/

namespace ScriptEngine

variable {σ α β : Type}

namespace StackRun

/-- What a run with a stack comes to, by what comes of one without. -/
def answer (r : Except Stop α × RunState σ) (f : α → β × List Value) :
    Except Stop (Option (β × List Value)) × RunState σ :=
  (r.1.map fun a => some (f a), r.2)

/-- `x` comes to what `y` comes to; `f` is what it makes of a value and of the stack. -/
def Comes (x : StackRun σ β) (y : Run σ α) (f : α → List Value → β × List Value) : Prop :=
  ∀ st s, x.outcome st s = answer (y.run s) fun a => f a st

/-- `x` comes to what `y` comes to, and adds to the stack some values that do not depend on it. Each
time it adds one, `leave` is what becomes of the stack. -/
def Leaves (leave : List Value → List Value) (x : StackRun σ α) (y : Run σ α) : Prop :=
  ∀ s, ∃ left : List Value, ∀ st,
    x.outcome st s = answer (y.run s) fun a => (a, left.foldr (fun v st => leave (v :: st)) st)

/-- The result of a run that starts with the stack `st`. A pop off the empty stack does `crash`. -/
def finish (crash : Run σ α) (st : List Value) (x : StackRun σ α) : Run σ α := do
  match ← (x.run st).run with
  | some (a, _) => return a
  | none => crash

theorem finish_eq {x : StackRun σ α} {y : Run σ α} {st : List Value}
    (h : ∀ s, ∃ st', x.outcome st s = answer (y.run s) fun a => (a, st')) (crash : Run σ α) :
    x.finish crash st = y := by
  funext s
  obtain ⟨st', h⟩ := h s
  show ((x.run st).run >>= _ : Run σ α).run s = y.run s
  rw [Run.run_bind, show ((x.run st).run).run s = _ from h]
  rcases y.run s with ⟨e | a, s'⟩ <;> rfl

theorem comes_ofRun (y : Run σ α) : (ofRun y).Comes y fun a st => (a, st) := by
  intro st s
  rw [outcome_ofRun]
  rcases y.run s with ⟨e | a, s'⟩ <;> rfl

theorem comes_push (y : Run σ Value) : (ofRun y >>= push).Comes y fun v st => ((), v :: st) := by
  intro st s
  rw [outcome_bind, outcome_ofRun]
  rcases y.run s with ⟨e | a, s'⟩ <;> rfl

section Leaves

variable {leave : List Value → List Value} {x : StackRun σ α} {y : Run σ α}

theorem leaves_ofRun (y : Run σ α) : (ofRun y).Leaves leave y :=
  fun s => ⟨[], fun st => comes_ofRun y st s⟩

theorem Leaves.bind {f : α → StackRun σ β} {g : α → Run σ β} (hx : x.Leaves leave y)
    (hf : ∀ a, (f a).Leaves leave (g a)) : (x >>= f).Leaves leave (y >>= g) := by
  intro s
  obtain ⟨left, h⟩ := hx s
  simp only [outcome_bind, Run.run_bind, h]
  rcases y.run s with ⟨e | a, s'⟩
  · exact ⟨[], fun _ => rfl⟩
  · obtain ⟨left', h'⟩ := hf a s'
    refine ⟨left' ++ left, fun st => ?_⟩
    rw [List.foldr_append]
    exact h' _

/-- A value that nobody takes. -/
theorem leaves_push (y : Run σ Value) :
    ((ofRun y >>= push) >>= fun _ => modify leave).Leaves leave (discard y) := by
  rw [bind_assoc]
  exact (leaves_ofRun y).bind fun v _ => ⟨[v], fun _ => rfl⟩

theorem Leaves.repeatWhile {test : StackRun σ Bool} {body : StackRun σ Unit} {test' : Run σ Bool}
    {body' : Run σ Unit} (ht : test.Leaves leave test') (hb : body.Leaves leave body') (n : Nat) :
    (repeatWhile test body n).Leaves leave (Run.repeatWhile test' body' n) := by
  induction n with
  | zero => exact leaves_ofRun _
  | succ n ih =>
    refine ht.bind fun again => ?_
    cases again with
    | true => exact hb.bind fun _ => ih
    | false => exact leaves_ofRun (pure ())

end Leaves

end StackRun

open StackRun (ofRun push)

namespace Interpreter

variable (it : Interpreter σ)

/-- The value of a node. -/
def visitNode : Node → StackRun σ Value
  | .expr e => (it.visit e).value
  | .stmt _ => ofRun (Run.fail .noValue)

theorem visit_comes (e : Expr) : (it.visit e).Comes (it.eval e) fun v st => ((), v :: st) := by
  rw [visit_eq]
  exact StackRun.comes_push _

theorem value_comes (e : Expr) : (it.visit e).value.Comes (it.eval e) fun v st => (v, st) := by
  rw [value_visit]
  exact StackRun.comes_ofRun _

theorem visitNode_comes (n : Node) :
    (it.visitNode n).Comes (it.evalNode n) fun v st => (v, st) := by
  cases n with
  | expr e => exact it.value_comes e
  | stmt s => exact StackRun.comes_ofRun _

/-! ## Values left behind -/

variable (leave : List Value → List Value)

mutual

/-- Like `visitStmt`, but `leave` is what becomes of the stack each time that a value is left. -/
def leavingStmt : Stmt → StackRun σ Unit
  | .expr (.call pos name args) => discard <| it.stackCall pos name (it.visitArgs args)
  | .expr e => do
    it.visit e
    modify leave
  | .assign _ name value => do
    let v ← (it.visit value).value
    ofRun (Run.assign name v)
  | .block b => leavingBlock b
  | .ifThen _ c t => do
    if ← it.stackCondition c then leavingBlock t
  | .ifElse _ c t e => do
    if ← it.stackCondition c then leavingBlock t else leavingBlock e
  | .loop pos c body =>
    StackRun.repeatWhile (do ofRun (it.poll pos); it.stackCondition c) (leavingBlock body) it.rounds

def leavingBlock : Block → StackRun σ Unit
  | .mk _ ss => leavingBody ss

def leavingBody : List Stmt → StackRun σ Unit
  | [] => return
  | s :: ss => do
    ofRun (it.traceStatement s)
    leavingStmt s
    leavingBody ss

end

mutual

theorem leavingStmt_id (s : Stmt) : it.leavingStmt id s = it.visitStmt s := by
  cases s with
  | expr e =>
    cases e with
    | call =>
      unfold leavingStmt visitStmt
      rfl
    | _ =>
      unfold leavingStmt visitStmt
      exact bind_pure _
  | assign =>
    unfold leavingStmt visitStmt
    rfl
  | block b =>
    unfold leavingStmt visitStmt
    exact leavingBlock_id b
  | ifThen pos c t =>
    unfold leavingStmt visitStmt
    rw [leavingBlock_id t]
  | ifElse pos c t e =>
    unfold leavingStmt visitStmt
    rw [leavingBlock_id t, leavingBlock_id e]
  | loop pos c b =>
    unfold leavingStmt visitStmt
    rw [leavingBlock_id b]

theorem leavingBlock_id (b : Block) : it.leavingBlock id b = it.visitBlock b := by
  cases b with
  | mk pos ss =>
    unfold leavingBlock visitBlock
    exact leavingBody_id ss

theorem leavingBody_id (ss : List Stmt) : it.leavingBody id ss = it.visitBody ss := by
  cases ss with
  | nil =>
    unfold leavingBody visitBody
    rfl
  | cons s ss =>
    unfold leavingBody visitBody
    rw [leavingStmt_id s, leavingBody_id ss]

end

mutual

theorem leavingStmt_leaves (s : Stmt) : (it.leavingStmt leave s).Leaves leave (it.exec s) := by
  cases s with
  | expr e =>
    cases e with
    | call pos name args =>
      unfold leavingStmt exec
      rw [visitArgs_eq, stackCall_ofRun]
      exact (StackRun.leaves_ofRun _).bind fun _ => StackRun.leaves_ofRun (pure ())
    | _ =>
      unfold leavingStmt exec
      rw [visit_eq]
      exact StackRun.leaves_push _
  | assign pos name value =>
    unfold leavingStmt exec
    rw [value_visit]
    exact (StackRun.leaves_ofRun _).bind fun _ => StackRun.leaves_ofRun _
  | block b =>
    unfold leavingStmt exec
    exact leavingBlock_leaves b
  | ifThen pos c t =>
    unfold leavingStmt exec
    rw [stackCondition_eq]
    refine (StackRun.leaves_ofRun _).bind fun holds => ?_
    cases holds with
    | true => exact leavingBlock_leaves t
    | false => exact StackRun.leaves_ofRun (pure ())
  | ifElse pos c t e =>
    unfold leavingStmt exec
    rw [stackCondition_eq]
    refine (StackRun.leaves_ofRun _).bind fun holds => ?_
    cases holds with
    | true => exact leavingBlock_leaves t
    | false => exact leavingBlock_leaves e
  | loop pos c b =>
    unfold leavingStmt exec
    rw [stackCondition_eq, ← StackRun.ofRun_bind]
    exact (StackRun.leaves_ofRun _).repeatWhile (leavingBlock_leaves b) _

theorem leavingBlock_leaves (b : Block) :
    (it.leavingBlock leave b).Leaves leave (it.execBlock b) := by
  cases b with
  | mk pos ss =>
    unfold leavingBlock execBlock
    exact leavingBody_leaves ss

theorem leavingBody_leaves (ss : List Stmt) :
    (it.leavingBody leave ss).Leaves leave (it.execBody ss) := by
  cases ss with
  | nil =>
    unfold leavingBody execBody
    exact StackRun.leaves_ofRun (pure ())
  | cons s ss =>
    unfold leavingBody execBody
    exact (StackRun.leaves_ofRun _).bind fun _ => (leavingStmt_leaves s).bind fun _ =>
      leavingBody_leaves ss

end

theorem visitBlock_outcome (b : Block) (s : RunState σ) :
    ∃ left, ∀ st, (it.visitBlock b).outcome st s =
      StackRun.answer ((it.execBlock b).run s) fun a => (a, left ++ st) := by
  obtain ⟨left, h⟩ := it.leavingBlock_leaves id b s
  refine ⟨left, fun st => ?_⟩
  rw [← leavingBlock_id, h]
  simp only [id_eq, List.foldr_cons_eq_append']

theorem finish_visitBlock (b : Block) (crash : Run σ Unit) (st : List Value) :
    (it.visitBlock b).finish crash st = it.execBlock b := by
  refine StackRun.finish_eq (fun s => ?_) crash
  obtain ⟨left, h⟩ := it.visitBlock_outcome b s
  exact ⟨left ++ st, h st⟩

theorem finish_visitNode (n : Node) (crash : Run σ Value) (st : List Value) :
    (it.visitNode n).finish crash st = it.evalNode n :=
  StackRun.finish_eq (fun s => ⟨st, it.visitNode_comes n st s⟩) crash

end Interpreter

/-! ## Host functions that run programs -/

/-- Carries out a routine; every program that it runs, and every node that it evaluates, has a stack
of its own. -/
def Routine.performStacked (crash : (α : Type) → Run σ α) (it : Interpreter σ) :
    Routine σ → Run σ (Option Value)
  | done result => return result
  | fail failure => Run.fail failure
  | inspect next => do
    let env ← Run.environment
    (next env).performStacked crash it
  | assign name value next => do
    Run.assign name value
    next.performStacked crash it
  | clear next => do
    Run.clear
    next.performStacked crash it
  | update f next => do
    let s ← Run.updateHost f
    (next s).performStacked crash it
  | invoke name args next => do
    let v ← it.invoke name args
    (next v).performStacked crash it
  | run program next => do
    (it.visitBlock program).finish (crash Unit) []
    next.performStacked crash it
  | eval node next => do
    let v ← (it.visitNode node).finish (crash Value) []
    (next v).performStacked crash it
  | recover attempt next => do
    let r ← Run.attempt (attempt.performStacked crash it)
    (next r).performStacked crash it

theorem Routine.performStacked_eq (crash : (α : Type) → Run σ α) (it : Interpreter σ)
    (r : Routine σ) : r.performStacked crash it = r.perform it := by
  induction r with
  | done | fail => rfl
  | inspect next ih | update f next ih | invoke name args next ih =>
    simp only [performStacked, perform, ih]
  | assign name v next ih | clear next ih => simp only [performStacked, perform, ih]
  | run b next ih => simp only [performStacked, perform, Interpreter.finish_visitBlock, ih]
  | eval n next ih => simp only [performStacked, perform, Interpreter.finish_visitNode, ih]
  | recover attempt next iha ih => simp only [performStacked, perform, iha, ih]

namespace Registry

variable (reg : Registry σ) (crash : (α : Type) → Run σ α) (options : Options)

/-- Calls a function that runs programs with stacks of their own. -/
def stackInvoke : Nat → Text → List Value → Run σ (Option Value)
  | 0, _, _ => Run.unfinished
  | fuel + 1, name, args => do
    Run.noteCall name args
    let routine ← Run.ofExcept ((reg.resolve name args).mapError Failure.error)
    routine.performStacked crash ⟨options, stackInvoke fuel, fuel⟩

def stackInterpreter (fuel : Nat) : Interpreter σ :=
  ⟨options, reg.stackInvoke crash options fuel, fuel⟩

theorem stackInvoke_eq (fuel : Nat) :
    reg.stackInvoke crash options fuel = reg.invoke options fuel := by
  induction fuel with
  | zero => rfl
  | succ fuel ih =>
    funext name args
    refine congrArg (Run.noteCall name args >>= ·) (funext fun _ => ?_)
    cases reg.resolve name args with
    | error e => rfl
    | ok routine =>
      show routine.performStacked crash ⟨options, reg.stackInvoke crash options fuel, fuel⟩ = _
      rw [ih, Routine.performStacked_eq]

theorem stackInterpreter_eq (fuel : Nat) :
    reg.stackInterpreter crash options fuel = reg.interpreter options fuel := by
  rw [stackInterpreter, stackInvoke_eq, interpreter]

end Registry

/-- Whatever the tree, the state, the host functions and the stack, and whatever a pop off the empty
stack would do, the stack machine does what the interpreter does. An expression adds its value to
the stack, and the values that statements leave there are not looked at again. -/
theorem stack_machine_refines (reg : Registry σ) (options : Options) (fuel : Nat)
    (crash : (α : Type) → Run σ α) :
    let machine := reg.stackInterpreter crash options fuel
    let it := reg.interpreter options fuel
    (∀ b st, (machine.visitBlock b).finish (crash Unit) st = it.execBlock b) ∧
    (∀ n st, (machine.visitNode n).finish (crash Value) st = it.evalNode n) ∧
    (∀ e, (machine.visit e).Comes (it.eval e) fun v st => ((), v :: st)) ∧
    (∀ e, (machine.visit e).value.Comes (it.eval e) fun v st => (v, st)) ∧
    (∀ b s, ∃ left, ∀ st, (machine.visitBlock b).outcome st s =
      StackRun.answer ((it.execBlock b).run s) fun a => (a, left ++ st)) ∧
    ∀ leave b, (machine.leavingBlock leave b).Leaves leave (it.execBlock b) := by
  intro machine it
  have heq : machine = it := reg.stackInterpreter_eq crash options fuel
  rw [heq]
  exact ⟨fun b => it.finish_visitBlock b _, fun n => it.finish_visitNode n _, it.visit_comes,
    it.value_comes, it.visitBlock_outcome, it.leavingBlock_leaves⟩

end ScriptEngine
