import ScriptEngine.Host.Registry
import ScriptEngine.Proofs.Run.Course

/-!
# The courses of programs

A `Plan` is an interpreter without options. It gives the courses of programs and of host functions,
and whatever the options, the interpreter follows them (`Interpreter.execBlock_follows`,
`Interpreter.evalNode_follows`, `Registry.interpreter_follows`).
-/

namespace ScriptEngine

structure Plan (σ : Type) where
  invoke : Text → List Value → Course σ (Option Value)
  rounds : Nat

variable {σ : Type}

namespace Plan

variable (p : Plan σ)

def call (pos : Pos) (name : Text) (args : Course σ (List Value)) : Course σ (Option Value) := do
  .happen (.poll pos)
  let vs ← args
  Course.mapFailure (Failure.locate pos) (p.invoke name vs)

mutual

def eval : Expr → Course σ Value
  | .number _ x => return .number x
  | .string _ s => return .text s
  | .var pos name => do
    match ← Course.find? name with
    | some v => return v
    | none => Course.fail (.error (.of (.undefinedVariable name) pos))
  | .binary pos op lhs rhs => do
    let a ← eval lhs
    let b ← eval rhs
    Course.done (arithmetic pos op a b)
  | .comparison pos op lhs rhs => do
    let a ← eval lhs
    let b ← eval rhs
    Course.done (compareValues pos op a b)
  | .call pos name args => do
    match ← p.call pos name (evalArgs args) with
    | some v => return v
    | none => Course.fail (.error (.of (.typeMismatch (.noResult name)) pos))

def evalArgs : List Expr → Course σ (List Value)
  | [] => return []
  | e :: es => do
    let v ← eval e
    let vs ← evalArgs es
    return v :: vs

end

def condition (c : Condition) : Course σ Bool := do
  let v ← p.eval c.toExpr
  Course.done (asCondition c.pos v)

def evalNode : Node → Course σ Value
  | .expr e => p.eval e
  | .stmt _ => Course.fail .noValue

mutual

def exec : Stmt → Course σ Unit
  | .expr (.call pos name args) => discard <| p.call pos name (p.evalArgs args)
  | .expr e => discard <| p.eval e
  | .assign _ name value => do
    let v ← p.eval value
    Course.happen (.assign name v)
  | .block b => execBlock b
  | .ifThen _ c t => do
    if ← p.condition c then execBlock t
  | .ifElse _ c t e => do
    if ← p.condition c then execBlock t else execBlock e
  | .loop pos c body =>
    Course.repeatWhile (do .happen (.poll pos); p.condition c) (execBlock body) p.rounds

def execBlock : Block → Course σ Unit
  | .mk _ ss => execBody ss

def execBody : List Stmt → Course σ Unit
  | [] => return
  | s :: ss => do
    .happen (.statement ⟨s.pos, s.action⟩)
    exec s
    execBody ss

end

end Plan

/-- The course of a routine, with `p` for the functions it calls and the programs it runs. -/
def Routine.course (p : Plan σ) : Routine σ → Course σ (Option Value)
  | done result => return result
  | fail failure => Course.fail failure
  | inspect next => do
    let env ← Course.environment
    (next env).course p
  | assign name value next => do
    Course.happen (.assign name value)
    next.course p
  | clear next => do
    Course.happen .clear
    next.course p
  | update f next => do
    let s ← Course.updateHost f
    (next s).course p
  | invoke name args next => do
    let v ← p.invoke name args
    (next v).course p
  | run program next => do
    p.execBlock program
    next.course p
  | eval node next => do
    let v ← p.evalNode node
    (next v).course p
  | recover attempt next => do
    let r ← Course.attempt (attempt.course p)
    (next r).course p

namespace Registry

/-- The course of a call. -/
def course (reg : Registry σ) : Nat → Text → List Value → Course σ (Option Value)
  | 0, _, _ => .unfinished
  | fuel + 1, name, args => do
    .happen (.call name args)
    match reg.resolve name args with
    | .error e => .fail (.error e)
    | .ok routine => routine.course ⟨reg.course fuel, fuel⟩

def plan (reg : Registry σ) (fuel : Nat) : Plan σ := ⟨reg.course fuel, fuel⟩

end Registry

/-! ## The interpreter follows its plan -/

namespace Interpreter

variable {it : Interpreter σ} {p : Plan σ}

structure Follows (it : Interpreter σ) (p : Plan σ) : Prop where
  invoke (name : Text) (args : List Value) :
    (it.invoke name args).Follows it.options (p.invoke name args)
  rounds : it.rounds = p.rounds

theorem poll_follows (pos : Pos) : (it.poll pos).Follows it.options (.happen (.poll pos)) := by
  obtain ⟨⟨cancel, trace⟩, invoke, rounds⟩ := it
  intro s
  cases cancel with
  | none => rfl
  | some fires =>
    show (if fires (s.polls + 1) then Run.fail _ else pure () : Run σ Unit)
      { s with polls := s.polls + 1 } = _
    rw [Course.happen, Course.run, Event.note, Event.stop?]
    cases hf : fires (s.polls + 1) <;> simp [hf] <;> rfl

theorem traceStatement_follows (s : Stmt) :
    (it.traceStatement s).Follows it.options (.happen (.statement ⟨s.pos, s.action⟩)) := by
  obtain ⟨⟨cancel, trace⟩, invoke, rounds⟩ := it
  cases trace <;> exact fun _ => rfl

theorem call_follows (hi : it.Follows p) (pos : Pos) (name : Text) {args : Run σ (List Value)}
    {c : Course σ (List Value)} (ha : args.Follows it.options c) :
    (it.call pos name args).Follows it.options (p.call pos name c) :=
  (poll_follows pos).bind fun _ => ha.bind fun vs =>
    (hi.invoke name vs).mapFailure _

mutual

theorem eval_follows (hi : it.Follows p) (e : Expr) :
    (it.eval e).Follows it.options (p.eval e) := by
  cases e with
  | number | string =>
    unfold eval Plan.eval
    exact .pure _
  | var pos name =>
    unfold eval Plan.eval
    refine (Run.Follows.find? name).bind fun v => ?_
    cases v with
    | some v => exact .pure v
    | none => exact .fail _
  | binary pos op l r =>
    unfold eval Plan.eval
    exact (eval_follows hi l).bind fun a => (eval_follows hi r).bind fun b => .ofExcept _
  | comparison pos op l r =>
    unfold eval Plan.eval
    exact (eval_follows hi l).bind fun a => (eval_follows hi r).bind fun b => .ofExcept _
  | call pos name args =>
    unfold eval Plan.eval
    refine (call_follows hi pos name (evalArgs_follows hi args)).bind fun v => ?_
    cases v with
    | some v => exact .pure v
    | none => exact .fail _

theorem evalArgs_follows (hi : it.Follows p) (es : List Expr) :
    (it.evalArgs es).Follows it.options (p.evalArgs es) := by
  cases es with
  | nil =>
    unfold evalArgs Plan.evalArgs
    exact .pure _
  | cons e es =>
    unfold evalArgs Plan.evalArgs
    exact (eval_follows hi e).bind fun v => (evalArgs_follows hi es).bind fun vs => .pure _

end

theorem condition_follows (hi : it.Follows p) (c : Condition) :
    (it.condition c).Follows it.options (p.condition c) :=
  (eval_follows hi c.toExpr).bind fun _ => .ofExcept _

theorem evalNode_follows (hi : it.Follows p) (n : Node) :
    (it.evalNode n).Follows it.options (p.evalNode n) := by
  cases n with
  | expr e => exact eval_follows hi e
  | stmt s => exact .fail _

mutual

theorem exec_follows (hi : it.Follows p) (s : Stmt) :
    (it.exec s).Follows it.options (p.exec s) := by
  cases s with
  | expr e =>
    cases e with
    | call pos name args =>
      unfold exec Plan.exec
      exact (call_follows hi pos name (evalArgs_follows hi args)).discard
    | _ =>
      unfold exec Plan.exec
      exact (eval_follows hi _).discard
  | assign pos name v =>
    unfold exec Plan.exec
    exact (eval_follows hi v).bind fun v => .assign name v
  | block b =>
    unfold exec Plan.exec
    exact execBlock_follows hi b
  | ifThen pos c t =>
    unfold exec Plan.exec
    refine (condition_follows hi c).bind fun holds => ?_
    cases holds with
    | true => exact execBlock_follows hi t
    | false => exact .pure ()
  | ifElse pos c t e =>
    unfold exec Plan.exec
    refine (condition_follows hi c).bind fun holds => ?_
    cases holds with
    | true => exact execBlock_follows hi t
    | false => exact execBlock_follows hi e
  | loop pos c b =>
    unfold exec Plan.exec
    rw [hi.rounds]
    exact ((poll_follows pos).bind fun _ => condition_follows hi c).repeatWhile
      (execBlock_follows hi b) p.rounds

theorem execBlock_follows (hi : it.Follows p) (b : Block) :
    (it.execBlock b).Follows it.options (p.execBlock b) := by
  cases b with
  | mk pos ss =>
    unfold execBlock Plan.execBlock
    exact execBody_follows hi ss

theorem execBody_follows (hi : it.Follows p) (ss : List Stmt) :
    (it.execBody ss).Follows it.options (p.execBody ss) := by
  cases ss with
  | nil =>
    unfold execBody Plan.execBody
    exact .pure ()
  | cons s ss =>
    unfold execBody Plan.execBody
    exact (traceStatement_follows s).bind fun _ => (exec_follows hi s).bind fun _ =>
      execBody_follows hi ss

end

end Interpreter

/-! ## Host functions follow theirs -/

theorem Routine.perform_follows {it : Interpreter σ} {p : Plan σ} (hi : it.Follows p)
    (r : Routine σ) : (r.perform it).Follows it.options (r.course p) := by
  induction r with
  | done v => exact .pure v
  | fail f => exact .fail f
  | inspect next ih => exact Run.Follows.environment.bind fun env => ih env
  | assign name v next ih => exact (Run.Follows.assign name v).bind fun _ => ih
  | clear next ih => exact Run.Follows.clear.bind fun _ => ih
  | update f next ih => exact (Run.Follows.updateHost f).bind fun s => ih s
  | invoke name args next ih => exact (hi.invoke name args).bind fun v => ih v
  | run b next ih => exact (Interpreter.execBlock_follows hi b).bind fun _ => ih
  | eval n next ih => exact (Interpreter.evalNode_follows hi n).bind fun v => ih v
  | recover attempt next iha ih => exact iha.attempt.bind fun r => ih r

theorem Registry.interpreter_follows (reg : Registry σ) (options : Options) (fuel : Nat) :
    (reg.interpreter options fuel).Follows (reg.plan fuel) := by
  refine ⟨?_, rfl⟩
  show ∀ name args, (reg.invoke options fuel name args).Follows options (reg.course fuel name args)
  induction fuel with
  | zero => exact fun _ _ => .unfinished
  | succ fuel ih =>
    -- The functions that a function calls have less fuel.
    intro name args
    refine (Run.Follows.noteCall name args).bind fun _ => ?_
    cases reg.resolve name args with
    | error e => exact .fail _
    | ok routine => exact routine.perform_follows ⟨ih, rfl⟩

end ScriptEngine
