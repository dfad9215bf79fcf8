import ScriptEngine.Proofs.Run.Ends
import ScriptEngine.Run.Interpreter

/-!
# The value stack

The interpreter can also be written with a stack of values: to visit an expression is to push its
value, and whoever needs the value pops it. An expression that stands as a statement leaves its value
behind. A pop finds a value each time, and the outcome is that of the interpreter without a stack
(`Interpreter.visit_eq`, `Interpreter.visitBlock_agrees`).
-/

namespace ScriptEngine

/-- A run with a stack of values. It has no result if a value is popped off the empty stack. -/
abbrev StackRun (σ : Type) := StateT (List Value) (OptionT (Run σ))

namespace StackRun

variable {σ α β : Type}

/-- Does not touch the stack. -/
def ofRun (y : Run σ α) : StackRun σ α := monadLift y

def push (v : Value) : StackRun σ Unit := modify (v :: ·)

def pop : StackRun σ Value := do
  match ← get with
  | [] => failure
  | v :: vs =>
    set vs
    return v

/-- Takes the value that `x` has pushed. -/
def value (x : StackRun σ Unit) : StackRun σ Value := do
  x
  pop

def repeatWhile (test : StackRun σ Bool) (body : StackRun σ Unit) : Nat → StackRun σ Unit
  | 0 => ofRun Run.unfinished
  | n + 1 => do
    if ← test then
      body
      repeatWhile test body n

@[simp] theorem ofRun_pure (a : α) : ofRun (pure a : Run σ α) = pure a := monadLift_pure a

@[simp] theorem ofRun_bind (y : Run σ α) (g : α → Run σ β) :
    ofRun (y >>= g) = ofRun y >>= fun a => ofRun (g a) := monadLift_bind y g

@[simp] theorem ofRun_fail_bind (f : Failure) (g : α → StackRun σ β) :
    (ofRun (Run.fail f) >>= g) = ofRun (Run.fail f) := rfl

theorem value_push (y : Run σ Value) : value (ofRun y >>= push) = ofRun y := by
  unfold value
  rw [bind_assoc]
  show (ofRun y >>= pure) = _
  rw [bind_pure]

/-- What comes of a run, and of its stack. -/
def outcome (x : StackRun σ α) (st : List Value) (s : RunState σ) :
    Except Stop (Option (α × List Value)) × RunState σ :=
  ((x.run st).run).run s

/-- `x` comes to what `y` comes to. It never pops more than it has pushed, but may leave values. -/
def Agrees (x : StackRun σ α) (y : Run σ α) : Prop :=
  ∀ st s, match y.run s with
    | (.ok a, s') => ∃ left, x.outcome st s = (.ok (some (a, left ++ st)), s')
    | (.error e, s') => x.outcome st s = (.error e, s')

theorem outcome_bind (x : StackRun σ α) (f : α → StackRun σ β) (st : List Value) (s : RunState σ) :
    (x >>= f).outcome st s =
      match x.outcome st s with
      | (.ok (some (a, st')), s') => (f a).outcome st' s'
      | (.ok none, s') => (.ok none, s')
      | (.error e, s') => (.error e, s') := by
  unfold outcome
  rw [StateT.run_bind, OptionT.run_bind, Option.elimM, Run.run_bind]
  rcases ((x.run st).run).run s with ⟨_ | _ | ⟨a, st'⟩, s'⟩ <;> rfl

theorem outcome_ofRun (y : Run σ α) (st : List Value) (s : RunState σ) :
    (ofRun y).outcome st s =
      match y.run s with
      | (.ok a, s') => (.ok (some (a, st)), s')
      | (.error e, s') => (.error e, s') := by
  show ((y >>= fun a => pure (some a)) >>= _ : Run σ _).run s = _
  rw [bind_assoc, Run.run_bind]
  rcases y.run s with ⟨_ | _, _⟩ <;> rfl

theorem agrees_ofRun (y : Run σ α) : (ofRun y).Agrees y := by
  intro st s
  rw [outcome_ofRun]
  rcases y.run s with ⟨e | a, s'⟩
  · rfl
  · exact ⟨[], rfl⟩

theorem Agrees.bind {x : StackRun σ α} {y : Run σ α} {f : α → StackRun σ β} {g : α → Run σ β}
    (hx : x.Agrees y) (hf : ∀ a, (f a).Agrees (g a)) : (x >>= f).Agrees (y >>= g) := by
  intro st s
  have h := hx st s
  rw [outcome_bind, Run.run_bind]
  generalize y.run s = r at h ⊢
  rcases r with ⟨e | a, s'⟩
  · rw [h]
  · -- What `x` has left behind is part of the stack that `f a` starts with.
    obtain ⟨left, h⟩ := h
    have h' := hf a (left ++ st) s'
    simp only [h]
    generalize (g a).run s' = r at h' ⊢
    rcases r with ⟨e | b, s''⟩
    · exact h'
    · obtain ⟨left', h'⟩ := h'
      exact ⟨left' ++ left, by rw [List.append_assoc]; exact h'⟩

/-- A value that nobody takes stays on the stack. -/
theorem agrees_push (y : Run σ Value) : (ofRun y >>= push).Agrees (discard y) :=
  (agrees_ofRun y).bind fun v _ _ => ⟨[v], rfl⟩

theorem Agrees.repeatWhile {test : StackRun σ Bool} {body : StackRun σ Unit} {test' : Run σ Bool}
    {body' : Run σ Unit} (ht : test.Agrees test') (hb : body.Agrees body') (n : Nat) :
    (repeatWhile test body n).Agrees (Run.repeatWhile test' body' n) := by
  induction n with
  | zero => exact agrees_ofRun _
  | succ n ih =>
    refine ht.bind fun b => ?_
    cases b with
    | true => exact hb.bind fun _ => ih
    | false => exact agrees_ofRun (pure ())

/-- Some pop finds the stack empty. -/
def Underflows (x : StackRun σ α) : Prop := ∃ st s, (x.outcome st s).1 = .ok none

theorem Agrees.not_underflows {x : StackRun σ α} {y : Run σ α} (hx : x.Agrees y) :
    ¬ x.Underflows := by
  rintro ⟨st, s, hn⟩
  have h := hx st s
  generalize y.run s = r at h
  rcases r with ⟨e | a, s'⟩
  · rw [show x.outcome st s = _ from h] at hn
    cases hn
  · obtain ⟨left, h⟩ := h
    rw [h] at hn
    cases hn

end StackRun

open StackRun (ofRun push)

namespace Interpreter

variable {σ : Type} (it : Interpreter σ)

def stackCall (pos : Pos) (name : Text) (args : StackRun σ (List Value)) :
    StackRun σ (Option Value) := do
  ofRun (it.poll pos)
  let vs ← args
  ofRun (Run.mapFailure (Failure.locate pos) (it.invoke name vs))

mutual

def visit : Expr → StackRun σ Unit
  | .number _ x => push (.number x)
  | .string _ s => push (.text s)
  | .var pos name => do
    match ← ofRun (Run.find? name) with
    | some v => push v
    | none => ofRun (Run.fail (.error (.of (.undefinedVariable name) pos)))
  | .binary pos op lhs rhs => do
    let a ← (visit lhs).value
    let b ← (visit rhs).value
    push (← ofRun (Run.ofExcept (arithmetic pos op a b)))
  | .comparison pos op lhs rhs => do
    let a ← (visit lhs).value
    let b ← (visit rhs).value
    push (← ofRun (Run.ofExcept (compareValues pos op a b)))
  | .call pos name args => do
    match ← it.stackCall pos name (visitArgs args) with
    | some v => push v
    | none => ofRun (Run.fail (.error (.of (.typeMismatch (.noResult name)) pos)))

def visitArgs : List Expr → StackRun σ (List Value)
  | [] => return []
  | e :: es => do
    let v ← (visit e).value
    let vs ← visitArgs es
    return v :: vs

end

theorem stackCall_ofRun (pos : Pos) (name : Text) (args : Run σ (List Value)) :
    it.stackCall pos name (ofRun args) = ofRun (it.call pos name args) := by
  simp [stackCall, call]

mutual

theorem visit_eq (e : Expr) : it.visit e = ofRun (it.eval e) >>= push := by
  cases e with
  | number | string => simp [visit, eval]
  | var pos name =>
    simp only [visit, eval, StackRun.ofRun_bind, bind_assoc]
    congr 1
    funext v
    cases v <;> simp
  | binary pos op l r | comparison pos op l r =>
    simp [visit, eval, visit_eq l, visit_eq r, StackRun.value_push]
  | call pos name args =>
    simp only [visit, eval, visitArgs_eq args, stackCall_ofRun, StackRun.ofRun_bind, bind_assoc]
    congr 1
    funext v
    cases v <;> simp

theorem visitArgs_eq (es : List Expr) : it.visitArgs es = ofRun (it.evalArgs es) := by
  cases es with
  | nil => simp [visitArgs, evalArgs]
  | cons e es =>
    simp only [visitArgs, evalArgs, visit_eq e, visitArgs_eq es, StackRun.value_push,
      StackRun.ofRun_bind, StackRun.ofRun_pure]

end

theorem value_visit (e : Expr) : (it.visit e).value = ofRun (it.eval e) := by
  rw [visit_eq, StackRun.value_push]

/-! ## Statements -/

def stackCondition (c : Condition) : StackRun σ Bool := do
  let v ← (it.visit c.toExpr).value
  ofRun (Run.ofExcept (asCondition c.pos v))

mutual

def visitStmt : Stmt → StackRun σ Unit
  | .expr (.call pos name args) => discard <| it.stackCall pos name (it.visitArgs args)
  | .expr e => it.visit e
  | .assign _ name value => do
    let v ← (it.visit value).value
    ofRun (Run.assign name v)
  | .block b => visitBlock b
  | .ifThen _ c t => do
    if ← it.stackCondition c then visitBlock t
  | .ifElse _ c t e => do
    if ← it.stackCondition c then visitBlock t else visitBlock e
  | .loop pos c body =>
    StackRun.repeatWhile (do ofRun (it.poll pos); it.stackCondition c) (visitBlock body) it.rounds

def visitBlock : Block → StackRun σ Unit
  | .mk _ ss => visitBody ss

def visitBody : List Stmt → StackRun σ Unit
  | [] => return
  | s :: ss => do
    ofRun (it.traceStatement s)
    visitStmt s
    visitBody ss

end

theorem stackCondition_eq (c : Condition) : it.stackCondition c = ofRun (it.condition c) := by
  simp only [stackCondition, condition, value_visit, StackRun.ofRun_bind]

mutual

theorem visitStmt_agrees (s : Stmt) : (it.visitStmt s).Agrees (it.exec s) := by
  cases s with
  | expr e =>
    cases e with
    | call pos name args =>
      unfold visitStmt exec
      rw [visitArgs_eq, stackCall_ofRun]
      exact (StackRun.agrees_ofRun _).bind fun _ => StackRun.agrees_ofRun (pure ())
    | _ =>
      unfold visitStmt exec
      rw [visit_eq]
      exact StackRun.agrees_push _
  | assign pos name value =>
    unfold visitStmt exec
    rw [value_visit]
    exact (StackRun.agrees_ofRun _).bind fun _ => StackRun.agrees_ofRun _
  | block b =>
    unfold visitStmt exec
    exact visitBlock_agrees b
  | ifThen pos c b =>
    unfold visitStmt exec
    rw [stackCondition_eq]
    refine (StackRun.agrees_ofRun _).bind fun t => ?_
    cases t with
    | true => exact visitBlock_agrees b
    | false => exact StackRun.agrees_ofRun (pure ())
  | ifElse pos c b b' =>
    unfold visitStmt exec
    rw [stackCondition_eq]
    refine (StackRun.agrees_ofRun _).bind fun t => ?_
    cases t with
    | true => exact visitBlock_agrees b
    | false => exact visitBlock_agrees b'
  | loop pos c b =>
    unfold visitStmt exec
    rw [stackCondition_eq, ← StackRun.ofRun_bind]
    exact (StackRun.agrees_ofRun _).repeatWhile (visitBlock_agrees b) _

theorem visitBlock_agrees (b : Block) : (it.visitBlock b).Agrees (it.execBlock b) := by
  cases b with
  | mk pos ss =>
    unfold visitBlock execBlock
    exact visitBody_agrees ss

theorem visitBody_agrees (ss : List Stmt) : (it.visitBody ss).Agrees (it.execBody ss) := by
  cases ss with
  | nil =>
    unfold visitBody execBody
    exact StackRun.agrees_ofRun (pure ())
  | cons s ss =>
    unfold visitBody execBody
    exact (StackRun.agrees_ofRun _).bind fun _ => (visitStmt_agrees s).bind fun _ =>
      visitBody_agrees ss

end

end Interpreter

end ScriptEngine
