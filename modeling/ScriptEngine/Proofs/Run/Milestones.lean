import ScriptEngine.Proofs.Run.Visits

/-!
# The milestones of a run

`Interpreter.blockMilestones` lists, in order, the invocations that the calls of a program make, the
loops that it comes to and the rounds that these take. A run that fails comes to no more of them.

`Interpreter.Marks` says how runs are put together of parts that do nothing of interest, of calls and
of loops, and how their milestones come of that. It holds of programs (`Interpreter.execBlock_marks`),
so that a fact about calls, polls or errors takes an induction over these few cases.
-/

namespace ScriptEngine

inductive Milestone (σ : Type) where
  /-- The function of a call is about to be invoked, with the values of the arguments. -/
  | invocation (pos : Pos) (name : Text) (values : List Value) (state : RunState σ)
  /-- A loop begins. -/
  | loop (pos : Pos)
  /-- The test of a loop holds, and its body is about to be carried out. -/
  | round (pos : Pos)

variable {σ α β γ : Type}

/-! ## The milestones of programs -/

namespace Interpreter

variable (it : Interpreter σ)

mutual

def exprMilestones : Expr → RunState σ → List (Milestone σ)
  | .number _ _, _ | .string _ _, _ | .var _ _, _ => []
  | .binary _ _ l r, s | .comparison _ _ l r, s =>
    exprMilestones l s ++ (it.eval l).after s fun _ s' => exprMilestones r s'
  | .call pos name args, s => (it.poll pos).after s fun _ s' =>
    argMilestones args s' ++ (it.evalArgs args).after s' fun vs s'' =>
      [.invocation pos name vs s'']

def argMilestones : List Expr → RunState σ → List (Milestone σ)
  | [], _ => []
  | e :: es, s => exprMilestones e s ++ (it.eval e).after s fun _ s' => argMilestones es s'

end

/-- The milestones of a loop after its beginning, given those of its test and of its body. -/
def roundMilestones (pos : Pos) (test : Run σ Bool) (body : Run σ Unit)
    (v w : RunState σ → List (Milestone σ)) : Nat → RunState σ → List (Milestone σ)
  | 0, _ => []
  | n + 1, s => v s ++ test.after s fun again s' =>
    if again then
      .round pos :: (w s' ++ body.after s' fun _ s'' => roundMilestones pos test body v w n s'')
    else []

mutual

def stmtMilestones : Stmt → RunState σ → List (Milestone σ)
  | .expr e, s => it.exprMilestones e s
  | .assign _ _ value, s => it.exprMilestones value s
  | .block b, s => blockMilestones b s
  | .ifThen _ c t, s => it.exprMilestones c.toExpr s ++
    (it.condition c).after s fun holds s' => if holds then blockMilestones t s' else []
  | .ifElse _ c t e, s => it.exprMilestones c.toExpr s ++
    (it.condition c).after s fun holds s' =>
      if holds then blockMilestones t s' else blockMilestones e s'
  | .loop pos c body, s =>
    .loop pos :: roundMilestones pos (do it.poll pos; it.condition c) (it.execBlock body)
      (fun s => (it.poll pos).after s fun _ s' => it.exprMilestones c.toExpr s')
      (fun s => blockMilestones body s) it.rounds s

def blockMilestones : Block → RunState σ → List (Milestone σ)
  | .mk _ ss, s => bodyMilestones ss s

def bodyMilestones : List Stmt → RunState σ → List (Milestone σ)
  | [], _ => []
  | st :: ss, s => (it.traceStatement st).after s fun _ s' =>
    stmtMilestones st s' ++ (it.exec st).after s' fun _ s'' => bodyMilestones ss s''

end

end Interpreter

/-! ## Quiet runs -/

theorem isInvocation_arithmetic {pos : Pos} {op : TokenKind} {a b : Value} {f : Failure}
    (h : arithmetic pos op a b = .error f) : f.isInvocation = false := by
  revert h
  fun_cases arithmetic pos op a b with
  | case1 | case2 | case3 | case5 => rintro ⟨⟩
  | case4 | case6 | case7 => rintro ⟨⟩; rfl

theorem isInvocation_compareValues {pos : Pos} {op : TokenKind} {a b : Value} {f : Failure}
    (h : compareValues pos op a b = .error f) : f.isInvocation = false := by
  revert h
  fun_cases compareValues pos op a b with
  | case1 | case2 | case3 | case4 => rintro ⟨⟩
  | case5 | case6 => rintro ⟨⟩; rfl

theorem isInvocation_asCondition {pos : Pos} {v : Value} {f : Failure}
    (h : asCondition pos v = .error f) : f.isInvocation = false := by
  cases v with
  | boolean => cases h
  | number | text => cases h; rfl

namespace Run

variable {x : Run σ α} {s : RunState σ} {k : α → RunState σ → List γ}

theorem mem_after {c : γ} :
    c ∈ x.after s k ↔ ∃ a s', x.run s = (.ok a, s') ∧ c ∈ k a s' := by
  unfold after
  generalize x.run s = r
  rcases r with ⟨e | a, s'⟩
  · exact ⟨nofun, fun ⟨_, _, h, _⟩ => by cases h⟩
  · exact ⟨fun h => ⟨a, s', rfl, h⟩, fun ⟨_, _, h, hc⟩ => by cases h; exact hc⟩

/-- No function is invoked, the hook is not asked, and no failure tells of an invocation. -/
structure Quiet (x : Run σ α) : Prop where
  calls (s : RunState σ) : (x.run s).2.calls = s.calls
  polls (s : RunState σ) : (x.run s).2.polls = s.polls
  foreign {s s' : RunState σ} {f : Failure} : x.run s = (.error (.failed f), s') →
    f.isInvocation = false

namespace Quiet

theorem pure (a : α) : (Pure.pure a : Run σ α).Quiet := ⟨fun _ => rfl, fun _ => rfl, nofun⟩

theorem fail {f : Failure} (h : f.isInvocation = false) : (Run.fail f : Run σ α).Quiet := by
  refine ⟨fun _ => rfl, fun _ => rfl, ?_⟩
  rintro s s' _ ⟨⟩
  exact h

theorem ofExcept {r : Except Failure α} (h : ∀ f, r = .error f → f.isInvocation = false) :
    (Run.ofExcept r : Run σ α).Quiet := by
  cases r with
  | ok a => exact pure a
  | error f => exact fail (h f rfl)

theorem unfinished : (Run.unfinished : Run σ α).Quiet := ⟨fun _ => rfl, fun _ => rfl, nofun⟩

theorem find? (name : Text) : (Run.find? name : Run σ _).Quiet :=
  ⟨fun _ => rfl, fun _ => rfl, nofun⟩

theorem assign (name : Text) (v : Value) : (Run.assign name v : Run σ _).Quiet :=
  ⟨fun _ => rfl, fun _ => rfl, nofun⟩

theorem traceStatement (it : Interpreter σ) (st : Stmt) : (it.traceStatement st).Quiet := by
  unfold Interpreter.traceStatement
  split
  · exact ⟨fun _ => rfl, fun _ => rfl, nofun⟩
  · exact pure ()

end Quiet

end Run

/-! ## How milestones come about -/

namespace Interpreter

/-- `v` gives the milestones of the run by the state in which it starts. -/
inductive Marks (it : Interpreter σ) : {α : Type} → Run σ α → (RunState σ → List (Milestone σ)) → Prop
  where
  | quiet {α : Type} {x : Run σ α} : x.Quiet → Marks it x fun _ => []
  | bind {α β : Type} {x : Run σ α} {f : α → Run σ β} {v : RunState σ → List (Milestone σ)}
      {w : α → RunState σ → List (Milestone σ)} : Marks it x v → (∀ a, Marks it (f a) (w a)) →
      Marks it (x >>= f) fun s => v s ++ x.after s w
  | call {args : Run σ (List Value)} {v : RunState σ → List (Milestone σ)} (pos : Pos) (name : Text) :
      Marks it args v →
      Marks it (it.call pos name args) fun s => (it.poll pos).after s fun _ s' =>
        v s' ++ args.after s' fun vs s'' => [.invocation pos name vs s'']
  | loop {condition : Run σ Bool} {body : Run σ Unit} {v w : RunState σ → List (Milestone σ)}
      (pos : Pos) (rounds : Nat) : Marks it condition v → Marks it body w →
      Marks it (Run.repeatWhile (do it.poll pos; condition) body rounds) fun s =>
        .loop pos :: roundMilestones pos (do it.poll pos; condition) body
          (fun s => (it.poll pos).after s fun _ s' => v s') w rounds s

variable {it : Interpreter σ} {x : Run σ α} {v : RunState σ → List (Milestone σ)}

namespace Marks

theorem bind_quiet {f : α → Run σ β} (hx : it.Marks x v) (hf : ∀ a, (f a).Quiet) :
    it.Marks (x >>= f) v := by
  have h := hx.bind fun a => .quiet (hf a)
  simpa only [Run.after_nil, List.append_nil] using h

theorem discard (hx : it.Marks x v) : it.Marks (Functor.discard x) v :=
  hx.bind_quiet fun _ => .pure ()

/-- The induction in which calls and loops are taken apart, too: a call polls, has its arguments and
invokes a function, and a loop polls and tests in each round. -/
theorem parts {P : (α : Type) → Run σ α → (RunState σ → List (Milestone σ)) → Prop}
    (quiet : ∀ {α : Type} {x : Run σ α}, x.Quiet → P α x fun _ => [])
    (bind : ∀ {α β : Type} {x : Run σ α} {f : α → Run σ β} {v : RunState σ → List (Milestone σ)}
      {w : α → RunState σ → List (Milestone σ)}, P α x v → (∀ a, P β (f a) (w a)) →
      P β (x >>= f) fun s => v s ++ x.after s w)
    (poll : ∀ pos, P Unit (it.poll pos) fun _ => [])
    (invoke : ∀ pos name vs, P (Option Value) (Run.mapFailure (Failure.locate pos) (it.invoke name vs))
      fun s => [.invocation pos name vs s])
    (loop : ∀ pos {x : Run σ Unit} {v : RunState σ → List (Milestone σ)}, P Unit x v →
      P Unit x fun s => .loop pos :: v s)
    (round : ∀ pos {x : Run σ Unit} {v : RunState σ → List (Milestone σ)}, P Unit x v →
      P Unit x fun s => .round pos :: v s)
    (h : it.Marks x v) : P α x v := by
  induction h with
  | quiet hx => exact quiet hx
  | bind _ _ ihx ihf => exact bind ihx ihf
  | call pos name _ iha => exact bind (poll pos) fun _ => bind iha fun vs => invoke pos name vs
  | loop pos rounds _ _ ihc ihb =>
    refine loop pos ?_
    have htest := bind (poll pos) fun _ => ihc
    induction rounds with
    | zero => exact quiet .unfinished
    | succ n ih =>
      refine bind htest fun again => ?_
      cases again with
      | true => exact round pos (bind ihb fun _ => ih)
      | false => exact quiet (.pure ())

/-- What is quiet may come first. -/
theorem after_quiet {y : Run σ Unit} (hy : y.Quiet) (hx : it.Marks x v) :
    it.Marks (do y; x) fun s => y.after s fun _ s' => v s' :=
  (quiet hy).bind fun _ => hx

end Marks

mutual

theorem eval_marks (e : Expr) : it.Marks (it.eval e) fun s => it.exprMilestones e s := by
  cases e with
  | number | string =>
    unfold eval exprMilestones
    exact .quiet (.pure _)
  | var pos name =>
    unfold eval exprMilestones
    refine .bind_quiet (.quiet (.find? name)) fun v => ?_
    cases v with
    | some v => exact .pure v
    | none => exact .fail rfl
  | binary pos op l r =>
    unfold eval exprMilestones
    exact (eval_marks l).bind fun a => (eval_marks r).bind_quiet fun b =>
      .ofExcept fun _ => isInvocation_arithmetic
  | comparison pos op l r =>
    unfold eval exprMilestones
    exact (eval_marks l).bind fun a => (eval_marks r).bind_quiet fun b =>
      .ofExcept fun _ => isInvocation_compareValues
  | call pos name args =>
    unfold eval exprMilestones
    refine (Marks.call pos name (evalArgs_marks args)).bind_quiet fun v => ?_
    cases v with
    | some v => exact .pure v
    | none => exact .fail rfl

theorem evalArgs_marks (es : List Expr) :
    it.Marks (it.evalArgs es) fun s => it.argMilestones es s := by
  cases es with
  | nil =>
    unfold evalArgs argMilestones
    exact .quiet (.pure _)
  | cons e es =>
    unfold evalArgs argMilestones
    exact (eval_marks e).bind fun v => (evalArgs_marks es).bind_quiet fun vs => .pure _

end

theorem condition_marks (c : Condition) :
    it.Marks (it.condition c) fun s => it.exprMilestones c.toExpr s :=
  (eval_marks c.toExpr).bind_quiet fun _ => .ofExcept fun _ => isInvocation_asCondition

mutual

theorem exec_marks (st : Stmt) : it.Marks (it.exec st) fun s => it.stmtMilestones st s := by
  cases st with
  | expr e =>
    cases e with
    | call pos name args =>
      unfold exec stmtMilestones exprMilestones
      exact (Marks.call pos name (evalArgs_marks args)).discard
    | _ =>
      unfold exec stmtMilestones
      exact (eval_marks _).discard
  | assign pos name value =>
    unfold exec stmtMilestones
    exact (eval_marks value).bind_quiet fun v => .assign name v
  | block b =>
    unfold exec stmtMilestones
    exact execBlock_marks b
  | ifThen pos c t =>
    unfold exec stmtMilestones
    refine (condition_marks c).bind fun holds => ?_
    cases holds with
    | true => exact execBlock_marks t
    | false => exact .quiet (.pure ())
  | ifElse pos c t e =>
    unfold exec stmtMilestones
    refine (condition_marks c).bind fun holds => ?_
    cases holds with
    | true => exact execBlock_marks t
    | false => exact execBlock_marks e
  | loop pos c b =>
    unfold exec stmtMilestones
    exact .loop pos it.rounds (condition_marks c) (execBlock_marks b)

theorem execBlock_marks (b : Block) : it.Marks (it.execBlock b) fun s => it.blockMilestones b s := by
  cases b with
  | mk pos ss =>
    unfold execBlock blockMilestones
    exact execBody_marks ss

theorem execBody_marks (ss : List Stmt) :
    it.Marks (it.execBody ss) fun s => it.bodyMilestones ss s := by
  cases ss with
  | nil =>
    unfold execBody bodyMilestones
    exact .quiet (.pure ())
  | cons st ss =>
    unfold execBody bodyMilestones
    exact .after_quiet (.traceStatement it st) ((exec_marks st).bind fun _ => execBody_marks ss)

end

end Interpreter

end ScriptEngine
