import ScriptEngine.Proofs.Run.Ends
import ScriptEngine.Proofs.Tree.WellFormed
import ScriptEngine.Run.Interpreter

/-!
# Well-formed trees run safely

A run of a well-formed tree, with host functions that fail by invocation errors only, ends with one
of the errors of a script, if it fails (`Interpreter.execBlock_safe`, `Interpreter.eval_safe`): no
operator is out of place, and what a branch or a loop turns on is a boolean.
-/

namespace ScriptEngine

namespace Failure

def isInvocation : Failure → Bool
  | error { cause := .invocation _ _ _, .. } => true
  | _ => false

/-- Whether a script may fail in this way by itself. A condition that is no boolean is not among the
type mismatches. -/
def isOfScript : Failure → Bool
  | error { cause := .undefinedVariable _, .. } | error { cause := .divisionByZero, .. }
  | error { cause := .invocation _ _ _, .. } | error { cause := .cancelled, .. }
  | error { cause := .typeMismatch (.arithmetic _ _ _), .. }
  | error { cause := .typeMismatch (.comparison _ _ _), .. }
  | error { cause := .typeMismatch (.noResult _), .. } => true
  | _ => false

theorem isOfScript_locate {f : Failure} (p : Pos) (h : f.isInvocation = true) :
    (f.locate p).isOfScript = true := by
  unfold isInvocation at h
  split at h
  · simp only [locate, Error.locate]
    split <;> rfl
  · cases h

end Failure

/-- The run fails only as a script may, if it fails. -/
abbrev Run.Safe {σ α : Type} (x : Run σ α) : Prop := x.Ends (fun _ => True) (·.isOfScript = true)

/-! ## Operators -/

section Operators

variable {pos : Pos} {op : TokenKind} {a b v : Value} {f : Failure}

theorem isOfScript_arithmetic (ho : op.isAdditive = true ∨ op.isMultiplicative = true)
    (h : arithmetic pos op a b = .error f) : f.isOfScript = true := by
  revert h
  fun_cases arithmetic pos op a b with
  | case1 | case2 | case3 | case5 => rintro ⟨⟩
  | case4 | case7 => rintro ⟨⟩; rfl
  | case6 => cases op <;> simp_all [TokenKind.isAdditive, TokenKind.isMultiplicative]

theorem isOfScript_compareValues (ho : op.isComparison = true)
    (h : compareValues pos op a b = .error f) : f.isOfScript = true := by
  revert h
  fun_cases compareValues pos op a b with
  | case1 | case2 | case3 | case4 => rintro ⟨⟩
  | case5 => cases op <;> simp_all [TokenKind.isComparison]
  | case6 => rintro ⟨⟩; rfl

theorem type_compareValues (h : compareValues pos op a b = .ok v) : v.type = .boolean := by
  revert h
  fun_cases compareValues pos op a b with
  | case1 | case2 | case3 | case4 => rintro ⟨⟩; rfl
  | case5 | case6 => rintro ⟨⟩

theorem asCondition_of_type (pos : Pos) (h : v.type = .boolean) :
    ∃ b, asCondition pos v = .ok b := by
  cases v with
  | boolean b => exact ⟨b, rfl⟩
  | number | text => cases h

end Operators

/-! ## Trees -/

namespace Interpreter

variable {σ : Type} {it : Interpreter σ}

/-- The host functions fail by invocation errors only. -/
def Obliging (it : Interpreter σ) : Prop :=
  ∀ name args, (it.invoke name args).Ends (fun _ => True) (·.isInvocation = true)

theorem poll_ends (pos : Pos) :
    (it.poll pos).Ends (fun _ => True) (· = .error (.of .cancelled pos)) := by
  unfold poll
  split
  · exact .pure trivial
  · refine (Run.Ends.modify _).bind fun _ _ => Run.Ends.get.bind fun s _ => ?_
    split
    · exact .fail rfl
    · exact .pure trivial

theorem poll_safe (pos : Pos) : (it.poll pos).Safe :=
  (poll_ends pos).mono (fun _ h => h) fun _ h => by rw [h]; rfl

theorem traceStatement_ends {Q : Failure → Prop} (s : Stmt) :
    (it.traceStatement s).Ends (fun _ => True) Q := by
  unfold traceStatement
  split
  · exact .modify _
  · exact .pure trivial

theorem call_safe (hi : it.Obliging) (pos : Pos) (name : Text) {args : Run σ (List Value)}
    (ha : args.Safe) : (it.call pos name args).Safe :=
  (poll_safe pos).bind fun _ _ => ha.bind fun vs _ =>
    (hi name vs).mapFailure fun _ h => Failure.isOfScript_locate pos h

mutual

theorem eval_safe (hi : it.Obliging) (e : Expr) {p : Place} (h : e.WellFormed p) :
    (it.eval e).Safe := by
  cases e with
  | number | string =>
    unfold eval
    exact .pure trivial
  | var pos name =>
    unfold eval
    refine (Run.Ends.find? name).bind fun v _ => ?_
    cases v with
    | some v => exact .pure trivial
    | none => exact .fail rfl
  | binary pos op l r =>
    unfold eval
    refine (eval_safe hi l h.2.1).bind fun a _ => (eval_safe hi r h.2.2).bind fun b _ => ?_
    exact .ofExcept (fun _ _ => trivial) fun f hf => isOfScript_arithmetic h.1 hf
  | comparison pos op l r =>
    unfold eval
    refine (eval_safe hi l h.2.2.1).bind fun a _ => (eval_safe hi r h.2.2.2).bind fun b _ => ?_
    exact .ofExcept (fun _ _ => trivial) fun f hf => isOfScript_compareValues h.2.1 hf
  | call pos name args =>
    unfold eval
    refine (call_safe hi pos name (evalArgs_safe hi args h.2)).bind fun v _ => ?_
    cases v with
    | some v => exact .pure trivial
    | none => exact .fail rfl

theorem evalArgs_safe (hi : it.Obliging) (es : List Expr) (h : Expr.AllWellFormed es) :
    (it.evalArgs es).Safe := by
  cases es with
  | nil =>
    unfold evalArgs
    exact .pure trivial
  | cons e es =>
    unfold evalArgs
    exact (eval_safe hi e h.1).bind fun v _ => (evalArgs_safe hi es h.2).bind fun vs _ =>
      .pure trivial

end

theorem condition_safe (hi : it.Obliging) {c : Condition} (h : c.WellFormed) :
    (it.condition c).Safe := by
  have hc : (it.eval c.toExpr).Ends (·.type = .boolean) (·.isOfScript = true) := by
    unfold Condition.toExpr eval
    refine (eval_safe hi c.lhs h.2.1).bind fun a _ => (eval_safe hi c.rhs h.2.2).bind fun b _ => ?_
    exact .ofExcept (fun v hv => type_compareValues hv) fun f hf => isOfScript_compareValues h.1 hf
  refine hc.bind fun v hv => ?_
  obtain ⟨b, hb⟩ := asCondition_of_type c.pos hv
  rw [hb]
  exact .pure trivial

mutual

theorem exec_safe (hi : it.Obliging) (s : Stmt) (h : s.WellFormed) : (it.exec s).Safe := by
  cases s with
  | expr e =>
    cases e with
    | call pos name args =>
      unfold exec
      exact (call_safe hi pos name (evalArgs_safe hi args h.2.2)).discard
    | _ => cases h.1
  | assign pos name v =>
    unfold exec
    exact (eval_safe hi v h.2).bind fun v _ => .modify _
  | block => cases h
  | ifThen pos c b =>
    unfold exec
    refine (condition_safe hi h.1).bind fun t _ => ?_
    cases t with
    | true => exact execBlock_safe hi b h.2
    | false => exact .pure trivial
  | ifElse pos c b b' =>
    unfold exec
    refine (condition_safe hi h.1).bind fun t _ => ?_
    cases t with
    | true => exact execBlock_safe hi b h.2.1
    | false => exact execBlock_safe hi b' h.2.2
  | loop pos c b =>
    unfold exec
    have hp : (it.poll pos).Safe := poll_safe pos
    exact (hp.bind fun _ _ => condition_safe hi h.1).repeatWhile (execBlock_safe hi b h.2) it.rounds

theorem execBlock_safe (hi : it.Obliging) (b : Block) (h : b.WellFormed) :
    (it.execBlock b).Safe := by
  cases b with
  | mk pos ss =>
    unfold execBlock
    exact execBody_safe hi ss h

theorem execBody_safe (hi : it.Obliging) (ss : List Stmt) (h : Stmt.AllWellFormed ss) :
    (it.execBody ss).Safe := by
  cases ss with
  | nil =>
    unfold execBody
    exact .pure trivial
  | cons s ss =>
    unfold execBody
    refine (traceStatement_ends s).bind fun _ _ => ?_
    exact (exec_safe hi s h.1).bind fun _ _ => execBody_safe hi ss h.2

end

end Interpreter

end ScriptEngine
