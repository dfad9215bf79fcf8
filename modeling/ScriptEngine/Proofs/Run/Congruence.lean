import ScriptEngine.Proofs.Run.Plan

/-!
# Programs whose calls are related

A relation between courses that is kept by all that programs do is `Course.Closed`. If it holds
between the calls of two plans, it holds between the courses of every program by the two
(`Course.Closed.execBlock`, `Course.Closed.evalNode`). Routines may also recover from failures; a
relation that is kept by this as well is a `Course.Congruence`, and it holds between the courses of
every routine (`Course.Congruence.routine`).
-/

namespace ScriptEngine

variable {σ : Type}

/-- The relation is kept by the steps of programs and by the ways in which they are put together. `N`
relates the bounds on the rounds of loops. -/
structure Course.Closed (R : {α : Type} → Course σ α → Course σ α → Prop)
    (N : Nat → Nat → Prop) : Prop where
  done {α : Type} (r : Except Failure α) : R (.done r) (.done r)
  environment : R (.environment : Course σ _) .environment
  happen (e : Event σ) : R (.happen e) (.happen e)
  bind {α β : Type} {c c' : Course σ α} {f f' : α → Course σ β} :
    R c c' → (∀ a, R (f a) (f' a)) → R (c >>= f) (c' >>= f')
  locate {α : Type} {c c' : Course σ α} (pos : Pos) :
    R c c' → R (c.mapFailure (.locate pos)) (c'.mapFailure (.locate pos))
  repeatWhile {test test' : Course σ Bool} {body body' : Course σ Unit} {n n' : Nat} :
    R test test' → R body body' → N n n' →
    R (Course.repeatWhile test body n) (Course.repeatWhile test' body' n')

/-- The relation is kept when courses are put together in any way. -/
structure Course.Congruence (R : {α : Type} → Course σ α → Course σ α → Prop)
    (N : Nat → Nat → Prop) : Prop where
  refl {α : Type} (c : Course σ α) : R c c
  andThen {α β : Type} {c c' : Course σ α} {k k' : Except Failure α → Course σ β} :
    R c c' → (∀ r, R (k r) (k' r)) → R (c.andThen k) (c'.andThen k')
  repeatWhile {test test' : Course σ Bool} {body body' : Course σ Unit} {n n' : Nat} :
    R test test' → R body body' → N n n' →
    R (Course.repeatWhile test body n) (Course.repeatWhile test' body' n')

/-- The calls by the two plans are related. -/
structure Plan.Related (R : {α : Type} → Course σ α → Course σ α → Prop) (N : Nat → Nat → Prop)
    (p p' : Plan σ) : Prop where
  invoke (name : Text) (args : List Value) : R (p.invoke name args) (p'.invoke name args)
  rounds : N p.rounds p'.rounds

namespace Course.Closed

variable {R : {α : Type} → Course σ α → Course σ α → Prop} {N : Nat → Nat → Prop} {α : Type}
  {p p' : Plan σ}

theorem discard (h : Closed R N) {c c' : Course σ α} (hc : R c c') :
    R (Functor.discard c) (Functor.discard c') :=
  h.bind hc fun _ => h.done _

theorem call (h : Closed R N) (hp : p.Related R N p') (pos : Pos) (name : Text)
    {c c' : Course σ (List Value)} (hc : R c c') : R (p.call pos name c) (p'.call pos name c') :=
  h.bind (h.happen _) fun _ => h.bind hc fun vs => h.locate pos (hp.invoke name vs)

mutual

theorem eval (h : Closed R N) (hp : p.Related R N p') (e : Expr) :
    R (p.eval e) (p'.eval e) := by
  cases e with
  | number | string =>
    unfold Plan.eval
    exact h.done _
  | var pos name =>
    unfold Plan.eval
    refine h.bind (h.bind h.environment fun _ => h.done _) fun v => ?_
    cases v with
    | some v => exact h.done _
    | none => exact h.done _
  | binary pos op l r | comparison pos op l r =>
    unfold Plan.eval
    exact h.bind (eval h hp l) fun a => h.bind (eval h hp r) fun b => h.done _
  | call pos name args =>
    unfold Plan.eval
    refine h.bind (h.call hp pos name (evalArgs h hp args)) fun v => ?_
    cases v with
    | some v => exact h.done _
    | none => exact h.done _

theorem evalArgs (h : Closed R N) (hp : p.Related R N p') (es : List Expr) :
    R (p.evalArgs es) (p'.evalArgs es) := by
  cases es with
  | nil =>
    unfold Plan.evalArgs
    exact h.done _
  | cons e es =>
    unfold Plan.evalArgs
    exact h.bind (eval h hp e) fun v => h.bind (evalArgs h hp es) fun vs => h.done _

end

theorem condition (h : Closed R N) (hp : p.Related R N p') (c : Condition) :
    R (p.condition c) (p'.condition c) :=
  h.bind (h.eval hp c.toExpr) fun _ => h.done _

theorem evalNode (h : Closed R N) (hp : p.Related R N p') (n : Node) :
    R (p.evalNode n) (p'.evalNode n) := by
  cases n with
  | expr e => exact h.eval hp e
  | stmt s => exact h.done _

mutual

theorem exec (h : Closed R N) (hp : p.Related R N p') (s : Stmt) :
    R (p.exec s) (p'.exec s) := by
  cases s with
  | expr e =>
    cases e with
    | call pos name args =>
      unfold Plan.exec
      exact h.discard (h.call hp pos name (h.evalArgs hp args))
    | _ =>
      unfold Plan.exec
      exact h.discard (h.eval hp _)
  | assign pos name v =>
    unfold Plan.exec
    exact h.bind (h.eval hp v) fun v => h.happen _
  | block b =>
    unfold Plan.exec
    exact execBlock h hp b
  | ifThen pos c t =>
    unfold Plan.exec
    refine h.bind (h.condition hp c) fun holds => ?_
    cases holds with
    | true => exact execBlock h hp t
    | false => exact h.done _
  | ifElse pos c t e =>
    unfold Plan.exec
    refine h.bind (h.condition hp c) fun holds => ?_
    cases holds with
    | true => exact execBlock h hp t
    | false => exact execBlock h hp e
  | loop pos c b =>
    unfold Plan.exec
    have ht := h.bind (h.happen (.poll pos)) fun _ => h.condition hp c
    exact h.repeatWhile ht (execBlock h hp b) hp.rounds

theorem execBlock (h : Closed R N) (hp : p.Related R N p') (b : Block) :
    R (p.execBlock b) (p'.execBlock b) := by
  cases b with
  | mk pos ss =>
    unfold Plan.execBlock
    exact execBody h hp ss

theorem execBody (h : Closed R N) (hp : p.Related R N p') (ss : List Stmt) :
    R (p.execBody ss) (p'.execBody ss) := by
  cases ss with
  | nil =>
    unfold Plan.execBody
    exact h.done _
  | cons s ss =>
    unfold Plan.execBody
    exact h.bind (h.happen _) fun _ => h.bind (exec h hp s) fun _ => execBody h hp ss

end

end Course.Closed

namespace Course.Congruence

variable {R : {α : Type} → Course σ α → Course σ α → Prop} {N : Nat → Nat → Prop} {α β : Type}
  {p p' : Plan σ}

theorem bind (h : Congruence R N) {c c' : Course σ α} {f f' : α → Course σ β} (hc : R c c')
    (hf : ∀ a, R (f a) (f' a)) : R (c >>= f) (c' >>= f') :=
  h.andThen hc fun
    | .ok a => hf a
    | .error _ => h.refl _

theorem closed (h : Congruence R N) : Closed R N where
  done _ := h.refl _
  environment := h.refl _
  happen _ := h.refl _
  bind := h.bind
  locate _ hc := h.andThen hc fun _ => h.refl _
  repeatWhile := h.repeatWhile

theorem routine (h : Congruence R N) (hp : p.Related R N p') (r : Routine σ) :
    R (r.course p) (r.course p') := by
  induction r with
  | done | fail => exact h.refl _
  | inspect next ih => exact h.bind (h.refl _) fun env => ih env
  | assign _ _ next ih | clear next ih => exact h.bind (h.refl _) fun _ => ih
  | update f next ih => exact h.bind (h.refl _) fun s => ih s
  | invoke name args next ih => exact h.bind (hp.invoke name args) fun v => ih v
  | run b next ih => exact h.bind (h.closed.execBlock hp b) fun _ => ih
  | eval n next ih => exact h.bind (h.closed.evalNode hp n) fun v => ih v
  | recover attempt next iha ih =>
    exact h.bind (h.andThen iha fun _ => h.refl _) fun r => ih r

end Course.Congruence

end ScriptEngine
