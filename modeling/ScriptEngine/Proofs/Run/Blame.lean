import ScriptEngine.Proofs.Run.Safety

/-!
# Where runs fail

An error that comes out of a run points at a node of the tree: it has the position of that node, and
the node is of the sort that fails in this way (`Error.PointsAt`). This holds of every tree, as long
as the host functions fail by invocation errors without a position, which are given that of the call
(`Interpreter.execBlock_blames`).
-/

namespace ScriptEngine

variable {σ α β : Type}

/-! ## Nodes of parts -/

mutual

theorem Expr.subset_of_nodesOnto (e : Expr) {rest ns : List Node} (h : e.nodesOnto rest ⊆ ns) :
    rest ⊆ ns := by
  cases e with
  | number | string | var => exact List.subset_of_cons_subset h
  | binary _ _ l r | comparison _ _ l r =>
    exact r.subset_of_nodesOnto (l.subset_of_nodesOnto (List.subset_of_cons_subset h))
  | call _ _ args => exact Expr.subset_of_nodesOntoArgs args (List.subset_of_cons_subset h)

theorem Expr.subset_of_nodesOntoArgs (es : List Expr) {rest ns : List Node}
    (h : Expr.nodesOntoArgs es rest ⊆ ns) : rest ⊆ ns := by
  cases es with
  | nil => exact h
  | cons e es => exact Expr.subset_of_nodesOntoArgs es (e.subset_of_nodesOnto h)

end

mutual

theorem Stmt.subset_of_nodesOnto (s : Stmt) {rest ns : List Node} (h : s.nodesOnto rest ⊆ ns) :
    rest ⊆ ns := by
  cases s with
  | expr e => exact e.subset_of_nodesOnto h
  | assign _ _ v => exact v.subset_of_nodesOnto (List.subset_of_cons_subset h)
  | block b => exact b.subset_of_nodesOnto h
  | ifThen _ c b | loop _ c b =>
    exact b.subset_of_nodesOnto (c.toExpr.subset_of_nodesOnto (List.subset_of_cons_subset h))
  | ifElse _ c b b' =>
    have hb := c.toExpr.subset_of_nodesOnto (List.subset_of_cons_subset h)
    exact b'.subset_of_nodesOnto (b.subset_of_nodesOnto hb)

theorem Block.subset_of_nodesOnto (b : Block) {rest ns : List Node} (h : b.nodesOnto rest ⊆ ns) :
    rest ⊆ ns := by
  cases b with
  | mk p ss => exact Stmt.subset_of_nodesOntoBody ss (List.subset_of_cons_subset h)

theorem Stmt.subset_of_nodesOntoBody (ss : List Stmt) {rest ns : List Node}
    (h : Stmt.nodesOntoBody ss rest ⊆ ns) : rest ⊆ ns := by
  cases ss with
  | nil => exact h
  | cons s ss => exact Stmt.subset_of_nodesOntoBody ss (s.subset_of_nodesOnto h)

end

/-! ## Errors and nodes -/

/-- The error is one that a node among `nodes` brings about, and it stands at that node. An
undefined variable is not in the environment, and what a call fails with is what `raises` says of
the name of the function. -/
inductive Error.PointsAt (nodes : List Node) (raises : Text → Cause → Prop) (env : Environment) :
    Error → Prop where
  | undefinedVariable {pos : Pos} {name : Text} : .expr (.var pos name) ∈ nodes →
      env.find? name = none → PointsAt nodes raises env (.of (.undefinedVariable name) pos)
  | divisionByZero {pos : Pos} {l r : Expr} : .expr (.binary pos .slash l r) ∈ nodes →
      PointsAt nodes raises env (.of .divisionByZero pos)
  | arithmetic {pos : Pos} {op : TokenKind} {l r : Expr} {a b : ValueType} :
      .expr (.binary pos op l r) ∈ nodes →
      PointsAt nodes raises env (.of (.typeMismatch (.arithmetic op a b)) pos)
  | comparison {pos : Pos} {op : TokenKind} {l r : Expr} {a b : ValueType} :
      .expr (.comparison pos op l r) ∈ nodes →
      PointsAt nodes raises env (.of (.typeMismatch (.comparison op a b)) pos)
  | condition {pos : Pos} {op : TokenKind} {l r : Expr} {a : ValueType} :
      .expr (.comparison pos op l r) ∈ nodes →
      PointsAt nodes raises env (.of (.typeMismatch (.condition a)) pos)
  | noResult {pos : Pos} {name : Text} {args : List Expr} : .expr (.call pos name args) ∈ nodes →
      PointsAt nodes raises env (.of (.typeMismatch (.noResult name)) pos)
  | cancelledCall {pos : Pos} {name : Text} {args : List Expr} :
      .expr (.call pos name args) ∈ nodes → PointsAt nodes raises env (.of .cancelled pos)
  | cancelledLoop {pos : Pos} {c : Condition} {body : Block} : .stmt (.loop pos c body) ∈ nodes →
      PointsAt nodes raises env (.of .cancelled pos)
  | invocation {pos : Pos} {name : Text} {args : List Expr} {reason : InvocationReason}
      {function text : Text} : .expr (.call pos name args) ∈ nodes →
      raises name (.invocation reason function text) →
      PointsAt nodes raises env (.of (.invocation reason function text) pos)

namespace Error.PointsAt

variable {nodes : List Node} {raises : Text → Cause → Prop} {env : Environment}

theorem exists_node {e : Error} (h : e.PointsAt nodes raises env) :
    ∃ n ∈ nodes, n.pos = e.pos := by
  cases h with
  | undefinedVariable hn _ | divisionByZero hn | arithmetic hn | comparison hn | condition hn
  | noResult hn | cancelledCall hn | cancelledLoop hn | invocation hn _ => exact ⟨_, hn, rfl⟩

theorem of_arithmetic {pos : Pos} {op : TokenKind} {l r : Expr} {a b : Value} {e : Error}
    (hn : .expr (.binary pos op l r) ∈ nodes)
    (h : ScriptEngine.arithmetic pos op a b = .error (.error e)) : e.PointsAt nodes raises env := by
  revert h
  fun_cases ScriptEngine.arithmetic pos op a b with
  | case1 | case2 | case3 | case5 | case6 => rintro ⟨⟩
  | case4 => rintro ⟨⟩; exact .divisionByZero hn
  | case7 => rintro ⟨⟩; exact .arithmetic hn

theorem of_compareValues {pos : Pos} {op : TokenKind} {l r : Expr} {a b : Value} {e : Error}
    (hn : .expr (.comparison pos op l r) ∈ nodes)
    (h : compareValues pos op a b = .error (.error e)) : e.PointsAt nodes raises env := by
  revert h
  fun_cases compareValues pos op a b with
  | case1 | case2 | case3 | case4 | case5 => rintro ⟨⟩
  | case6 => rintro ⟨⟩; exact .comparison hn

theorem of_asCondition {c : Condition} {v : Value} {e : Error} (hn : c.toNode ∈ nodes)
    (h : asCondition c.pos v = .error (.error e)) : e.PointsAt nodes raises env := by
  cases v with
  | boolean => cases h
  | number | text => cases h; exact .condition hn

end Error.PointsAt

/-! ## Errors of runs -/

namespace Run

/-- The errors that come out of the run have `Q`, with the environment as it is then. -/
def Throws (x : Run σ α) (Q : Error → Environment → Prop) : Prop :=
  ∀ s e s', x.run s = (.error (.failed (.error e)), s') → Q e s'.env

namespace Throws

variable {x : Run σ α} {f : α → Run σ β} {Q : Error → Environment → Prop}

theorem of_ends {P : α → Prop} {R : Failure → Prop} (hx : x.Ends P R)
    (h : ∀ e, R (.error e) → ∀ env, Q e env) : x.Throws Q := by
  intro s e s' hr
  have hs := hx s
  rw [hr] at hs
  exact h e hs s'.env

theorem pure (a : α) : (Pure.pure a : Run σ α).Throws Q := fun _ _ _ h => by cases h

theorem fail {e : Error} (h : ∀ env, Q e env) : (Run.fail (.error e) : Run σ α).Throws Q :=
  of_ends (P := fun _ => True) (.fail (Q := (· = .error e)) rfl) fun _ he => by cases he; exact h

theorem ofExcept {r : Except Failure α} (h : ∀ e, r = .error (.error e) → ∀ env, Q e env) :
    (Run.ofExcept r : Run σ α).Throws Q :=
  of_ends (.ofExcept (P := fun _ => True) (Q := (r = .error ·)) (fun _ _ => trivial) fun _ h => h) h

theorem bind (hx : x.Throws Q) (hf : ∀ a, (f a).Throws Q) : (x >>= f).Throws Q := by
  intro s e s' h
  rw [run_bind] at h
  cases hr : x.run s with
  | mk r t =>
    rw [hr] at h
    cases r with
    | error e' =>
      cases h
      exact hx s e s' hr
    | ok a => exact hf a t e s' h

theorem discard (hx : x.Throws Q) : (Functor.discard x).Throws Q := hx.bind fun _ => pure ()

/-- A name that is looked up and not found is unbound. -/
theorem find? {name : Text} {k : Option Value → Run σ α} (hs : ∀ v, (k (some v)).Throws Q)
    {e : Error} (hk : k none = Run.fail (.error e))
    (h : ∀ env : Environment, env.find? name = none → Q e env) :
    (Run.find? name >>= k).Throws Q := by
  intro s e' s' hr
  rw [run_bind] at hr
  change (k (s.env.find? name)).run s = _ at hr
  cases hv : s.env.find? name with
  | some v =>
    rw [hv] at hr
    exact hs v s e' s' hr
  | none =>
    rw [hv, hk] at hr
    cases hr
    exact h s.env hv

theorem repeatWhile {test : Run σ Bool} {body : Run σ Unit} (ht : test.Throws Q)
    (hb : body.Throws Q) (n : Nat) : (Run.repeatWhile test body n).Throws Q := by
  induction n with
  | zero => exact of_ends (P := fun _ => True) (R := fun _ => False) .unfinished fun _ h => h.elim
  | succ n ih =>
    refine ht.bind fun again => ?_
    cases again with
    | true => exact hb.bind fun _ => ih
    | false => exact pure ()

end Throws

end Run

/-! ## Trees -/

/-- The errors that come out of the run point at one of the nodes. -/
abbrev Run.Blames (x : Run σ α) (nodes : List Node) (raises : Text → Cause → Prop) : Prop :=
  x.Throws fun e env => e.PointsAt nodes raises env

namespace Failure

/-- An invocation error that has no position yet, with a cause of which `raises` holds. -/
inductive IsRaised (raises : Cause → Prop) : Failure → Prop where
  | intro {reason : InvocationReason} {function text : Text} {pos : Pos} : pos.isSet = false →
      raises (.invocation reason function text) →
      IsRaised raises (.error (.of (.invocation reason function text) pos))

theorem IsRaised.mono {raises raises' : Cause → Prop} (hle : ∀ c, raises c → raises' c)
    {f : Failure} (h : f.IsRaised raises) : f.IsRaised raises' := by
  cases h with
  | intro hp hr => exact .intro hp (hle _ hr)

/-- Such an error takes the position of the call. -/
theorem locate_invocation {reason : InvocationReason} {function text : Text} {q : Pos} (p : Pos)
    (h : q.isSet = false) :
    locate p (.error (.of (.invocation reason function text) q)) =
      .error (.of (.invocation reason function text) p) := by
  simp [locate, Error.locate, h]

end Failure

namespace Interpreter

variable {it : Interpreter σ} {nodes : List Node} {raises : Text → Cause → Prop}

/-- The host functions fail by invocation errors without a position only, as `raises` says. -/
def Raises (it : Interpreter σ) (raises : Text → Cause → Prop) : Prop :=
  ∀ name args, (it.invoke name args).Ends (fun _ => True) (Failure.IsRaised (raises name))

theorem call_blames (hi : it.Raises raises) {pos : Pos} {name : Text} {es : List Expr}
    (hn : .expr (.call pos name es) ∈ nodes) {args : Run σ (List Value)}
    (ha : args.Blames nodes raises) : (it.call pos name args).Blames nodes raises := by
  have hinvoke (vs : List Value) :
      (Run.mapFailure (Failure.locate pos) (it.invoke name vs)).Ends (fun _ => True)
        (fun f => ∃ reason function text, raises name (.invocation reason function text) ∧
          f = .error (.of (.invocation reason function text) pos)) := by
    refine (hi name vs).mapFailure ?_
    rintro _ ⟨hp, hr⟩
    exact ⟨_, _, _, hr, Failure.locate_invocation pos hp⟩
  refine (Run.Throws.of_ends (poll_ends pos) ?_).bind fun _ => ha.bind fun vs => ?_
  · rintro _ ⟨⟩ env
    exact .cancelledCall hn
  · refine .of_ends (hinvoke vs) ?_
    rintro _ ⟨_, _, _, hr, ⟨⟩⟩ env
    exact .invocation hn hr

mutual

theorem eval_blames (hi : it.Raises raises) (e : Expr) {rest : List Node}
    (hn : e.nodesOnto rest ⊆ nodes) : (it.eval e).Blames nodes raises := by
  have hhead : .expr e ∈ nodes := hn (by cases e <;> exact List.mem_cons_self)
  cases e with
  | number | string =>
    unfold eval
    exact .pure _
  | var pos name =>
    unfold eval
    exact .find? (fun v => .pure v) rfl fun env h => .undefinedVariable hhead h
  | binary pos op l r =>
    unfold eval
    have hl := List.subset_of_cons_subset hn
    have hr := l.subset_of_nodesOnto hl
    exact (eval_blames hi l hl).bind fun a => (eval_blames hi r hr).bind fun b =>
      .ofExcept fun e he env => .of_arithmetic hhead he
  | comparison pos op l r =>
    unfold eval
    have hl := List.subset_of_cons_subset hn
    have hr := l.subset_of_nodesOnto hl
    exact (eval_blames hi l hl).bind fun a => (eval_blames hi r hr).bind fun b =>
      .ofExcept fun e he env => .of_compareValues hhead he
  | call pos name args =>
    unfold eval
    have ha := evalArgs_blames hi args (List.subset_of_cons_subset hn)
    refine (call_blames hi hhead ha).bind fun v => ?_
    cases v with
    | some v => exact .pure v
    | none => exact .fail fun env => .noResult hhead

theorem evalArgs_blames (hi : it.Raises raises) (es : List Expr) {rest : List Node}
    (hn : Expr.nodesOntoArgs es rest ⊆ nodes) : (it.evalArgs es).Blames nodes raises := by
  cases es with
  | nil =>
    unfold evalArgs
    exact .pure _
  | cons e es =>
    unfold evalArgs
    have hes := e.subset_of_nodesOnto hn
    exact (eval_blames hi e hn).bind fun v => (evalArgs_blames hi es hes).bind fun vs => .pure _

end

theorem condition_blames (hi : it.Raises raises) (c : Condition) {rest : List Node}
    (hn : c.toExpr.nodesOnto rest ⊆ nodes) : (it.condition c).Blames nodes raises :=
  (eval_blames hi c.toExpr hn).bind fun _ =>
    .ofExcept fun _ he _ => .of_asCondition (hn List.mem_cons_self) he

mutual

theorem exec_blames (hi : it.Raises raises) (s : Stmt) {rest : List Node}
    (hn : s.nodesOnto rest ⊆ nodes) : (it.exec s).Blames nodes raises := by
  cases s with
  | expr e =>
    have he := (eval_blames hi e hn).discard
    cases e with
    | call pos name args =>
      unfold exec
      have ha := evalArgs_blames hi args (List.subset_of_cons_subset hn)
      exact (call_blames hi (hn List.mem_cons_self) ha).discard
    | _ =>
      unfold exec
      exact he
  | assign pos name v =>
    unfold exec
    refine (eval_blames hi v (List.subset_of_cons_subset hn)).bind fun v => ?_
    exact .of_ends (R := fun _ => False) (.modify _) fun _ h => h.elim
  | block b =>
    unfold exec
    exact execBlock_blames hi b hn
  | ifThen pos c t =>
    unfold exec
    have hc := List.subset_of_cons_subset hn
    refine (condition_blames hi c hc).bind fun holds => ?_
    cases holds with
    | true => exact execBlock_blames hi t (c.toExpr.subset_of_nodesOnto hc)
    | false => exact .pure ()
  | ifElse pos c t e =>
    unfold exec
    have hc := List.subset_of_cons_subset hn
    have ht := c.toExpr.subset_of_nodesOnto hc
    refine (condition_blames hi c hc).bind fun holds => ?_
    cases holds with
    | true => exact execBlock_blames hi t ht
    | false => exact execBlock_blames hi e (t.subset_of_nodesOnto ht)
  | loop pos c body =>
    unfold exec
    have hc := List.subset_of_cons_subset hn
    have hb := c.toExpr.subset_of_nodesOnto hc
    have hp : (it.poll pos).Blames nodes raises := by
      refine .of_ends (poll_ends pos) ?_
      rintro _ ⟨⟩ env
      exact .cancelledLoop (hn List.mem_cons_self)
    exact (hp.bind fun _ => condition_blames hi c hc).repeatWhile (execBlock_blames hi body hb)
      it.rounds

theorem execBlock_blames (hi : it.Raises raises) (b : Block) {rest : List Node}
    (hn : b.nodesOnto rest ⊆ nodes) : (it.execBlock b).Blames nodes raises := by
  cases b with
  | mk pos ss =>
    unfold execBlock
    exact execBody_blames hi ss (List.subset_of_cons_subset hn)

theorem execBody_blames (hi : it.Raises raises) (ss : List Stmt) {rest : List Node}
    (hn : Stmt.nodesOntoBody ss rest ⊆ nodes) : (it.execBody ss).Blames nodes raises := by
  cases ss with
  | nil =>
    unfold execBody
    exact .pure ()
  | cons s ss =>
    unfold execBody
    have hss := s.subset_of_nodesOnto hn
    refine (Run.Throws.of_ends (traceStatement_ends (Q := fun _ => False) s) fun _ h => h.elim).bind
      fun _ => ?_
    exact (exec_blames hi s hn).bind fun _ => execBody_blames hi ss hss

end

end Interpreter

end ScriptEngine
