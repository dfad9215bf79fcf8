import ScriptEngine.Proofs.Run.Blame
import ScriptEngine.Proofs.Run.Plan

/-!
# The nodes that a run comes to

`Interpreter.blockVisits` lists what a run comes to, in order and each time with the state that it
is in: the nodes of the tree before anything is done for them, and the calls once their arguments
have values. A run that fails comes to nothing more.

All that is visited stands in the tree, and what every part of the program keeps holds at every
visit (`Interpreter.blockVisits_forall`). Whatever calls a run notes come from the invocations among
its visits (`Interpreter.execBlock_tallies`).
-/

namespace ScriptEngine

inductive Visit (σ : Type) where
  | node (n : Node) (state : RunState σ)
  /-- A function is about to be invoked, with the values of the arguments. -/
  | invocation (name : Text) (args : List Expr) (values : List Value) (state : RunState σ)

variable {σ α β γ : Type}

/-! ## The visits of a run -/

/-- What is listed once `x` has given a value. -/
def Run.after (x : Run σ α) (s : RunState σ) (k : α → RunState σ → List γ) : List γ :=
  match x.run s with
  | (.ok a, s') => k a s'
  | (.error _, _) => []

theorem Run.after_of_ok {x : Run σ α} {s s' : RunState σ} {k : α → RunState σ → List γ} {a : α}
    (h : x.run s = (.ok a, s')) : x.after s k = k a s' := by
  rw [after, h]

theorem Run.after_of_error {x : Run σ α} {s s' : RunState σ} {k : α → RunState σ → List γ} {e : Stop}
    (h : x.run s = (.error e, s')) : x.after s k = [] := by
  rw [after, h]

theorem Run.after_nil (x : Run σ α) (s : RunState σ) :
    x.after s (fun _ _ => ([] : List γ)) = [] := by
  unfold after
  split <;> rfl

namespace Interpreter

variable (it : Interpreter σ)

mutual

def exprVisits : Expr → RunState σ → List (Visit σ)
  | .number pos x, s => [.node (.expr (.number pos x)) s]
  | .string pos t, s => [.node (.expr (.string pos t)) s]
  | .var pos name, s => [.node (.expr (.var pos name)) s]
  | .binary pos op l r, s =>
    .node (.expr (.binary pos op l r)) s ::
      (exprVisits l s ++ (it.eval l).after s fun _ s' => exprVisits r s')
  | .comparison pos op l r, s =>
    .node (.expr (.comparison pos op l r)) s ::
      (exprVisits l s ++ (it.eval l).after s fun _ s' => exprVisits r s')
  | .call pos name args, s =>
    .node (.expr (.call pos name args)) s :: (it.poll pos).after s fun _ s' =>
      argVisits args s' ++ (it.evalArgs args).after s' fun vs s'' => [.invocation name args vs s'']

def argVisits : List Expr → RunState σ → List (Visit σ)
  | [], _ => []
  | e :: es, s => exprVisits e s ++ (it.eval e).after s fun _ s' => argVisits es s'

end

/-- The visits of a loop, given those of its test and of its body. -/
def roundVisits (test : Run σ Bool) (body : Run σ Unit)
    (testVisits bodyVisits : RunState σ → List (Visit σ)) : Nat → RunState σ → List (Visit σ)
  | 0, _ => []
  | n + 1, s => testVisits s ++ test.after s fun again s' =>
      if again then
        bodyVisits s' ++ body.after s' fun _ s'' =>
          roundVisits test body testVisits bodyVisits n s''
      else []

mutual

def stmtVisits : Stmt → RunState σ → List (Visit σ)
  | .expr e, s => it.exprVisits e s
  | .assign pos name value, s =>
    .node (.stmt (.assign pos name value)) s :: it.exprVisits value s
  | .block b, s => blockVisits b s
  | .ifThen pos c t, s =>
    .node (.stmt (.ifThen pos c t)) s :: (it.exprVisits c.toExpr s ++
      (it.condition c).after s fun holds s' => if holds then blockVisits t s' else [])
  | .ifElse pos c t e, s =>
    .node (.stmt (.ifElse pos c t e)) s :: (it.exprVisits c.toExpr s ++
      (it.condition c).after s fun holds s' => if holds then blockVisits t s' else blockVisits e s')
  | .loop pos c body, s =>
    .node (.stmt (.loop pos c body)) s ::
      roundVisits (do it.poll pos; it.condition c) (it.execBlock body)
        (fun s => (it.poll pos).after s fun _ s' => it.exprVisits c.toExpr s')
        (fun s => blockVisits body s) it.rounds s

def blockVisits : Block → RunState σ → List (Visit σ)
  | .mk pos ss, s => .node (Block.mk pos ss).toNode s :: bodyVisits ss s

def bodyVisits : List Stmt → RunState σ → List (Visit σ)
  | [], _ => []
  | st :: ss, s => (it.traceStatement st).after s fun _ s' =>
      stmtVisits st s' ++ (it.exec st).after s' fun _ s'' => bodyVisits ss s''

end

end Interpreter

/-! ## Invariants -/

theorem Expr.mem_nodesOnto (e : Expr) (rest : List Node) : .expr e ∈ e.nodesOnto rest := by
  cases e <;> exact List.mem_cons_self

mutual

/-- No statement stands in an expression. -/
theorem Expr.mem_of_mem_nodesOnto {s : Stmt} (e : Expr) {rest : List Node}
    (h : .stmt s ∈ e.nodesOnto rest) : .stmt s ∈ rest := by
  cases e with
  | number | string | var => exact (List.mem_cons.mp h).resolve_left nofun
  | binary _ _ l r | comparison _ _ l r =>
    have hl := (List.mem_cons.mp h).resolve_left nofun
    exact r.mem_of_mem_nodesOnto (l.mem_of_mem_nodesOnto hl)
  | call _ _ args =>
    exact Expr.mem_of_mem_nodesOntoArgs args ((List.mem_cons.mp h).resolve_left nofun)

theorem Expr.mem_of_mem_nodesOntoArgs {s : Stmt} (es : List Expr) {rest : List Node}
    (h : .stmt s ∈ Expr.nodesOntoArgs es rest) : .stmt s ∈ rest := by
  cases es with
  | nil => exact h
  | cons e es => exact Expr.mem_of_mem_nodesOntoArgs es (e.mem_of_mem_nodesOnto h)

end

theorem Block.mem_nodesOnto (b : Block) (rest : List Node) : b.toNode ∈ b.nodesOnto rest := by
  cases b
  exact List.mem_cons_self

theorem Stmt.mem_nodesOnto (s : Stmt) (rest : List Node) : s.toNode ∈ s.nodesOnto rest := by
  cases s with
  | expr e => exact e.mem_nodesOnto rest
  | block b => exact b.mem_nodesOnto rest
  | _ => exact List.mem_cons_self

namespace Run

/-- The states that the run leaves have `I`, if the ones it starts in do. -/
def Keeps (x : Run σ α) (I : RunState σ → Prop) : Prop := ∀ s, I s → I (x.run s).2

variable {x : Run σ α} {I : RunState σ → Prop}

theorem Keeps.bind {f : α → Run σ β} (hx : x.Keeps I) (hf : ∀ a, (f a).Keeps I) :
    (x >>= f).Keeps I := by
  intro s hs
  have h := hx s hs
  rw [run_bind]
  generalize x.run s = r at h ⊢
  rcases r with ⟨e | a, s'⟩
  · exact h
  · exact hf a s' h

theorem Keeps.ofExcept (r : Except Failure α) : (Run.ofExcept r : Run σ α).Keeps I := by
  cases r with
  | ok a => exact fun _ hs => hs
  | error f => exact fun _ hs => hs

theorem forall_mem_after {s : RunState σ} {k : α → RunState σ → List γ} {P : γ → Prop}
    (hx : x.Keeps I) (hs : I s) (h : ∀ a s', x.run s = (.ok a, s') → I s' → ∀ v ∈ k a s', P v) :
    ∀ v ∈ x.after s k, P v := by
  have hI := hx s hs
  unfold after
  generalize x.run s = r at h hI ⊢
  rcases r with ⟨e | a, s'⟩
  · exact fun _ hv => by cases hv
  · exact h a s' rfl hI

end Run

namespace Interpreter

/-- What every part of the program keeps. -/
structure Maintains (it : Interpreter σ) (I : RunState σ → Prop) (nodes : List Node) : Prop where
  poll (pos : Pos) : (it.poll pos).Keeps I
  trace (st : Stmt) : (it.traceStatement st).Keeps I
  eval {e : Expr} {rest : List Node} : e.nodesOnto rest ⊆ nodes → (it.eval e).Keeps I
  exec {st : Stmt} {rest : List Node} : st.nodesOnto rest ⊆ nodes → (it.exec st).Keeps I

variable {it : Interpreter σ} {I : RunState σ → Prop} {nodes rest : List Node} {s : RunState σ}

theorem Maintains.evalArgs (hi : it.Maintains I nodes) (es : List Expr)
    (hn : Expr.nodesOntoArgs es rest ⊆ nodes) : (it.evalArgs es).Keeps I := by
  induction es with
  | nil =>
    unfold Interpreter.evalArgs
    exact fun _ hs => hs
  | cons e es ih =>
    unfold Interpreter.evalArgs
    exact (hi.eval hn).bind fun v => (ih (e.subset_of_nodesOnto hn)).bind fun vs _ hs => hs

theorem Maintains.condition (hi : it.Maintains I nodes) (c : Condition)
    (hn : c.toExpr.nodesOnto rest ⊆ nodes) : (it.condition c).Keeps I :=
  (hi.eval hn).bind fun _ => .ofExcept _

theorem Maintains.execBlock (hi : it.Maintains I nodes) (b : Block)
    (hn : b.nodesOnto rest ⊆ nodes) : (it.execBlock b).Keeps I := by
  have hb : (Stmt.block b).nodesOnto rest ⊆ nodes := hn
  have h := hi.exec hb
  unfold Interpreter.exec at h
  exact h

variable (it I nodes) in
/-- The visit is of one of the nodes, and `I` holds; in an invocation, when the arguments are about
to be evaluated. -/
def Arises : Visit σ → Prop
  | .node n s => n ∈ nodes ∧ I s
  | .invocation name args vs s => (∃ pos, .expr (.call pos name args) ∈ nodes) ∧
      ∃ s₀, I s₀ ∧ (it.evalArgs args).run s₀ = (.ok vs, s)

mutual

theorem exprVisits_forall (hi : it.Maintains I nodes) (e : Expr) {rest : List Node}
    (hn : e.nodesOnto rest ⊆ nodes) {s : RunState σ} (hs : I s) :
    ∀ v ∈ it.exprVisits e s, it.Arises I nodes v := by
  have hhead : .expr e ∈ nodes := hn (e.mem_nodesOnto rest)
  cases e with
  | number | string | var =>
    unfold exprVisits
    exact List.forall_mem_singleton.mpr ⟨hhead, hs⟩
  | binary pos op l r | comparison pos op l r =>
    unfold exprVisits
    have hl := List.subset_of_cons_subset hn
    have hr := l.subset_of_nodesOnto hl
    refine List.forall_mem_cons.mpr ⟨⟨hhead, hs⟩, List.forall_mem_append.mpr ⟨?_, ?_⟩⟩
    · exact exprVisits_forall hi l hl hs
    · exact Run.forall_mem_after (hi.eval hl) hs fun _ _ _ hs' => exprVisits_forall hi r hr hs'
  | call pos name args =>
    unfold exprVisits
    have hargs := List.subset_of_cons_subset hn
    refine List.forall_mem_cons.mpr ⟨⟨hhead, hs⟩, ?_⟩
    refine Run.forall_mem_after (hi.poll pos) hs fun _ s' _ hs' => ?_
    refine List.forall_mem_append.mpr ⟨argVisits_forall hi args hargs hs', ?_⟩
    exact Run.forall_mem_after (hi.evalArgs args hargs) hs' fun vs s'' hrun _ =>
      List.forall_mem_singleton.mpr ⟨⟨pos, hhead⟩, s', hs', hrun⟩

theorem argVisits_forall (hi : it.Maintains I nodes) (es : List Expr) {rest : List Node}
    (hn : Expr.nodesOntoArgs es rest ⊆ nodes) {s : RunState σ} (hs : I s) :
    ∀ v ∈ it.argVisits es s, it.Arises I nodes v := by
  cases es with
  | nil =>
    unfold argVisits
    exact fun _ hv => by cases hv
  | cons e es =>
    unfold argVisits
    refine List.forall_mem_append.mpr ⟨exprVisits_forall hi e hn hs, ?_⟩
    exact Run.forall_mem_after (hi.eval hn) hs fun _ _ _ hs' =>
      argVisits_forall hi es (e.subset_of_nodesOnto hn) hs'

end

theorem roundVisits_forall {test : Run σ Bool} {body : Run σ Unit}
    {testVisits bodyVisits : RunState σ → List (Visit σ)} {P : Visit σ → Prop}
    (ht : test.Keeps I) (hb : body.Keeps I) (htv : ∀ s, I s → ∀ v ∈ testVisits s, P v)
    (hbv : ∀ s, I s → ∀ v ∈ bodyVisits s, P v) (n : Nat) (hs : I s) :
    ∀ v ∈ roundVisits test body testVisits bodyVisits n s, P v := by
  induction n generalizing s with
  | zero => exact fun _ hv => by cases hv
  | succ n ih =>
    refine List.forall_mem_append.mpr ⟨htv s hs, ?_⟩
    refine Run.forall_mem_after ht hs fun again s' _ hs' => ?_
    cases again with
    | false => exact fun _ hv => by cases hv
    | true =>
      refine List.forall_mem_append.mpr ⟨hbv s' hs', ?_⟩
      exact Run.forall_mem_after hb hs' fun _ _ _ hs'' => ih hs''

mutual

theorem stmtVisits_forall (hi : it.Maintains I nodes) (st : Stmt) {rest : List Node}
    (hn : st.nodesOnto rest ⊆ nodes) {s : RunState σ} (hs : I s) :
    ∀ v ∈ it.stmtVisits st s, it.Arises I nodes v := by
  have hhead : st.toNode ∈ nodes := hn (st.mem_nodesOnto rest)
  cases st with
  | expr e =>
    unfold stmtVisits
    exact exprVisits_forall hi e hn hs
  | assign pos name value =>
    unfold stmtVisits
    refine List.forall_mem_cons.mpr ⟨⟨hhead, hs⟩, ?_⟩
    exact exprVisits_forall hi value (List.subset_of_cons_subset hn) hs
  | block b =>
    unfold stmtVisits
    exact blockVisits_forall hi b hn hs
  | ifThen pos c t =>
    unfold stmtVisits
    have hc := List.subset_of_cons_subset hn
    refine List.forall_mem_cons.mpr ⟨⟨hhead, hs⟩, List.forall_mem_append.mpr ⟨?_, ?_⟩⟩
    · exact exprVisits_forall hi c.toExpr hc hs
    · refine Run.forall_mem_after (hi.condition c hc) hs fun holds s' _ hs' => ?_
      cases holds with
      | true => exact blockVisits_forall hi t (c.toExpr.subset_of_nodesOnto hc) hs'
      | false => exact fun _ hv => by cases hv
  | ifElse pos c t e =>
    unfold stmtVisits
    have hc := List.subset_of_cons_subset hn
    have ht := c.toExpr.subset_of_nodesOnto hc
    refine List.forall_mem_cons.mpr ⟨⟨hhead, hs⟩, List.forall_mem_append.mpr ⟨?_, ?_⟩⟩
    · exact exprVisits_forall hi c.toExpr hc hs
    · refine Run.forall_mem_after (hi.condition c hc) hs fun holds s' _ hs' => ?_
      cases holds with
      | true => exact blockVisits_forall hi t ht hs'
      | false => exact blockVisits_forall hi e (t.subset_of_nodesOnto ht) hs'
  | loop pos c b =>
    unfold stmtVisits
    have hc := List.subset_of_cons_subset hn
    have hb := c.toExpr.subset_of_nodesOnto hc
    refine List.forall_mem_cons.mpr ⟨⟨hhead, hs⟩, ?_⟩
    refine roundVisits_forall ((hi.poll pos).bind fun _ => hi.condition c hc) (hi.execBlock b hb)
      (fun s hs => ?_) (fun s hs => blockVisits_forall hi b hb hs) it.rounds hs
    exact Run.forall_mem_after (hi.poll pos) hs fun _ _ _ hs' =>
      exprVisits_forall hi c.toExpr hc hs'

theorem blockVisits_forall (hi : it.Maintains I nodes) (b : Block) {rest : List Node}
    (hn : b.nodesOnto rest ⊆ nodes) {s : RunState σ} (hs : I s) :
    ∀ v ∈ it.blockVisits b s, it.Arises I nodes v := by
  have hhead : b.toNode ∈ nodes := hn (b.mem_nodesOnto rest)
  cases b with
  | mk pos ss =>
    unfold blockVisits
    refine List.forall_mem_cons.mpr ⟨⟨hhead, hs⟩, ?_⟩
    exact bodyVisits_forall hi ss (List.subset_of_cons_subset hn) hs

theorem bodyVisits_forall (hi : it.Maintains I nodes) (ss : List Stmt) {rest : List Node}
    (hn : Stmt.nodesOntoBody ss rest ⊆ nodes) {s : RunState σ} (hs : I s) :
    ∀ v ∈ it.bodyVisits ss s, it.Arises I nodes v := by
  cases ss with
  | nil =>
    unfold bodyVisits
    exact fun _ hv => by cases hv
  | cons st ss =>
    unfold bodyVisits
    refine Run.forall_mem_after (hi.trace st) hs fun _ s' _ hs' => ?_
    refine List.forall_mem_append.mpr ⟨stmtVisits_forall hi st hn hs', ?_⟩
    exact Run.forall_mem_after (hi.exec hn) hs' fun _ _ _ hs'' =>
      bodyVisits_forall hi ss (st.subset_of_nodesOnto hn) hs''

end

variable (it) in
theorem maintains_true (nodes : List Node) : it.Maintains (fun _ => True) nodes :=
  ⟨fun _ _ h => h, fun _ _ h => h, fun _ _ h => h, fun _ _ h => h⟩

/-! ## Calls -/

variable (it) in
/-- The calls that are noted while a function is invoked. -/
def noted : Visit σ → List CallRecord
  | .node _ _ => []
  | .invocation name _ vs s => ((it.invoke name vs).run s).2.calls.toList.drop s.calls.size

variable (it) in
/-- The calls that the run notes are those of its visits `v`. -/
def Tallies (x : Run σ α) (v : RunState σ → List (Visit σ)) : Prop :=
  ∀ s, (x.run s).2.calls.toList = s.calls.toList ++ (v s).flatMap it.noted

namespace Tallies

variable {x : Run σ α} {v : RunState σ → List (Visit σ)}

theorem of_eq (h : ∀ s, (x.run s).2.calls = s.calls) : it.Tallies x fun _ => [] := by
  intro s
  rw [h, List.flatMap_nil, List.append_nil]

theorem of_happen {o : Options} {x : Run σ Unit} {e : Event σ} (hx : x.Follows o (.happen e))
    (he : e.call? = none) : it.Tallies x fun _ => [] := by
  intro s
  have hn := e.note_calls (o := o) (s := s)
  rw [he] at hn
  rw [hx s, Course.happen, Course.run]
  cases e.stop? o (e.note o s) <;> exact hn

theorem bind {f : α → Run σ β} {w : α → RunState σ → List (Visit σ)} (hx : it.Tallies x v)
    (hf : ∀ a, it.Tallies (f a) (w a)) : it.Tallies (x >>= f) fun s => v s ++ x.after s w := by
  intro s
  have h := hx s
  simp only [Run.run_bind, Run.after, List.flatMap_append]
  generalize x.run s = r at h ⊢
  rcases r with ⟨e | a, s'⟩
  · rw [List.flatMap_nil, List.append_nil]
    exact h
  · rw [hf a s', ← List.append_assoc, ← h]

/-- What comes after and notes nothing makes no difference. -/
theorem bind_nil {f : α → Run σ β} (hx : it.Tallies x v) (hf : ∀ a, it.Tallies (f a) fun _ => []) :
    it.Tallies (x >>= f) v := by
  intro s
  have h := hx.bind hf s
  simp only [Run.after_nil, List.append_nil] at h
  exact h

theorem discard (hx : it.Tallies x v) : it.Tallies (Functor.discard x) v :=
  hx.bind_nil fun _ => of_eq fun _ => rfl

theorem ofExcept (r : Except Failure α) : it.Tallies (Run.ofExcept r) fun _ => [] := by
  cases r with
  | ok a => exact of_eq fun _ => rfl
  | error f => exact of_eq fun _ => rfl

theorem mapFailure (hx : it.Tallies x v) (g : Failure → Failure) :
    it.Tallies (x.mapFailure g) v := by
  intro s
  have h := hx s
  rw [Run.run_mapFailure]
  generalize x.run s = r at h ⊢
  rcases r with ⟨(f | _) | a, s'⟩ <;> exact h

theorem node (hx : it.Tallies x v) (n : Node) : it.Tallies x fun s => .node n s :: v s := hx

theorem repeatWhile {test : Run σ Bool} {body : Run σ Unit}
    {testVisits bodyVisits : RunState σ → List (Visit σ)} (ht : it.Tallies test testVisits)
    (hb : it.Tallies body bodyVisits) (n : Nat) :
    it.Tallies (Run.repeatWhile test body n) (roundVisits test body testVisits bodyVisits n) := by
  induction n with
  | zero => exact of_eq fun _ => rfl
  | succ n ih =>
    refine ht.bind fun again => ?_
    cases again with
    | true => exact hb.bind fun _ => ih
    | false => exact of_eq fun _ => rfl

end Tallies

variable {p : Plan σ}

theorem invoke_tallies (hi : it.Follows p) (name : Text) (args : List Expr) (vs : List Value) :
    it.Tallies (it.invoke name vs) fun s => [.invocation name args vs s] := by
  intro s
  rw [List.flatMap_singleton, noted, hi.invoke name vs s, Course.run_state, RunState.replay_calls,
    ← Array.length_toList, List.drop_left]

theorem poll_tallies (pos : Pos) : it.Tallies (it.poll pos) fun _ => [] :=
  .of_happen (poll_follows pos) rfl

theorem traceStatement_tallies (st : Stmt) : it.Tallies (it.traceStatement st) fun _ => [] :=
  .of_happen (traceStatement_follows st) rfl

theorem call_tallies (hi : it.Follows p) (pos : Pos) (name : Text) (args : List Expr)
    (ha : it.Tallies (it.evalArgs args) fun s => it.argVisits args s) :
    it.Tallies (it.call pos name (it.evalArgs args)) fun s =>
      .node (.expr (.call pos name args)) s :: (it.poll pos).after s fun _ s' =>
        it.argVisits args s' ++ (it.evalArgs args).after s' fun vs s'' =>
          [.invocation name args vs s''] :=
  ((poll_tallies pos).bind fun _ => ha.bind fun vs =>
    (invoke_tallies hi name args vs).mapFailure _).node _

mutual

theorem eval_tallies (hi : it.Follows p) (e : Expr) :
    it.Tallies (it.eval e) fun s => it.exprVisits e s := by
  cases e with
  | number | string =>
    unfold eval exprVisits
    exact .node (.of_eq fun _ => rfl) _
  | var pos name =>
    unfold eval exprVisits
    refine .node (.bind_nil (.of_eq fun _ => rfl) fun v => ?_) _
    cases v <;> exact .of_eq fun _ => rfl
  | binary pos op l r | comparison pos op l r =>
    unfold eval exprVisits
    refine .node ((eval_tallies hi l).bind fun a => ?_) _
    exact (eval_tallies hi r).bind_nil fun b => .ofExcept _
  | call pos name args =>
    unfold eval exprVisits
    refine (call_tallies hi pos name args (evalArgs_tallies hi args)).bind_nil fun v => ?_
    cases v <;> exact .of_eq fun _ => rfl

theorem evalArgs_tallies (hi : it.Follows p) (es : List Expr) :
    it.Tallies (it.evalArgs es) fun s => it.argVisits es s := by
  cases es with
  | nil =>
    unfold evalArgs argVisits
    exact .of_eq fun _ => rfl
  | cons e es =>
    unfold evalArgs argVisits
    exact (eval_tallies hi e).bind fun v => (evalArgs_tallies hi es).bind_nil fun vs =>
      .of_eq fun _ => rfl

end

theorem condition_tallies (hi : it.Follows p) (c : Condition) :
    it.Tallies (it.condition c) fun s => it.exprVisits c.toExpr s :=
  (eval_tallies hi c.toExpr).bind_nil fun _ => .ofExcept _

mutual

theorem exec_tallies (hi : it.Follows p) (st : Stmt) :
    it.Tallies (it.exec st) fun s => it.stmtVisits st s := by
  cases st with
  | expr e =>
    cases e with
    | call pos name args =>
      unfold exec stmtVisits exprVisits
      exact (call_tallies hi pos name args (evalArgs_tallies hi args)).discard
    | _ =>
      unfold exec stmtVisits
      exact (eval_tallies hi _).discard
  | assign pos name value =>
    unfold exec stmtVisits
    exact ((eval_tallies hi value).bind_nil fun v => .of_eq fun _ => rfl).node _
  | block b =>
    unfold exec stmtVisits
    exact execBlock_tallies hi b
  | ifThen pos c t =>
    unfold exec stmtVisits
    refine ((condition_tallies hi c).bind fun holds => ?_).node _
    cases holds with
    | true => exact execBlock_tallies hi t
    | false => exact .of_eq fun _ => rfl
  | ifElse pos c t e =>
    unfold exec stmtVisits
    refine ((condition_tallies hi c).bind fun holds => ?_).node _
    cases holds with
    | true => exact execBlock_tallies hi t
    | false => exact execBlock_tallies hi e
  | loop pos c b =>
    unfold exec stmtVisits
    have htest := (poll_tallies pos).bind fun _ => condition_tallies hi c
    exact (htest.repeatWhile (execBlock_tallies hi b) it.rounds).node _

theorem execBlock_tallies (hi : it.Follows p) (b : Block) :
    it.Tallies (it.execBlock b) fun s => it.blockVisits b s := by
  cases b with
  | mk pos ss =>
    unfold execBlock blockVisits
    exact (execBody_tallies hi ss).node _

theorem execBody_tallies (hi : it.Follows p) (ss : List Stmt) :
    it.Tallies (it.execBody ss) fun s => it.bodyVisits ss s := by
  cases ss with
  | nil =>
    unfold execBody bodyVisits
    exact .of_eq fun _ => rfl
  | cons st ss =>
    unfold execBody bodyVisits
    exact (traceStatement_tallies st).bind fun _ => (exec_tallies hi st).bind fun _ =>
      execBody_tallies hi ss

end

end Interpreter

end ScriptEngine
