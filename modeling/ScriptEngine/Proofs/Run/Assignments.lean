import ScriptEngine.Proofs.Run.Footprint
import ScriptEngine.Proofs.Run.Visits

/-!
# Assignments and the environment

A run changes the environment by the assignments that it completes, in their order and by nothing
else (`environment_of_assignments`). The assignments that it comes to are those that its trace tells
of, and all are completed, unless the last one has no value: then this is what the run fails of.

`Interpreter.Accounts` says of a part of a program what becomes of the assignments in it, and there
is a rule for each way in which parts are put together.
-/

namespace ScriptEngine

variable {σ α β : Type}

/-! ## Silent runs -/

/-- Neither the environment nor the trace is changed. -/
def Event.isSilent : Event σ → Bool
  | update _ | call _ _ | poll _ => true
  | assign _ _ | clear | statement _ => false

theorem Event.isWrite_of_isSilent {e : Event σ} (h : e.isSilent = true) : e.isWrite = false := by
  cases e with
  | assign | clear => cases h
  | _ => rfl

theorem Event.line?_of_isSilent {e : Event σ} (o : Options) (h : e.isSilent = true) :
    e.line? o = none := by
  cases e with
  | statement => cases h
  | _ => rfl

theorem RunState.replay_silent {o : Options} {s : RunState σ} {es : List (Event σ)}
    (h : ∀ e ∈ es, e.isSilent = true) :
    (s.replay o es).env = s.env ∧ (s.replay o es).trace = s.trace := by
  have hlines : es.filterMap (Event.line? o) = [] :=
    List.filterMap_eq_nil_iff.mpr fun e he => Event.line?_of_isSilent o (h e he)
  refine ⟨env_replay_of_isWrite fun e he => Event.isWrite_of_isSilent (h e he), ?_⟩
  rw [← Array.toList_inj, replay_trace, hlines, List.append_nil]

/-- The run leaves the environment and the trace as they are. -/
def Run.Silent (x : Run σ α) : Prop :=
  ∀ s, (x.run s).2.env = s.env ∧ (x.run s).2.trace = s.trace

namespace Run.Silent

variable {x : Run σ α}

theorem of_follows {o : Options} {c : Course σ α} (hx : x.Follows o c)
    (hc : c.Within Eq (·.isSilent = true)) : x.Silent := by
  intro s
  rw [hx s, Course.run_state]
  exact RunState.replay_silent (hc.history o s)

theorem bind {f : α → Run σ β} (hx : x.Silent) (hf : ∀ a, (f a).Silent) : (x >>= f).Silent := by
  intro s
  have h := hx s
  rw [run_bind]
  generalize x.run s = r at h ⊢
  rcases r with ⟨e | a, s'⟩
  · exact h
  · exact ⟨(hf a s').1.trans h.1, (hf a s').2.trans h.2⟩

theorem discard (hx : x.Silent) : (Functor.discard x).Silent := hx.bind fun _ _ => ⟨rfl, rfl⟩

end Run.Silent

/-- Host functions that may look at the environment, but neither change it nor run programs. -/
def Conduct.observant : Conduct where
  results _ := True
  failures _ := True
  reads := True
  writes := False
  runs := False

theorem Conduct.observant_fits {P : Event σ → Prop} (h : ∀ e : Event σ, e.isSilent = true → P e) :
    Conduct.observant.Fits Eq P where
  runs h := h
  reads _ _ _ h := h
  assign h := h.elim
  clear h := h.elim
  update _ := h _ rfl
  call _ _ := h _ rfl

namespace Interpreter

/-- Calls leave the environment and the trace as they are. -/
structure Discreet (it : Interpreter σ) (p : Plan σ) : Prop where
  follows : it.Follows p
  within : p.Within Eq (·.isSilent = true)

variable {it : Interpreter σ} {p : Plan σ}

theorem allowsExprs_silent (nodes : List Node) :
    Plan.AllowsExprs nodes Eq fun e : Event σ => e.isSilent = true :=
  ⟨fun _ _ _ h => by rw [h], fun _ => rfl⟩

namespace Discreet

theorem eval (hi : it.Discreet p) (e : Expr) : (it.eval e).Silent :=
  .of_follows (eval_follows hi.follows e)
    (Plan.eval_within hi.within (allowsExprs_silent _) e (List.Subset.refl (e.nodesOnto [])))

theorem call (hi : it.Discreet p) (pos : Pos) (name : Text) (args : List Expr) :
    (it.call pos name (it.evalArgs args)).Silent :=
  .of_follows (call_follows hi.follows pos name (evalArgs_follows hi.follows args))
    (Plan.call_within hi.within (allowsExprs_silent []) pos name
      (Plan.evalArgs_within hi.within (allowsExprs_silent _) args
        (List.Subset.refl (Expr.nodesOntoArgs args []))))

theorem condition (hi : it.Discreet p) (c : Condition) : (it.condition c).Silent :=
  .of_follows (condition_follows hi.follows c)
    (Plan.condition_within hi.within (allowsExprs_silent _) c
      (List.Subset.refl (c.toExpr.nodesOnto [])))

/-- The test of a loop. -/
theorem test (hi : it.Discreet p) (pos : Pos) (c : Condition) :
    (do it.poll pos; it.condition c : Run σ Bool).Silent :=
  (Run.Silent.of_follows (poll_follows pos) (.happen rfl)).bind fun _ => hi.condition c

end Discreet

end Interpreter

/-! ## What becomes of assignments -/

/-- An assignment that a run comes to, with the state in which it does. -/
structure Assignment (σ : Type) where
  name : Text
  value : Expr
  state : RunState σ

def Visit.assignment? : Visit σ → Option (Assignment σ)
  | node (.stmt (.assign _ name value)) s => some ⟨name, value, s⟩
  | _ => none

theorem Visit.eq_of_assignment? {v : Visit σ} {a : Assignment σ} (h : v.assignment? = some a) :
    ∃ pos, v = .node (.stmt (.assign pos a.name a.value)) a.state := by
  unfold assignment? at h
  split at h <;> cases h
  exact ⟨_, rfl⟩

/-- The variable that is assigned to. -/
def Action.target? : Action → Option Text
  | assign name => some name
  | _ => none

def TraceLine.target? (l : TraceLine) : Option Text := l.action.target?

namespace Interpreter

variable (it : Interpreter σ)

/-- What the assignment writes, if it has a value. -/
def written? (a : Assignment σ) : Option (Text × Value) :=
  match (it.eval a.value).run a.state with
  | (.ok v, _) => some (a.name, v)
  | (.error _, _) => none

def Completes (a : Assignment σ) : Prop := ∃ v s, (it.eval a.value).run a.state = (.ok v, s)

/-- The assignment has no value: to evaluate it fails with `e` and leaves the state `s`. -/
def Breaks (a : Assignment σ) (e : Stop) (s : RunState σ) : Prop :=
  (it.eval a.value).run a.state = (.error e, s)

/-- What becomes of the assignments `as` in a run from `s` that comes to `r`. The trace tells of
them, but for those to `own`, of which it has told before. -/
structure Accounting (own : List Text) (as : List (Assignment σ)) (s : RunState σ)
    (r : Except Stop α × RunState σ) : Prop where
  env : r.2.env = s.env.insertAll (as.filterMap it.written?)
  trace : ∃ lines, r.2.trace.toList = s.trace.toList ++ lines ∧
    own ++ lines.filterMap TraceLine.target? = as.map Assignment.name
  ok {a : α} : r.1 = .ok a → ∀ b ∈ as, it.Completes b
  error {e : Stop} : r.1 = .error e → (∀ b ∈ as, it.Completes b) ∨
    ∃ before b, as = before ++ [b] ∧ (∀ b ∈ before, it.Completes b) ∧ it.Breaks b e r.2

/-- What becomes of the assignments among the visits `v` of a run. -/
def Accounts (own : List Text) (x : Run σ α) (v : RunState σ → List (Visit σ)) : Prop :=
  ∀ s, it.Accounting own ((v s).filterMap Visit.assignment?) s (x.run s)

variable {it} {own : List Text} {x : Run σ α} {v : RunState σ → List (Visit σ)}

theorem Accounting.fail {as : List (Assignment σ)} {s s' : RunState σ} {e : Stop}
    (h : it.Accounting own as s ((.error e, s') : Except Stop α × RunState σ)) :
    it.Accounting own as s ((.error e, s') : Except Stop β × RunState σ) := by
  refine ⟨h.env, h.trace, nofun, ?_⟩
  rintro _ ⟨⟩
  exact h.error rfl

theorem Accounting.append {as as' : List (Assignment σ)} {s s' : RunState σ} {a : α}
    {r : Except Stop β × RunState σ} (h : it.Accounting own as s (.ok a, s'))
    (h' : it.Accounting [] as' s' r) : it.Accounting own (as ++ as') s r := by
  obtain ⟨lines, ht, hl⟩ := h.trace
  obtain ⟨lines', ht', hl'⟩ := h'.trace
  have hcomplete := h.ok rfl
  refine ⟨?_, ⟨lines ++ lines', ?_, ?_⟩, fun hr => ?_, fun hr => ?_⟩
  · rw [h'.env, h.env, List.filterMap_append, NameTable.insertAll_append]
  · rw [ht', ht, List.append_assoc]
  · rw [List.filterMap_append, ← List.append_assoc, hl, List.map_append, ← hl', List.nil_append]
  · exact List.forall_mem_append.mpr ⟨hcomplete, h'.ok hr⟩
  · rcases h'.error hr with hall | ⟨before, b, rfl, hbefore, hb⟩
    · exact .inl (List.forall_mem_append.mpr ⟨hcomplete, hall⟩)
    · refine .inr ⟨as ++ before, b, (List.append_assoc ..).symm, ?_, hb⟩
      exact List.forall_mem_append.mpr ⟨hcomplete, hbefore⟩

namespace Accounts

theorem of_silent (hx : x.Silent) (hv : ∀ s, (v s).filterMap Visit.assignment? = []) :
    it.Accounts [] x v := by
  intro s
  obtain ⟨he, ht⟩ := hx s
  rw [hv]
  exact ⟨he, ⟨[], by rw [ht, List.append_nil], rfl⟩, fun _ _ h => (by cases h),
    fun _ => .inl fun _ h => (by cases h)⟩

theorem pure (a : α) : it.Accounts [] (Pure.pure a : Run σ α) fun _ => [] :=
  of_silent (fun _ => ⟨rfl, rfl⟩) fun _ => rfl

theorem bind {f : α → Run σ β} {w : α → RunState σ → List (Visit σ)} (hx : it.Accounts own x v)
    (hf : ∀ a, it.Accounts [] (f a) (w a)) :
    it.Accounts own (x >>= f) fun s => v s ++ x.after s w := by
  intro s
  have h := hx s
  simp only [Run.run_bind, Run.after, List.filterMap_append]
  generalize x.run s = r at h ⊢
  rcases r with ⟨e | a, s'⟩
  · rw [List.filterMap_nil, List.append_nil]
    exact h.fail
  · exact h.append (hf a s')

/-- A node that is no assignment makes no difference. -/
theorem cons {n : Node} (hx : it.Accounts own x v)
    (hn : ∀ s : RunState σ, (Visit.node n s).assignment? = none) :
    it.Accounts own x fun s => .node n s :: v s := by
  intro s
  rw [List.filterMap_cons, hn]
  exact hx s

/-- The line of a statement tells of the assignment, if it is one. -/
theorem traced (ht : it.options.trace = true) {st : Stmt}
    (hx : it.Accounts st.action.target?.toList x v) :
    it.Accounts [] (do it.traceStatement st; x) fun s =>
      (it.traceStatement st).after s fun _ s' => v s' := by
  have hnote : it.traceStatement st = Run.noteStatement st := if_pos ht
  intro s
  rw [hnote]
  have h := hx { s with trace := s.trace.push ⟨st.pos, st.action⟩ }
  obtain ⟨lines, htrace, hl⟩ := h.trace
  refine ⟨h.env, ⟨⟨st.pos, st.action⟩ :: lines, ?_, ?_⟩, h.ok, h.error⟩
  · refine htrace.trans ?_
    simp
  · refine Eq.trans ?_ hl
    rw [List.nil_append, List.filterMap_cons, TraceLine.target?]
    cases st.action.target? <;> rfl

theorem repeatWhile {test : Run σ Bool} {body : Run σ Unit}
    {testVisits bodyVisits : RunState σ → List (Visit σ)} (ht : it.Accounts [] test testVisits)
    (hb : it.Accounts [] body bodyVisits) (n : Nat) :
    it.Accounts [] (Run.repeatWhile test body n)
      (roundVisits test body testVisits bodyVisits n) := by
  induction n with
  | zero => exact of_silent (fun _ => ⟨rfl, rfl⟩) fun _ => rfl
  | succ n ih =>
    refine ht.bind fun again => ?_
    cases again with
    | true => exact hb.bind fun _ => ih
    | false => exact .pure ()

end Accounts

/-! ## Programs -/

theorem exprVisits_assignment? (e : Expr) (s : RunState σ) :
    (it.exprVisits e s).filterMap Visit.assignment? = [] := by
  rw [List.filterMap_eq_nil_iff]
  intro v hv
  have hin := exprVisits_forall (it.maintains_true (e.nodesOnto [])) e (List.Subset.refl _) trivial
    v hv
  match v with
  | .invocation .. | .node (.expr _) _ => rfl
  | .node (.stmt _) _ => exact absurd (e.mem_of_mem_nodesOnto hin.1) List.not_mem_nil

variable {p : Plan σ}

theorem Discreet.assign_accounts (hi : it.Discreet p) (pos : Pos) (name : Text) (value : Expr) :
    it.Accounts [name] (it.exec (.assign pos name value)) fun s =>
      it.stmtVisits (.assign pos name value) s := by
  intro s
  have hv : (it.stmtVisits (.assign pos name value) s).filterMap Visit.assignment? =
      [⟨name, value, s⟩] := by
    unfold stmtVisits
    rw [List.filterMap_cons, exprVisits_assignment?]
    rfl
  obtain ⟨he, ht⟩ := hi.eval value s
  unfold exec
  rw [hv, Run.run_bind]
  cases hr : (it.eval value).run s with
  | mk r s' =>
    rw [hr] at he ht
    have htrace : s'.trace.toList = s.trace.toList ++ [] := by rw [ht, List.append_nil]
    cases r with
    | error e =>
      have hw : it.written? ⟨name, value, s⟩ = none := by rw [written?, hr]
      refine ⟨?_, ⟨[], htrace, rfl⟩, nofun, ?_⟩
      · rw [List.filterMap_cons, hw]
        exact he
      · rintro _ ⟨⟩
        exact .inr ⟨[], _, rfl, fun _ h => (by cases h), hr⟩
    | ok v =>
      have hw : it.written? ⟨name, value, s⟩ = some (name, v) := by rw [written?, hr]
      refine ⟨?_, ⟨[], htrace, rfl⟩, fun _ => List.forall_mem_singleton.mpr ⟨v, s', hr⟩, nofun⟩
      rw [List.filterMap_cons, hw]
      exact congrArg (NameTable.insert · name v) he

mutual

theorem exec_accounts (hi : it.Discreet p) (ht : it.options.trace = true) (st : Stmt) :
    it.Accounts st.action.target?.toList (it.exec st) fun s => it.stmtVisits st s := by
  cases st with
  | expr e =>
    cases e with
    | call pos name args =>
      unfold exec stmtVisits
      exact .of_silent (hi.call pos name args).discard (exprVisits_assignment? _)
    | _ =>
      unfold exec stmtVisits
      exact .of_silent (hi.eval _).discard (exprVisits_assignment? _)
  | assign pos name value => exact hi.assign_accounts pos name value
  | block b =>
    unfold exec stmtVisits
    exact execBlock_accounts hi ht b
  | ifThen pos c t =>
    unfold exec stmtVisits
    refine .cons (.bind (.of_silent (hi.condition c) (exprVisits_assignment? _)) fun holds => ?_)
      fun _ => rfl
    cases holds with
    | true => exact execBlock_accounts hi ht t
    | false => exact .pure ()
  | ifElse pos c t e =>
    unfold exec stmtVisits
    refine .cons (.bind (.of_silent (hi.condition c) (exprVisits_assignment? _)) fun holds => ?_)
      fun _ => rfl
    cases holds with
    | true => exact execBlock_accounts hi ht t
    | false => exact execBlock_accounts hi ht e
  | loop pos c b =>
    unfold exec stmtVisits
    refine .cons (.repeatWhile (.of_silent (hi.test pos c) fun s => ?_)
      (execBlock_accounts hi ht b) it.rounds) fun _ => rfl
    unfold Run.after
    split
    · exact exprVisits_assignment? _ _
    · rfl

theorem execBlock_accounts (hi : it.Discreet p) (ht : it.options.trace = true) (b : Block) :
    it.Accounts [] (it.execBlock b) fun s => it.blockVisits b s := by
  cases b with
  | mk pos ss =>
    unfold execBlock blockVisits
    exact (execBody_accounts hi ht ss).cons fun _ => rfl

theorem execBody_accounts (hi : it.Discreet p) (ht : it.options.trace = true) (ss : List Stmt) :
    it.Accounts [] (it.execBody ss) fun s => it.bodyVisits ss s := by
  cases ss with
  | nil =>
    unfold execBody bodyVisits
    exact .pure ()
  | cons st ss =>
    unfold execBody bodyVisits
    exact .traced ht ((exec_accounts hi ht st).bind fun _ => execBody_accounts hi ht ss)

end

/-! ## The environment after a run -/

variable (it) in
/-- The assignments that a run of the block comes to. -/
def assignments (b : Block) (s : RunState σ) : List (Assignment σ) :=
  (it.blockVisits b s).filterMap Visit.assignment?

variable (it) in
/-- What a run of the block writes: the value of each assignment that has one, in turn. -/
def writes (b : Block) (s : RunState σ) : List (Text × Value) :=
  (it.assignments b s).filterMap it.written?

variable (it) in
/-- The failure comes out of evaluating the last assignment. -/
def BreaksOff (b : Block) (s : RunState σ) (e : Stop) (s' : RunState σ) : Prop :=
  ∃ a, (it.assignments b s).getLast? = some a ∧ it.Breaks a e s'

variable (it) in
/-- What a run of the block writes, by the names that it assigns to. -/
structure Balances (b : Block) (s : RunState σ) (names : List Text)
    (r : Except Stop Unit × RunState σ) : Prop where
  env : r.2.env = s.env.insertAll (it.writes b s)
  ok : r.1 = .ok () → (it.writes b s).map Prod.fst = names
  whole {e : Stop} : r.1 = .error e → ¬ it.BreaksOff b s e r.2 →
    (it.writes b s).map Prod.fst = names
  broken {e : Stop} : r.1 = .error e → it.BreaksOff b s e r.2 →
    ∃ name, names = (it.writes b s).map Prod.fst ++ [name]

theorem written?_of_breaks {a : Assignment σ} {e : Stop} {s : RunState σ} (h : it.Breaks a e s) :
    it.written? a = none := by
  rw [written?, h]

theorem written?_name {a : Assignment σ} {w : Text × Value} (h : it.written? a = some w) :
    w.1 = a.name := by
  unfold written? at h
  split at h <;> cases h
  rfl

theorem names_of_completes {as : List (Assignment σ)} (h : ∀ a ∈ as, it.Completes a) :
    (as.filterMap it.written?).map Prod.fst = as.map Assignment.name := by
  induction as with
  | nil => rfl
  | cons a as ih =>
    rw [List.forall_mem_cons] at h
    obtain ⟨⟨v, s, hv⟩, has⟩ := h
    have hw : it.written? a = some (a.name, v) := by rw [written?, hv]
    rw [List.filterMap_cons, hw, List.map_cons, List.map_cons, ih has]

/-- An assignment that breaks is not among completed ones. -/
theorem Completes.not_breaks {a : Assignment σ} {e : Stop} {s : RunState σ} (h : it.Completes a) :
    ¬ it.Breaks a e s := by
  obtain ⟨v, s', hv⟩ := h
  intro hb
  cases hv.symm.trans hb

theorem balances (hi : it.Discreet p) (ht : it.options.trace = true) (b : Block) (s : RunState σ) :
    ∃ lines, ((it.execBlock b).run s).2.trace.toList = s.trace.toList ++ lines ∧
      it.Balances b s (lines.filterMap TraceLine.target?) ((it.execBlock b).run s) := by
  have h := execBlock_accounts hi ht b s
  obtain ⟨lines, htrace, hl⟩ := h.trace
  rw [List.nil_append] at hl
  refine ⟨lines, htrace, h.env, ?_, ?_, ?_⟩
  · intro hr
    rw [hl]
    exact names_of_completes (h.ok hr)
  · intro e hr hwhole
    rw [hl]
    rcases h.error hr with hall | ⟨before, a, has, -, ha⟩
    · exact names_of_completes hall
    · refine absurd ⟨a, ?_, ha⟩ hwhole
      rw [assignments, has, List.getLast?_concat]
  · rintro e hr ⟨a, hlast, ha⟩
    rcases h.error hr with hall | ⟨before, a', has, hbefore, ha'⟩
    · exact absurd ha (hall a (List.mem_of_getLast? hlast)).not_breaks
    · refine ⟨a'.name, ?_⟩
      rw [hl, writes, assignments, has, List.filterMap_append, List.filterMap_cons,
        written?_of_breaks ha', List.filterMap_nil, List.append_nil, names_of_completes hbefore,
        List.map_append, List.map_singleton]

end Interpreter

/-- The tree holds an assignment to the name. -/
def Node.Assigns (n : Node) (name : Text) : Prop :=
  ∃ pos value, .stmt (.assign pos name value) ∈ n.preorder

theorem Interpreter.assigns_of_mem_writes {it : Interpreter σ} {b : Block} {s : RunState σ}
    {name : Text} (h : name ∈ (it.writes b s).map Prod.fst) : b.toNode.Assigns name := by
  obtain ⟨w, hw, rfl⟩ := List.mem_map.mp h
  obtain ⟨a, ha, haw⟩ := List.mem_filterMap.mp hw
  obtain ⟨v, hv, hva⟩ := List.mem_filterMap.mp ha
  obtain ⟨pos, rfl⟩ := Visit.eq_of_assignment? hva
  have hin := blockVisits_forall (it.maintains_true b.toNode.preorder) b (List.Subset.refl _)
    trivial _ hv
  rw [written?_name haw]
  exact ⟨pos, a.value, hin.1⟩

theorem NameTable.contains_insertAll {t : NameTable α} {name : Text} (h : t.contains name)
    (ws : List (Text × α)) : (t.insertAll ws).contains name := by
  by_cases hmem : name ∈ ws.map Prod.fst
  · obtain ⟨v, hv⟩ := find?_insertAll_of_mem hmem
    rw [contains, hv]
    rfl
  · rw [contains, find?_insertAll_of_notMem hmem]
    exact h

/-- Whether it succeeds, fails or is cancelled, a run writes the assignments that its trace tells of
and nothing else, but for the last one if the failure comes out of its value. On the way no name is
unbound. -/
theorem environment_of_assignments {reg : Registry σ} (hr : reg.KeepsTo .observant)
    (hook : Option CancelHook) (fuel : Nat) (b : Block) (s : RunState σ) :
    let o : Options := ⟨hook, true⟩
    let it := reg.interpreter o fuel
    let r := (it.execBlock b).run s
    (∃ lines, r.2.trace.toList = s.trace.toList ++ lines ∧
      it.Balances b s (lines.filterMap TraceLine.target?) r) ∧
    (∀ es e, es ++ [e] <+: ((reg.executing b).course fuel).history o s →
      ∀ name, (s.replay o es).env.contains name → (s.replay o (es ++ [e])).env.contains name) ∧
    ∀ name, ¬ b.toNode.Assigns name → r.2.env.find? name = s.env.find? name := by
  intro o it r
  have hi : it.Discreet (reg.plan fuel) :=
    ⟨reg.interpreter_follows o fuel, hr.within (Conduct.observant_fits fun _ h => h) fuel⟩
  obtain ⟨lines, ht, hb⟩ := Interpreter.balances hi rfl b s
  refine ⟨⟨lines, ht, hb⟩, ?_, ?_⟩
  · intro es e he name hname
    have hw : ((reg.executing b).course fuel).Within Eq (·.isClear = false) :=
      Plan.execBlock_within (hr.within (Conduct.observant_fits fun _ h =>
        Event.isClear_of_isWrite (Event.isWrite_of_isSilent h)) fuel)
        ⟨⟨fun _ _ _ h => by rw [h], fun _ => rfl⟩, fun _ => rfl, fun _ _ => rfl⟩ b
        (List.Subset.refl b.toNode.preorder)
    have hclear : e.isClear = false := hw.history o s e (he.subset List.mem_concat_self)
    rw [RunState.replay_append]
    show ((e.note o _).env.contains name : Prop)
    rw [Event.env_note hclear]
    exact NameTable.contains_insertAll hname _
  · intro name hname
    rw [hb.env]
    exact NameTable.find?_insertAll_of_notMem fun h => hname (Interpreter.assigns_of_mem_writes h)

/-- The hook lets the first value be had, but not the second. -/
theorem environment_of_assignments_cancelled :
    let name (s : String) := Text.ascii s
    let reg : Registry Nat := ⟨[(name "f", ⟨some 0, fun _ => .inspect fun env =>
      .update (· + env.size) fun _ => .done (some (.boolean true))⟩)]⟩
    let call : Expr := .call Pos.unset (name "f") []
    let b : Block := .mk Pos.unset [.assign Pos.unset (name "x") call,
      .assign Pos.unset (name "y") call]
    let it := reg.interpreter ⟨some (.after 1), true⟩ 1
    let s : RunState Nat := .start NameTable.empty 0
    let r := (it.execBlock b).run s
    reg.KeepsTo .observant ∧ it.BreaksOff b s (.failed (.error (.of .cancelled Pos.unset))) r.2 ∧
    it.Balances b s [name "x", name "y"] r ∧ r.2.env.find? (name "y") = none := by
  intro name reg call b it s r
  have hr : reg.KeepsTo .observant := by
    intro e he args
    cases List.mem_singleton.mp he
    exact ⟨trivial, fun _ _ => trivial⟩
  obtain ⟨⟨lines, ht, hb⟩, -⟩ := environment_of_assignments hr (some (.after 1)) 1 b s
  obtain rfl : [⟨Pos.unset, .assign (name "x")⟩, ⟨Pos.unset, .assign (name "y")⟩] = lines := ht
  exact ⟨hr, ⟨_, rfl, rfl⟩, hb, rfl⟩

end ScriptEngine
