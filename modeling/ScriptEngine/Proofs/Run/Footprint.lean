import ScriptEngine.Proofs.Host.Conduct
import ScriptEngine.Proofs.Run.Blame
import ScriptEngine.Proofs.Run.Cancellation

/-!
# What a run depends on and what it changes

`Course.Within R P`: environments that `R` relates are the same to the course, and all its events
have `P`. The course of a program is within what its variables and its assignments make of it, as
long as its host functions are (`Plan.execBlock_within`).

So a program depends on the variables it names and on no others (`named_variables_decide`), and it
changes an environment by its assignments only (`RunState.env_replay`).
-/

namespace ScriptEngine

variable {σ α β : Type}

/-! ## Several assignments -/

namespace NameTable

/-- Binds the names in turn. -/
def insertAll (t : NameTable α) (ws : List (Text × α)) : NameTable α :=
  ws.foldl (fun t w => t.insert w.1 w.2) t

variable {t : NameTable α} {ws : List (Text × α)} {name : Text}

theorem insertAll_append (t : NameTable α) (ws ws' : List (Text × α)) :
    t.insertAll (ws ++ ws') = (t.insertAll ws).insertAll ws' :=
  List.foldl_append

theorem find?_insertAll_of_notMem (h : name ∉ ws.map Prod.fst) :
    (t.insertAll ws).find? name = t.find? name := by
  induction ws generalizing t with
  | nil => rfl
  | cons w ws ih =>
    rw [List.map_cons, List.mem_cons, not_or] at h
    exact (ih h.2).trans (find?_insert_of_ne h.1 t w.2)

/-- The last of the values counts, whatever the table was before. -/
theorem find?_insertAll_of_mem (h : name ∈ ws.map Prod.fst) :
    ∃ v, ∀ t : NameTable α, (t.insertAll ws).find? name = some v := by
  induction ws with
  | nil => cases h
  | cons w ws ih =>
    by_cases hws : name ∈ ws.map Prod.fst
    · obtain ⟨v, hv⟩ := ih hws
      exact ⟨v, fun t => hv (t.insert w.1 w.2)⟩
    · obtain rfl : name = w.1 := (List.mem_cons.mp h).resolve_right hws
      exact ⟨w.2, fun t => (find?_insertAll_of_notMem hws).trans (find?_insert_self t w.1 w.2)⟩

end NameTable

namespace Event

variable {o : Options} {s : RunState σ}

def assigned? : Event σ → Option (Text × Value)
  | assign name value => some (name, value)
  | _ => none

def isClear : Event σ → Bool
  | clear => true
  | _ => false

/-- The environment is changed. -/
def isWrite : Event σ → Bool
  | assign _ _ | clear => true
  | _ => false

theorem env_note {e : Event σ} (h : e.isClear = false) :
    (e.note o s).env = s.env.insertAll e.assigned?.toList := by
  cases e with
  | assign | update | call => rfl
  | clear => cases h
  | statement | poll =>
    rw [note]
    split <;> rfl

theorem isClear_of_isWrite {e : Event σ} (h : e.isWrite = false) : e.isClear = false := by
  cases e with
  | clear => cases h
  | _ => rfl

theorem assigned?_of_isWrite {e : Event σ} (h : e.isWrite = false) : e.assigned? = none := by
  cases e with
  | assign => cases h
  | _ => rfl

theorem env_note_of_isWrite {e : Event σ} (h : e.isWrite = false) : (e.note o s).env = s.env := by
  rw [env_note (isClear_of_isWrite h), assigned?_of_isWrite h]
  rfl

end Event

theorem RunState.replay_append (o : Options) (s : RunState σ) (es es' : List (Event σ)) :
    s.replay o (es ++ es') = (s.replay o es).replay o es' :=
  List.foldl_append

/-- Where nothing is cleared, an environment is changed by the assignments, in their order. -/
theorem RunState.env_replay {o : Options} {s : RunState σ} {es : List (Event σ)}
    (h : ∀ e ∈ es, e.isClear = false) :
    (s.replay o es).env = s.env.insertAll (es.filterMap Event.assigned?) := by
  induction es generalizing s with
  | nil => rfl
  | cons e es ih =>
    rw [List.forall_mem_cons] at h
    refine (ih (s := e.note o s) h.2).trans ?_
    rw [Event.env_note h.1, ← NameTable.insertAll_append, List.filterMap_cons]
    cases e.assigned? <;> rfl

theorem RunState.env_replay_of_isWrite {o : Options} {s : RunState σ} {es : List (Event σ)}
    (h : ∀ e ∈ es, e.isWrite = false) : (s.replay o es).env = s.env := by
  have hnone : es.filterMap Event.assigned? = [] :=
    List.filterMap_eq_nil_iff.mpr fun e he => Event.assigned?_of_isWrite (h e he)
  rw [env_replay fun e he => Event.isClear_of_isWrite (h e he), hnone]
  rfl

/-! ## Courses within bounds -/

namespace Course

variable {R : Environment → Environment → Prop} {P : Event σ → Prop}

/-- The course tells apart no environments that `R` relates, and every event on it has `P`. -/
def Within (R : Environment → Environment → Prop) (P : Event σ → Prop) : Course σ α → Prop
  | done _ | unfinished => True
  | look next => (∀ env env' host, R env env' → next env host = next env' host) ∧
      ∀ env host, (next env host).Within R P
  | act e next => P e ∧ ∀ stop, (next stop).Within R P

namespace Within

variable {c : Course σ α}

theorem andThen {k : Except Failure α → Course σ β} (hc : c.Within R P)
    (hk : ∀ r, (k r).Within R P) : (c.andThen k).Within R P := by
  induction c with
  | done r => exact hk r
  | unfinished => trivial
  | look next ih =>
    exact ⟨fun env env' host h => congrArg (·.andThen k) (hc.1 env env' host h),
      fun env host => ih env host (hc.2 env host)⟩
  | act e next ih => exact ⟨hc.1, fun stop => ih stop (hc.2 stop)⟩

theorem bind {f : α → Course σ β} (hc : c.Within R P) (hf : ∀ a, (f a).Within R P) :
    (c >>= f).Within R P :=
  hc.andThen fun
    | .ok a => hf a
    | .error _ => trivial

theorem discard (hc : c.Within R P) : (Functor.discard c).Within R P := hc.bind fun _ => trivial

theorem mapFailure (hc : c.Within R P) (g : Failure → Failure) : (c.mapFailure g).Within R P :=
  hc.andThen fun _ => trivial

theorem attempt (hc : c.Within R P) : c.attempt.Within R P := hc.andThen fun _ => trivial

theorem happen {e : Event σ} (h : P e) : (Course.happen e).Within R P := by
  refine ⟨h, fun stop => ?_⟩
  cases stop with
  | none => trivial
  | some f => trivial

theorem environment (h : ∀ env env', R env env' → env = env') :
    (Course.environment : Course σ _).Within R P :=
  ⟨fun _ _ _ hr => by rw [h _ _ hr], fun _ _ => trivial⟩

theorem find? {name : Text} (h : ∀ env env', R env env' → env.find? name = env'.find? name) :
    (Course.find? name : Course σ _).Within R P :=
  ⟨fun _ _ _ hr => congrArg (fun v => (Pure.pure v : Course σ _)) (h _ _ hr), fun _ _ => trivial⟩

theorem updateHost {f : σ → σ} (h : P (.update f)) : (Course.updateHost f).Within R P :=
  (happen h).bind fun _ => ⟨fun _ _ _ _ => rfl, fun _ _ => trivial⟩

theorem repeatWhile {test : Course σ Bool} {body : Course σ Unit} (ht : test.Within R P)
    (hb : body.Within R P) (n : Nat) : (Course.repeatWhile test body n).Within R P := by
  induction n with
  | zero => trivial
  | succ n ih =>
    refine ht.bind fun again => ?_
    cases again with
    | true => exact hb.bind fun _ => ih
    | false => trivial

/-- Whatever happens has `P`. -/
theorem history (o : Options) (hc : c.Within R P) (s : RunState σ) : ∀ e ∈ c.history o s, P e := by
  induction c generalizing s with
  | done | unfinished => exact fun _ he => by cases he
  | look next ih => exact ih _ _ (hc.2 _ _) s
  | act e next ih =>
    rw [Course.history, List.forall_mem_cons]
    exact ⟨hc.1, ih _ (hc.2 _) _⟩

/-- If nothing is cleared, the environment is changed by the assignments that take place. -/
theorem env_run (o : Options) (hc : c.Within R (·.isClear = false)) (s : RunState σ) :
    (c.run o s).2.env = s.env.insertAll ((c.history o s).filterMap Event.assigned?) := by
  rw [run_state]
  exact RunState.env_replay (hc.history o s)

end Within

end Course

/-! ## Programs within bounds -/

namespace Plan

variable {R : Environment → Environment → Prop} {P : Event σ → Prop}

/-- Every call is within the bounds. -/
def Within (p : Plan σ) (R : Environment → Environment → Prop) (P : Event σ → Prop) : Prop :=
  ∀ name args, (p.invoke name args).Within R P

/-- Related environments are the same to the expressions among the nodes, and `P` allows the polls
of their calls. -/
structure AllowsExprs (nodes : List Node) (R : Environment → Environment → Prop)
    (P : Event σ → Prop) : Prop where
  var {pos : Pos} {name : Text} : .expr (.var pos name) ∈ nodes →
    ∀ env env', R env env' → env.find? name = env'.find? name
  poll (pos : Pos) : P (.poll pos)

/-- `P` allows what the statements among the nodes do, too. -/
structure Allows (nodes : List Node) (R : Environment → Environment → Prop) (P : Event σ → Prop) :
    Prop extends AllowsExprs nodes R P where
  statement (line : TraceLine) : P (.statement line)
  assign {pos : Pos} {name : Text} {value : Expr} (v : Value) :
    .stmt (.assign pos name value) ∈ nodes → P (.assign name v)

variable {p : Plan σ} {nodes : List Node}

theorem call_within (hp : p.Within R P) (ha : AllowsExprs nodes R P) (pos : Pos) (name : Text)
    {c : Course σ (List Value)} (hc : c.Within R P) : (p.call pos name c).Within R P :=
  (Course.Within.happen (ha.poll pos)).bind fun _ => hc.bind fun vs => (hp name vs).mapFailure _

mutual

theorem eval_within (hp : p.Within R P) (ha : AllowsExprs nodes R P) (e : Expr) {rest : List Node}
    (hn : e.nodesOnto rest ⊆ nodes) : (p.eval e).Within R P := by
  cases e with
  | number | string =>
    unfold eval
    trivial
  | var pos name =>
    unfold eval
    refine (Course.Within.find? (ha.var (hn List.mem_cons_self))).bind fun v => ?_
    cases v <;> trivial
  | binary pos op l r | comparison pos op l r =>
    unfold eval
    have hl := List.subset_of_cons_subset hn
    have hr := l.subset_of_nodesOnto hl
    exact (eval_within hp ha l hl).bind fun a => (eval_within hp ha r hr).bind fun b => trivial
  | call pos name args =>
    unfold eval
    have hargs := evalArgs_within hp ha args (List.subset_of_cons_subset hn)
    refine (call_within hp ha pos name hargs).bind fun v => ?_
    cases v <;> trivial

theorem evalArgs_within (hp : p.Within R P) (ha : AllowsExprs nodes R P) (es : List Expr)
    {rest : List Node} (hn : Expr.nodesOntoArgs es rest ⊆ nodes) : (p.evalArgs es).Within R P := by
  cases es with
  | nil =>
    unfold evalArgs
    trivial
  | cons e es =>
    unfold evalArgs
    have hes := e.subset_of_nodesOnto hn
    exact (eval_within hp ha e hn).bind fun v => (evalArgs_within hp ha es hes).bind fun vs =>
      trivial

end

theorem condition_within (hp : p.Within R P) (ha : AllowsExprs nodes R P) (c : Condition)
    {rest : List Node} (hn : c.toExpr.nodesOnto rest ⊆ nodes) : (p.condition c).Within R P :=
  (eval_within hp ha c.toExpr hn).bind fun _ => trivial

theorem evalNode_within (hp : p.Within R P) (n : Node) (ha : AllowsExprs n.preorder R P) :
    (p.evalNode n).Within R P := by
  cases n with
  | expr e => exact eval_within hp ha e (List.Subset.refl _)
  | stmt s => trivial

mutual

theorem exec_within (hp : p.Within R P) (ha : Allows nodes R P) (s : Stmt) {rest : List Node}
    (hn : s.nodesOnto rest ⊆ nodes) : (p.exec s).Within R P := by
  cases s with
  | expr e =>
    have he := (eval_within hp ha.toAllowsExprs e hn).discard
    cases e with
    | call pos name args =>
      unfold exec
      have hargs := evalArgs_within hp ha.toAllowsExprs args (List.subset_of_cons_subset hn)
      exact (call_within hp ha.toAllowsExprs pos name hargs).discard
    | _ =>
      unfold exec
      exact he
  | assign pos name v =>
    unfold exec
    refine (eval_within hp ha.toAllowsExprs v (List.subset_of_cons_subset hn)).bind fun v => ?_
    exact .happen (ha.assign v (hn List.mem_cons_self))
  | block b =>
    unfold exec
    exact execBlock_within hp ha b hn
  | ifThen pos c t =>
    unfold exec
    have hc := List.subset_of_cons_subset hn
    refine (condition_within hp ha.toAllowsExprs c hc).bind fun holds => ?_
    cases holds with
    | true => exact execBlock_within hp ha t (c.toExpr.subset_of_nodesOnto hc)
    | false => trivial
  | ifElse pos c t e =>
    unfold exec
    have hc := List.subset_of_cons_subset hn
    have ht := c.toExpr.subset_of_nodesOnto hc
    refine (condition_within hp ha.toAllowsExprs c hc).bind fun holds => ?_
    cases holds with
    | true => exact execBlock_within hp ha t ht
    | false => exact execBlock_within hp ha e (t.subset_of_nodesOnto ht)
  | loop pos c b =>
    unfold exec
    have hc := List.subset_of_cons_subset hn
    have hb := c.toExpr.subset_of_nodesOnto hc
    have htest := (Course.Within.happen (ha.poll pos)).bind fun _ =>
      condition_within hp ha.toAllowsExprs c hc
    exact htest.repeatWhile (execBlock_within hp ha b hb) p.rounds

theorem execBlock_within (hp : p.Within R P) (ha : Allows nodes R P) (b : Block) {rest : List Node}
    (hn : b.nodesOnto rest ⊆ nodes) : (p.execBlock b).Within R P := by
  cases b with
  | mk pos ss =>
    unfold execBlock
    exact execBody_within hp ha ss (List.subset_of_cons_subset hn)

theorem execBody_within (hp : p.Within R P) (ha : Allows nodes R P) (ss : List Stmt)
    {rest : List Node} (hn : Stmt.nodesOntoBody ss rest ⊆ nodes) :
    (p.execBody ss).Within R P := by
  cases ss with
  | nil =>
    unfold execBody
    trivial
  | cons s ss =>
    unfold execBody
    have hss := s.subset_of_nodesOnto hn
    exact (Course.Within.happen (ha.statement _)).bind fun _ => (exec_within hp ha s hn).bind
      fun _ => execBody_within hp ha ss hss

end

end Plan

/-! ## Host functions within bounds -/

namespace Conduct

/-- What the conduct does not rule out is within the bounds. -/
structure Fits (c : Conduct) (R : Environment → Environment → Prop) (P : Event σ → Prop) :
    Prop where
  runs : ¬ c.runs
  reads : c.reads → ∀ env env', R env env' → env = env'
  assign : c.writes → ∀ name v, P (.assign name v)
  clear : c.writes → P .clear
  update (f : σ → σ) : P (.update f)
  call (name : Text) (args : List Value) : P (.call name args)

end Conduct

section Hosts

variable {R : Environment → Environment → Prop} {P : Event σ → Prop} {c : Conduct}

theorem Routine.KeepsTo.within (hc : c.Fits R P) {p : Plan σ} (hp : p.Within R P) {r : Routine σ}
    (h : r.KeepsTo c) : (r.course p).Within R P := by
  induction r with
  | done | fail => trivial
  | inspect next ih =>
    exact (Course.Within.environment (hc.reads h.1)).bind fun env => ih env (h.2 env)
  | assign name v next ih =>
    exact (Course.Within.happen (hc.assign h.1 name v)).bind fun _ => ih h.2
  | clear next ih => exact (Course.Within.happen (hc.clear h.1)).bind fun _ => ih h.2
  | update f next ih => exact (Course.Within.updateHost (hc.update f)).bind fun s => ih s (h s)
  | invoke name args next ih => exact (hp name args).bind fun v => ih v (h v)
  | run | eval => exact absurd h.1 hc.runs
  | recover attempt next iha ih => exact (iha h.1).attempt.bind fun r => ih r (h.2 r)

theorem Registry.KeepsTo.within (hc : c.Fits R P) {reg : Registry σ} (h : reg.KeepsTo c)
    (fuel : Nat) : (reg.plan fuel).Within R P := by
  induction fuel with
  | zero => exact fun _ _ => trivial
  | succ fuel ih =>
    -- The functions that a function calls have less fuel.
    intro name args
    refine (Course.Within.happen (hc.call name args)).bind fun _ => ?_
    cases hr : reg.resolve name args with
    | error e => trivial
    | ok routine =>
      obtain ⟨f, -, hf, rfl⟩ := resolve_eq_ok hr
      exact (h _ hf args).within hc ih

end Hosts

/-! ## Runs from two environments -/

/-- The tables bind the names in `N` to the same values, or not at all. -/
def NameTable.AgreeOn (N : Text → Prop) (t t' : NameTable α) : Prop :=
  ∀ name, N name → t.find? name = t'.find? name

theorem NameTable.AgreeOn.insert {N : Text → Prop} {t t' : NameTable α} (h : t.AgreeOn N t')
    (name : Text) (v : α) : (t.insert name v).AgreeOn N (t'.insert name v) := by
  intro other ho
  by_cases he : other = name
  · rw [he, find?_insert_self, find?_insert_self]
  · rw [find?_insert_of_ne he, find?_insert_of_ne he, h other ho]

/-- The states differ in their environments only, and these agree on `N`. -/
structure RunState.SameOn (N : Text → Prop) (s s' : RunState σ) : Prop where
  env : s.env.AgreeOn N s'.env
  rest : s' = { s with env := s'.env }

namespace RunState.SameOn

variable {N : Text → Prop} {s s' : RunState σ}

theorem note (h : s.SameOn N s') (o : Options) (e : Event σ) :
    (e.note o s).SameOn N (e.note o s') := by
  obtain ⟨he, hs⟩ := h
  generalize s'.env = env at he hs
  subst hs
  cases e with
  | assign name v => exact ⟨he.insert name v, rfl⟩
  | clear => exact ⟨fun _ _ => rfl, rfl⟩
  | update | call => exact ⟨he, rfl⟩
  | statement | poll =>
    rw [Event.note, Event.note]
    split <;> exact ⟨he, rfl⟩

theorem stop? (h : s.SameOn N s') (o : Options) (e : Event σ) : e.stop? o s' = e.stop? o s := by
  rw [h.rest]
  cases e <;> rfl

end RunState.SameOn

/-- What a course does that looks at the names in `N` only is the same in both states. -/
theorem Course.Within.run_sameOn {N : Text → Prop} {P : Event σ → Prop} {c : Course σ α}
    (hc : c.Within (NameTable.AgreeOn N) P) (o : Options) {s s' : RunState σ} (h : s.SameOn N s') :
    c.history o s' = c.history o s ∧ (c.run o s').1 = (c.run o s).1 ∧
      (c.run o s).2.SameOn N (c.run o s').2 := by
  induction c generalizing s s' with
  | done | unfinished => exact ⟨rfl, rfl, h⟩
  | look next ih =>
    have hh : s'.host = s.host := by rw [h.rest]
    simp only [Course.run, Course.history, hh, ← hc.1 s.env s'.env s.host h.env]
    exact ih _ _ (hc.2 _ _) h
  | act e next ih =>
    have hn := h.note o e
    simp only [Course.run, Course.history, hn.stop? o e]
    obtain ⟨hh, hr⟩ := ih (e.stop? o (e.note o s)) (hc.2 _) hn
    exact ⟨congrArg (e :: ·) hh, hr⟩

/-- A variable of the name stands in the tree. -/
def Node.Mentions (n : Node) (name : Text) : Prop := ∃ pos, .expr (.var pos name) ∈ n.preorder

/-- Host functions that neither look at the environment nor change it, and run no programs. -/
def Conduct.secluded : Conduct where
  results _ := True
  failures _ := True
  reads := False
  writes := False
  runs := False

theorem Conduct.secluded_fits {R : Environment → Environment → Prop} :
    Conduct.secluded.Fits R fun e : Event σ => e.isClear = false where
  runs h := h
  reads h := h.elim
  assign h := h.elim
  clear h := h.elim
  update _ := rfl
  call _ _ := rfl

namespace Job

/-- With fuel enough, the run ends. -/
def Ends (p : Job σ α) (o : Options) (s : RunState σ) : Prop :=
  ∃ fuel, ((p.run o fuel).run s).1 ≠ .error .unfinished

/-- The run assigns to the name. -/
def Assigns (p : Job σ α) (o : Options) (fuel : Nat) (s : RunState σ) (name : Text) : Prop :=
  ∃ v, .assign name v ∈ (p.course fuel).history o s

/-- What comes of a run, from an environment and from another: the same but for names that the run
has nothing to do with. -/
structure Coincides (p : Job σ α) (N : Text → Prop) (o : Options) (fuel : Nat) (s s' : RunState σ)
    (r r' : Except Stop α × RunState σ) : Prop where
  result : r.1 = r'.1
  host : r.2.host = r'.2.host
  calls : r.2.calls = r'.2.calls
  polls : r.2.polls = r'.2.polls
  trace : r.2.trace = r'.2.trace
  bound (name : Text) : p.Assigns o fuel s name ∨ N name ∧ s.env.contains name →
    ∃ v, r.2.env.find? name = some v ∧ r'.2.env.find? name = some v
  kept (name : Text) : ¬ (p.Assigns o fuel s name ∨ N name ∧ s.env.contains name) →
    r.2.env.find? name = s.env.find? name ∧ r'.2.env.find? name = s'.env.find? name

theorem assigns_iff {p : Job σ α} {o : Options} {fuel : Nat} {s : RunState σ} {name : Text} :
    p.Assigns o fuel s name ↔
      name ∈ (((p.course fuel).history o s).filterMap Event.assigned?).map Prod.fst := by
  simp only [Assigns, List.mem_map, List.mem_filterMap]
  constructor
  · rintro ⟨v, he⟩
    exact ⟨(name, v), ⟨_, he, rfl⟩, rfl⟩
  · rintro ⟨⟨_, v⟩, ⟨e, he, hv⟩, rfl⟩
    cases e with
    | assign => cases hv; exact ⟨v, he⟩
    | _ => cases hv

theorem coincides {p : Job σ α} {N : Text → Prop} {o : Options} {fuel : Nat} {s s' : RunState σ}
    (hw : (p.course fuel).Within (NameTable.AgreeOn N) (·.isClear = false)) (h : s.SameOn N s') :
    p.Coincides N o fuel s s' ((p.run o fuel).run s) ((p.run o fuel).run s') := by
  obtain ⟨hh, hr, hs⟩ := hw.run_sameOn o h
  -- Both environments are changed by the same assignments.
  have henv := hw.env_run o s
  have henv' := hw.env_run o s'
  rw [hh] at henv'
  rw [p.follows, p.follows]
  refine ⟨hr.symm, by rw [hs.rest], by rw [hs.rest], by rw [hs.rest], by rw [hs.rest], ?_, ?_⟩
  · intro name hname
    rw [henv, henv']
    by_cases ha : p.Assigns o fuel s name
    · obtain ⟨v, hv⟩ := NameTable.find?_insertAll_of_mem (assigns_iff.mp ha)
      exact ⟨v, hv _, hv _⟩
    · obtain ⟨hN, hb⟩ := hname.resolve_left ha
      obtain ⟨v, hv⟩ := Option.isSome_iff_exists.mp hb
      rw [assigns_iff] at ha
      rw [NameTable.find?_insertAll_of_notMem ha, NameTable.find?_insertAll_of_notMem ha,
        ← h.env name hN]
      exact ⟨v, hv, hv⟩
  · intro name hname
    have ha := mt assigns_iff.mpr fun ha => hname (.inl ha)
    rw [henv, henv']
    exact ⟨NameTable.find?_insertAll_of_notMem ha, NameTable.find?_insertAll_of_notMem ha⟩

/-- From two environments that agree on `N`, both runs end or neither does, and with any fuel the
same comes of the two. -/
structure DecidedBy (p : Job σ α) (N : Text → Prop) (o : Options) (s : RunState σ)
    (env : Environment) : Prop where
  ends : p.Ends o s ↔ p.Ends o { s with env }
  coincides (fuel : Nat) : p.Coincides N o fuel s { s with env } ((p.run o fuel).run s)
    ((p.run o fuel).run { s with env })

theorem decidedBy {p : Job σ α} {N : Text → Prop} {s : RunState σ} {env : Environment}
    (hw : ∀ fuel, (p.course fuel).Within (NameTable.AgreeOn N) (·.isClear = false)) (o : Options)
    (h : s.env.AgreeOn N env) : p.DecidedBy N o s env := by
  have hs : s.SameOn N { s with env } := ⟨h, rfl⟩
  refine ⟨?_, fun fuel => coincides (hw fuel) hs⟩
  simp only [Ends, (coincides (hw _) hs).result]

end Job

/-- What a program or an expression does depends on the variables that stand in it and on no
others. -/
theorem named_variables_decide {reg : Registry σ} (hr : reg.KeepsTo .secluded) (o : Options)
    (s : RunState σ) (env : Environment) :
    (∀ b : Block, s.env.AgreeOn b.toNode.Mentions env →
      (reg.executing b).DecidedBy b.toNode.Mentions o s env) ∧
    ∀ n : Node, s.env.AgreeOn n.Mentions env →
      (reg.evaluating n).DecidedBy n.Mentions o s env := by
  have hvars (n : Node) : Plan.AllowsExprs n.preorder (NameTable.AgreeOn n.Mentions)
      fun e : Event σ => e.isClear = false :=
    ⟨fun hn _ _ h => h _ ⟨_, hn⟩, fun _ => rfl⟩
  constructor
  · intro b h
    refine Job.decidedBy (fun fuel => ?_) o h
    exact Plan.execBlock_within (hr.within Conduct.secluded_fits fuel)
      ⟨hvars b.toNode, fun _ => rfl, fun _ _ => rfl⟩ b (List.Subset.refl _)
  · intro n h
    refine Job.decidedBy (fun fuel => ?_) o h
    exact Plan.evalNode_within (hr.within Conduct.secluded_fits fuel) n (hvars n)

/-- A variable that no one looks at, bound on one side only. -/
theorem named_variables_decide_sum :
    let reg : Registry Nat :=
      ⟨[(Text.ascii "f", ⟨some 1, fun _ => .update (· + 1) fun _ => .done none⟩)]⟩
    let b : Block := .mk Pos.unset
      [.assign Pos.unset (Text.ascii "y") (.var Pos.unset (Text.ascii "x")),
        .expr (.call Pos.unset (Text.ascii "f") [.var Pos.unset (Text.ascii "y")])]
    let env := NameTable.empty.insert (Text.ascii "x") (Value.boolean true)
    let env' := env.insert (Text.ascii "z") (Value.boolean false)
    reg.KeepsTo .secluded ∧ env.AgreeOn b.toNode.Mentions env' ∧
      (reg.executing b).DecidedBy b.toNode.Mentions ⟨some (.after 2), true⟩ (.start env 0)
        env' := by
  intro reg b env env'
  have hr : reg.KeepsTo .secluded := by
    intro e he args
    cases List.mem_singleton.mp he
    exact fun _ => trivial
  have hagree : env.AgreeOn b.toNode.Mentions env' := by
    rintro name ⟨pos, hname⟩
    refine (NameTable.find?_insert_of_ne ?_ env _).symm
    rintro rfl
    simp [b, Block.toNode, Node.preorder, Stmt.nodesOnto, Block.nodesOnto, Stmt.nodesOntoBody,
      Expr.nodesOnto, Expr.nodesOntoArgs] at hname
    rcases hname with ⟨-, h⟩ | ⟨-, h⟩ <;> exact absurd h (by decide)
  exact ⟨hr, hagree, (named_variables_decide hr _ (.start env 0) env').1 b hagree⟩

end ScriptEngine
