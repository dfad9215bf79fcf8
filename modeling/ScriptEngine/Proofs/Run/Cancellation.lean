import ScriptEngine.Proofs.Host.Conduct
import ScriptEngine.Proofs.Run.Fuel

/-!
# Cancellation

Where the host functions let cancellations through (`Registry.LetsThrough`), a cancel hook does
nothing to a run but end it. If the hook lets a run go on `n` times, then either the run asks it no
more than `n` times and is the run without a hook, or it ends with the question that comes next,
having done what every other run does up to there (`cancel_cuts`).

Two runs of one course are in lock step as long as neither is cancelled; all that may tell them
apart is how many questions they have counted (`RunState.Trails`).
-/

namespace ScriptEngine

variable {σ α β : Type}

/-! ## Letting cancellations through -/

namespace Course

/-- A cancellation ends the course, there and then. -/
def Yields : Course σ α → Prop
  | done _ | unfinished => True
  | look next => ∀ env host, (next env host).Yields
  | act _ next => (next none).Yields ∧
      ∀ pos, next (some (.error (.of .cancelled pos))) = fail (.error (.of .cancelled pos))

namespace Yields

theorem happen (e : Event σ) : (Course.happen e).Yields := ⟨trivial, fun _ => rfl⟩

theorem andThen {c : Course σ α} {k : Except Failure α → Course σ β} (hc : c.Yields)
    (hk : ∀ r, (k r).Yields)
    (hcancel : ∀ pos, k (.error (.error (.of .cancelled pos))) = fail (.error (.of .cancelled pos))) :
    (c.andThen k).Yields := by
  induction c with
  | done r => exact hk r
  | unfinished => trivial
  | look next ih => exact fun env host => ih env host (hc env host)
  | act e next ih =>
    refine ⟨ih none hc.1, fun pos => ?_⟩
    show (next _).andThen k = _
    rw [hc.2 pos]
    exact hcancel pos

theorem bind {c : Course σ α} {f : α → Course σ β} (hc : c.Yields) (hf : ∀ a, (f a).Yields) :
    (c >>= f).Yields := by
  refine hc.andThen (fun r => ?_) fun _ => rfl
  cases r with
  | ok a => exact hf a
  | error e => trivial

theorem repeatWhile {test : Course σ Bool} {body : Course σ Unit} (ht : test.Yields)
    (hb : body.Yields) (n : Nat) : (Course.repeatWhile test body n).Yields := by
  induction n with
  | zero => trivial
  | succ n ih =>
    refine ht.bind fun again => ?_
    cases again with
    | false => trivial
    | true => exact hb.bind fun _ => ih

theorem closed : @Closed σ (fun c _ => c.Yields) fun _ _ => True where
  done _ := trivial
  environment _ _ := trivial
  happen := happen
  bind := bind
  locate _ hc := hc.andThen (fun _ => trivial) fun _ => rfl
  repeatWhile ht hb _ := ht.repeatWhile hb _

end Yields

end Course

/-- The routine may recover from failures, but hands a cancellation on at once. -/
def Routine.LetsThrough : Routine σ → Prop
  | done _ | fail _ => True
  | inspect next => ∀ env, (next env).LetsThrough
  | assign _ _ next | clear next | run _ next => next.LetsThrough
  | update _ next => ∀ s, (next s).LetsThrough
  | invoke _ _ next => ∀ v, (next v).LetsThrough
  | eval _ next => ∀ v, (next v).LetsThrough
  | recover attempt next => attempt.LetsThrough ∧ (∀ r, (next r).LetsThrough) ∧
      ∀ pos, next (.error (.error (.of .cancelled pos))) = .fail (.error (.of .cancelled pos))

theorem Routine.course_yields {p : Plan σ} (hp : ∀ name args, (p.invoke name args).Yields)
    {r : Routine σ} (h : r.LetsThrough) : (r.course p).Yields := by
  have hplan : p.Related (fun c _ => c.Yields) (fun _ _ => True) p := ⟨hp, trivial⟩
  induction r with
  | done | fail => trivial
  | inspect next ih => exact fun env _ => ih env (h env)
  | assign _ _ next ih | clear next ih => exact (Course.Yields.happen _).bind fun _ => ih h
  | update f next ih =>
    refine Course.Yields.bind ((Course.Yields.happen _).bind fun _ => ?_) fun s => ih s (h s)
    exact fun _ _ => trivial
  | invoke name args next ih => exact (hp name args).bind fun v => ih v (h v)
  | run b next ih => exact (Course.Yields.closed.execBlock hplan b).bind fun _ => ih h
  | eval n next ih => exact (Course.Yields.closed.evalNode hplan n).bind fun v => ih v (h v)
  | recover attempt next iha ih =>
    rw [course, Course.attempt_bind]
    refine (iha h.1).andThen (fun r => ih r (h.2.1 r)) fun pos => ?_
    rw [h.2.2 pos]
    rfl

namespace Registry

def LetsThrough (reg : Registry σ) : Prop :=
  ∀ e ∈ reg.entries, ∀ args, (e.2.body args).LetsThrough

theorem LetsThrough.course {reg : Registry σ} (h : reg.LetsThrough) (fuel : Nat) :
    ∀ name args, (reg.course fuel name args).Yields := by
  induction fuel with
  | zero => exact fun _ _ => trivial
  | succ fuel ih =>
    intro name args
    refine (Course.Yields.happen _).bind fun _ => ?_
    cases hr : reg.resolve name args with
    | error e => trivial
    | ok routine =>
      obtain ⟨f, -, hmem, rfl⟩ := resolve_eq_ok hr
      exact Routine.course_yields ih (h _ hmem args)

theorem LetsThrough.plan {reg : Registry σ} (h : reg.LetsThrough) (fuel : Nat) :
    (reg.plan fuel).Related (fun c _ => c.Yields) (fun _ _ => True) (reg.plan fuel) :=
  ⟨h.course fuel, trivial⟩

end Registry

/-! ## Lock step -/

/-- The states differ in the number of polls only, of which the first has no more. -/
structure RunState.Trails (s' s : RunState σ) : Prop where
  same : s' = { s with polls := s'.polls }
  polls : s'.polls ≤ s.polls

namespace Event

variable {o o' : Options} {n : Nat} {s s' : RunState σ} {e : Event σ}

theorem note_trails (ho : o.cancel.isSome = true) (ht : o'.trace = o.trace) (h : s'.Trails s)
    (e : Event σ) : (e.note o' s').Trails (e.note o s) := by
  obtain ⟨hs, hp⟩ := h
  generalize s'.polls = q at hs hp
  subst hs
  cases e with
  | statement line =>
    rw [note, note, ht]
    split <;> exact ⟨rfl, hp⟩
  | poll pos =>
    rw [note, note, if_pos ho]
    split
    · exact ⟨rfl, Nat.succ_le_succ hp⟩
    · exact ⟨rfl, Nat.le_succ_of_le hp⟩
  | _ => exact ⟨rfl, hp⟩

theorem stop?_eq_none (ho : ∀ k ≤ n, o.cancel.any (· k) = false) (hn : s.polls ≤ n)
    (e : Event σ) : e.stop? o s = none := by
  cases e with
  | poll pos => rw [stop?, ho _ hn]; rfl
  | _ => rfl

/-- A hook that lets a run go on `n` times stops it with the poll after these. -/
theorem stop?_after (ho : o.cancel = some (.after n)) (hn : s.polls ≤ n) :
    match e.stop? o (e.note o s) with
    | some f => ∃ pos, e = .poll pos ∧ f = .error (.of .cancelled pos) ∧ (e.note o s).polls = n + 1
    | none => (e.note o s).polls ≤ n := by
  cases e with
  | poll pos =>
    have hp : ((poll pos).note o s).polls = s.polls + 1 := by simp [note, ho]
    rw [stop?, ho, hp]
    by_cases hf : n < s.polls + 1
    · rw [if_pos (by simpa [CancelHook.after] using hf)]
      exact ⟨pos, rfl, rfl, by omega⟩
    · rw [if_neg (by simpa [CancelHook.after] using hf)]
      exact Nat.not_lt.mp hf
  | statement line =>
    show ((statement line).note o s).polls ≤ n
    rw [note]
    split <;> exact hn
  | _ => exact hn

end Event

/-- Either nothing stops the first run and the second is in step with it to the end, or the first is
cancelled, and up to there they were in step. -/
theorem Course.cut_or_same {o o' : Options} {n : Nat} (ho : o.cancel = some (.after n))
    (ht : o'.trace = o.trace) (hk : ∀ k ≤ n, o'.cancel.any (· k) = false) {c : Course σ α}
    (hc : c.Yields) {s s' : RunState σ} (hs : s'.Trails s) (hn : s.polls ≤ n) :
    ((c.run o s).2.polls ≤ n ∧ c.history o' s' = c.history o s ∧
      (c.run o' s').1 = (c.run o s).1 ∧ (c.run o' s').2.Trails (c.run o s).2) ∨
    ∃ es pos, c.history o s = es ++ [.poll pos] ∧ c.history o s <+: c.history o' s' ∧
      (c.run o s).1 = .error (.failed (.error (.of .cancelled pos))) ∧
      (c.run o s).2.polls = n + 1 := by
  induction c generalizing s s' with
  | done | unfinished => exact .inl ⟨hn, rfl, rfl, hs⟩
  | look next ih =>
    have he : s'.env = s.env := by rw [hs.same]
    have hh : s'.host = s.host := by rw [hs.same]
    simp only [run, history, he, hh]
    exact ih _ _ (hc _ _) hs hn
  | act e next ih =>
    have hs' : (e.note o' s').Trails (e.note o s) := e.note_trails (by rw [ho]; rfl) ht hs
    have he := Event.stop?_after (e := e) ho hn
    simp only [run, history]
    cases hstop : e.stop? o (e.note o s) with
    | some f =>
      rw [hstop] at he
      obtain ⟨pos, rfl, rfl, hp⟩ := he
      rw [hc.2 pos]
      exact .inr ⟨[], pos, rfl, (List.prefix_cons_inj _).mpr List.nil_prefix, rfl, hp⟩
    | none =>
      rw [hstop] at he
      rw [e.stop?_eq_none hk (Nat.le_trans hs'.polls he)]
      rcases ih none hc.1 hs' he with ⟨hp, hh, h⟩ | ⟨es, pos, hh, hp, hr, hq⟩
      · exact .inl ⟨hp, congrArg (e :: ·) hh, h⟩
      · refine .inr ⟨e :: es, pos, ?_, (List.prefix_cons_inj _).mpr hp, hr, hq⟩
        exact congrArg (e :: ·) hh

/-! ## Jobs -/

/-- A program or an expression, as it runs with some host functions under any options and with any
fuel. -/
structure Job (σ α : Type) where
  run : Options → Nat → Run σ α
  course : Nat → Course σ α
  follows (o : Options) (fuel : Nat) : (run o fuel).Follows o (course fuel)
  begins {fuel fuel' : Nat} : fuel ≤ fuel' → (course fuel).Begins (course fuel')

def Registry.executing (reg : Registry σ) (b : Block) : Job σ Unit where
  run o fuel := (reg.interpreter o fuel).execBlock b
  course fuel := (reg.plan fuel).execBlock b
  follows o fuel := Interpreter.execBlock_follows (reg.interpreter_follows o fuel) b
  begins h := Plan.execBlock_begins (reg.plan_begins h) b

def Registry.evaluating (reg : Registry σ) (n : Node) : Job σ Value where
  run o fuel := (reg.interpreter o fuel).evalNode n
  course fuel := (reg.plan fuel).evalNode n
  follows o fuel := Interpreter.evalNode_follows (reg.interpreter_follows o fuel) n
  begins h := Plan.evalNode_begins (reg.plan_begins h) n

/-- How a run ends, the state it leaves, and what happened on the way. -/
@[ext] structure Chronicle (σ α : Type) where
  result : Except Stop α
  state : RunState σ
  events : List (Event σ)

/-- The second run does what the first does, and maybe more. -/
structure Chronicle.Extends (r r' : Chronicle σ α) : Prop where
  calls : r.state.calls.toList <+: r'.state.calls.toList
  trace : r.state.trace.toList <+: r'.state.trace.toList
  events : r.events <+: r'.events

/-- No hook, or one that lets a run go on `n` times at least. -/
inductive CancelHook.Outlasts (n : Nat) : Option CancelHook → Prop where
  | none : Outlasts n none
  | after {m : Nat} : n ≤ m → Outlasts n (some (.after m))

theorem CancelHook.Outlasts.any_eq_false {n : Nat} {hook : Option CancelHook}
    (h : Outlasts n hook) : ∀ k ≤ n, hook.any (· k) = false := by
  intro k hk
  cases h with
  | none => rfl
  | after hm =>
    have : ¬ _ < k := Nat.not_lt.mpr (Nat.le_trans hk hm)
    simpa [CancelHook.after] using this

namespace Job

variable (p : Job σ α) (trace : Bool) (s : RunState σ)

/-- A run from a state in which nothing has been polled. -/
def chronicle (hook : Option CancelHook) (fuel : Nat) : Chronicle σ α :=
  let r := (p.run ⟨hook, trace⟩ fuel).run { s with polls := 0 }
  ⟨r.1, r.2, (p.course fuel).history ⟨hook, trace⟩ { s with polls := 0 }⟩

/-- What becomes of a run that is to be cancelled after `n` polls. -/
structure CutAfter (n fuel : Nat) : Prop where
  /-- A run that has ended is the same with more fuel. -/
  settled (hook : Option CancelHook) (fuel' : Nat) : fuel ≤ fuel' →
    (p.chronicle trace s hook fuel).result ≠ .error .unfinished →
    p.chronicle trace s hook fuel' = p.chronicle trace s hook fuel
  /-- The hook makes no difference, or the run ends with the question after the first `n`. -/
  cut :
    let r := p.chronicle trace s (some (.after n)) fuel
    (r.state.polls ≤ n ∧ p.chronicle trace s none fuel = { r with state.polls := 0 }) ∨
    ∃ before pos,
      r.result = .error (.failed (.error (.of .cancelled pos))) ∧ r.state.polls = n + 1 ∧
      r.events = before ++ [.poll pos] ∧
      r.state = RunState.replay ⟨some (.after n), trace⟩ { s with polls := 0 } r.events ∧
      ∀ hook fuel', CancelHook.Outlasts n hook → fuel ≤ fuel' →
        r.Extends (p.chronicle trace s hook fuel')

variable {p trace s} {hook : Option CancelHook} {fuel fuel' : Nat}

theorem chronicle_eq :
    p.chronicle trace s hook fuel =
      ⟨((p.course fuel).run ⟨hook, trace⟩ { s with polls := 0 }).1,
        ((p.course fuel).run ⟨hook, trace⟩ { s with polls := 0 }).2,
        (p.course fuel).history ⟨hook, trace⟩ { s with polls := 0 }⟩ := by
  rw [chronicle, p.follows]

theorem state_chronicle :
    (p.chronicle trace s hook fuel).state =
      RunState.replay ⟨hook, trace⟩ { s with polls := 0 }
        (p.chronicle trace s hook fuel).events := by
  rw [chronicle_eq]
  exact Course.run_state _ _ _

theorem polls_chronicle_none : (p.chronicle trace s none fuel).state.polls = 0 := by
  rw [state_chronicle, RunState.replay_polls]
  rfl

theorem chronicle_of_le (hf : fuel ≤ fuel')
    (hr : (p.chronicle trace s hook fuel).result ≠ .error .unfinished) :
    p.chronicle trace s hook fuel' = p.chronicle trace s hook fuel := by
  rw [chronicle_eq] at hr ⊢
  obtain ⟨hrun, hh⟩ := (p.begins hf).run _ _ hr
  rw [chronicle_eq, hrun, hh]

theorem extends_of_events {hook' : Option CancelHook}
    (h : (p.chronicle trace s hook fuel).events <+: (p.chronicle trace s hook' fuel').events) :
    (p.chronicle trace s hook fuel).Extends (p.chronicle trace s hook' fuel') := by
  refine ⟨?_, ?_, h⟩
  · rw [state_chronicle, state_chronicle, RunState.replay_calls, RunState.replay_calls]
    exact (List.prefix_append_right_inj _).mpr (h.filterMap _)
  · rw [state_chronicle, state_chronicle, RunState.replay_trace, RunState.replay_trace]
    exact (List.prefix_append_right_inj _).mpr (h.filterMap _)

/-- A run that is to be cancelled after `n` polls beside one that goes on as long at least. -/
theorem chronicle_lockstep (hp : (p.course fuel).Yields) (trace : Bool) (s : RunState σ) {n : Nat}
    (h : CancelHook.Outlasts n hook) :
    let r := p.chronicle trace s (some (.after n)) fuel
    let r' := p.chronicle trace s hook fuel
    (r.state.polls ≤ n ∧ r'.events = r.events ∧ r'.result = r.result ∧ r'.state.Trails r.state) ∨
    ∃ before pos, r.events = before ++ [.poll pos] ∧ r.events <+: r'.events ∧
      r.result = .error (.failed (.error (.of .cancelled pos))) ∧ r.state.polls = n + 1 := by
  have ht : (Options.mk hook trace).trace = (Options.mk (some (.after n)) trace).trace := rfl
  have hs : ({ s with polls := 0 } : RunState σ).Trails { s with polls := 0 } :=
    ⟨rfl, Nat.le_refl 0⟩
  simp only [chronicle_eq]
  exact Course.cut_or_same rfl ht h.any_eq_false hp hs (Nat.zero_le n)

/-- Without a hook, nothing is changed but the count of polls. -/
theorem chronicle_none_eq {r : Chronicle σ α}
    (he : (p.chronicle trace s none fuel).events = r.events)
    (hr : (p.chronicle trace s none fuel).result = r.result)
    (hs : (p.chronicle trace s none fuel).state.Trails r.state) :
    p.chronicle trace s none fuel = { r with state.polls := 0 } := by
  have h := hs.same
  rw [polls_chronicle_none] at h
  exact Chronicle.ext hr h he

theorem cutAfter (hy : (p.course fuel).Yields) (trace : Bool) (s : RunState σ) (n : Nat) :
    p.CutAfter trace s n fuel := by
  refine ⟨fun hook fuel' hle hr => chronicle_of_le hle hr, ?_⟩
  rcases chronicle_lockstep hy trace s .none with ⟨hp, he, hr, hs⟩ | ⟨es, pos, he, -, hr, hp⟩
  · exact .inl ⟨hp, chronicle_none_eq he hr hs⟩
  · refine .inr ⟨es, pos, hr, hp, he, state_chronicle, fun hook fuel' hh hle => ?_⟩
    apply extends_of_events
    have hle : (p.chronicle trace s hook fuel).events <+: (p.chronicle trace s hook fuel').events :=
      (p.begins hle).history _ _
    rcases chronicle_lockstep hy trace s hh with ⟨hp', -⟩ | ⟨-, -, -, he', -⟩
    · omega
    · exact he'.trans hle

end Job

/-- Whatever the tree, the state and the host functions that let cancellations through, and however
often the hook lets it go on, a run is cut once or not at all. -/
theorem cancel_cuts {reg : Registry σ} (h : reg.LetsThrough) (trace : Bool) (s : RunState σ)
    (n fuel : Nat) :
    (∀ b, (reg.executing b).CutAfter trace s n fuel) ∧
    ∀ node, (reg.evaluating node).CutAfter trace s n fuel :=
  ⟨fun b => Job.cutAfter (Course.Yields.closed.execBlock (h.plan fuel) b) trace s n,
    fun node => Job.cutAfter (Course.Yields.closed.evalNode (h.plan fuel) node) trace s n⟩

/-- A loop whose body calls a function that runs the loop again, and recovers from all failures but
cancellations. -/
theorem cancel_cuts_reentrant :
    let loop : Block := .mk .unset [.loop .unset
      ⟨.unset, .less, .number .unset (.ofNat 0), .number .unset (.ofNat 1)⟩
      (.mk .unset [.expr (.call .unset (Text.ascii "again") [])])]
    let body : Routine Unit := .recover (.run loop (.done none)) fun
      | .error (.error e) => if e.cause = .cancelled then .fail (.error e) else .done none
      | _ => .done none
    let reg : Registry Unit := ⟨[(Text.ascii "again", ⟨some 0, fun _ => body⟩)]⟩
    let r := (reg.executing loop).chronicle true (.start .empty ()) (some (.after 5)) 9
    reg.LetsThrough ∧ (reg.executing loop).CutAfter true (.start .empty ()) 5 9 ∧
    r.state.polls = 6 := by
  intro loop body reg
  have hreg : reg.LetsThrough := by
    intro e he args
    cases List.mem_singleton.mp he
    refine ⟨trivial, fun r => ?_, fun _ => rfl⟩
    rcases r with (e | _ | _ | _) | _
    · show (if e.cause = .cancelled then Routine.fail (.error e) else .done none).LetsThrough
      split <;> trivial
    all_goals trivial
  exact ⟨hreg, (cancel_cuts hreg true _ 5 9).1 loop, by decide +kernel⟩

end ScriptEngine
