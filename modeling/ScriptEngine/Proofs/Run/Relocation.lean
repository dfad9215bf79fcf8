import ScriptEngine.Proofs.Run.Footprint
import ScriptEngine.Proofs.Run.Visits
import ScriptEngine.Proofs.Tree.Positions

/-!
# Programs at other places

Where a program stands decides nothing but the positions it reports. A run of a program at any places
is told by one `Account`, in which the positions are marked: those of the program itself, which
go with it, and those that host functions bring in, which do not. Filled in with the places, the
account is the run (`Interpreter.execBlock_narrates`).

Which positions are which follows from what the run comes to (`Interpreter.blockPassages`): the
statements of the program have lines of its own, and all other lines are left by the functions that
it invokes. An error has a position from elsewhere only if an invocation has failed with it
(`Interpreter.Covers`). So a program whose functions run no programs and raise no errors with positions
reports no places but its own (`Interpreter.Covers.isOwn`), and moves as a whole (`Account.IsOwn.fill_eq`).
-/

namespace ScriptEngine

variable {σ α β : Type}

/-! ## Passages -/

/-- What a run comes to that may leave lines in the trace. -/
inductive Passage (σ : Type) where
  /-- A statement of the program. -/
  | statement (st : Stmt)
  /-- The function of a call is about to be invoked, with the values of the arguments. -/
  | invocation (pos : Pos) (name : Text) (values : List Value) (state : RunState σ)

namespace Interpreter

variable (it : Interpreter σ)

mutual

def exprPassages : Expr → RunState σ → List (Passage σ)
  | .number _ _, _ | .string _ _, _ | .var _ _, _ => []
  | .binary _ _ l r, s | .comparison _ _ l r, s =>
    exprPassages l s ++ (it.eval l).after s fun _ s' => exprPassages r s'
  | .call pos name args, s => (it.poll pos).after s fun _ s' =>
    argPassages args s' ++ (it.evalArgs args).after s' fun vs s'' =>
      [.invocation pos name vs s'']

def argPassages : List Expr → RunState σ → List (Passage σ)
  | [], _ => []
  | e :: es, s => exprPassages e s ++ (it.eval e).after s fun _ s' => argPassages es s'

end

/-- The passages of a loop, given those of its test and of its body. -/
def roundPassages (test : Run σ Bool) (body : Run σ Unit) (v w : RunState σ → List (Passage σ)) :
    Nat → RunState σ → List (Passage σ)
  | 0, _ => []
  | n + 1, s => v s ++ test.after s fun again s' =>
    if again then w s' ++ body.after s' fun _ s'' => roundPassages test body v w n s'' else []

mutual

def stmtPassages : Stmt → RunState σ → List (Passage σ)
  | .expr e, s => it.exprPassages e s
  | .assign _ _ value, s => it.exprPassages value s
  | .block b, s => blockPassages b s
  | .ifThen _ c t, s => it.exprPassages c.toExpr s ++
    (it.condition c).after s fun holds s' => if holds then blockPassages t s' else []
  | .ifElse _ c t e, s => it.exprPassages c.toExpr s ++
    (it.condition c).after s fun holds s' =>
      if holds then blockPassages t s' else blockPassages e s'
  | .loop pos c body, s =>
    roundPassages (do it.poll pos; it.condition c) (it.execBlock body)
      (fun s => (it.poll pos).after s fun _ s' => it.exprPassages c.toExpr s')
      (fun s => blockPassages body s) it.rounds s

def blockPassages : Block → RunState σ → List (Passage σ)
  | .mk _ ss, s => bodyPassages ss s

def bodyPassages : List Stmt → RunState σ → List (Passage σ)
  | [], _ => []
  | st :: ss, s => .statement st :: (it.traceStatement st).after s fun _ s' =>
    stmtPassages st s' ++ (it.exec st).after s' fun _ s'' => bodyPassages ss s''

end

end Interpreter

/-! ## Accounts -/

/-- A position of the program, or one from elsewhere. -/
inductive Spot where
  | own (p : Pos)
  | foreign (p : Pos)

/-- The position, with those of the program put elsewhere. -/
def Spot.fill (g : Pos → Pos) : Spot → Pos
  | own p => g p
  | foreign p => p

structure MarkedLine where
  spot : Spot
  action : Action

def MarkedLine.fill (g : Pos → Pos) (l : MarkedLine) : TraceLine := ⟨l.spot.fill g, l.action⟩

/-- Only errors have positions. -/
def Stop.isError : Stop → Bool
  | .failed (.error _) => true
  | _ => false

inductive MarkedStop where
  | error (cause : Cause) (spot : Spot)
  /-- Without a position. -/
  | other (stop : Stop) (h : stop.isError = false)

def MarkedStop.fill (g : Pos → Pos) : MarkedStop → Stop
  | error cause spot => .failed (.error (.of cause (spot.fill g)))
  | other stop _ => stop

/-- What comes of a run: its result, the state it leaves, and the lines it adds to the trace. -/
structure Account (σ α : Type) where
  result : Except MarkedStop α
  env : Environment
  host : σ
  calls : Array CallRecord
  lines : List MarkedLine
  polls : Nat

/-- The account with the places filled in, for a run that starts with `trace` in its trace. -/
def Account.fill (g : Pos → Pos) (trace : Array TraceLine) (a : Account σ α) :
    Except Stop α × RunState σ :=
  (a.result.mapError (·.fill g),
    ⟨a.env, a.host, a.calls, trace ++ (a.lines.map (·.fill g)).toArray, a.polls⟩)

/-! ## What host functions do -/

theorem Event.note_onto (o : Options) (s : RunState σ) (trace : Array TraceLine) (e : Event σ) :
    e.note o { s with trace } =
      { e.note o s with trace := trace ++ (e.line? o).toList.toArray } := by
  cases e with
  | statement line => cases h : o.trace <;> simp [note, line?, h]
  | poll => cases h : o.cancel.isSome <;> simp [note, line?, h]
  | _ => simp [note, line?]

theorem Event.stop?_onto (o : Options) (s : RunState σ) (trace : Array TraceLine) (e : Event σ) :
    e.stop? o { s with trace } = e.stop? o s := by
  cases e <;> rfl

/-- Lines are added to a trace, whatever it holds. -/
theorem Course.run_onto (o : Options) (c : Course σ α) (s : RunState σ) :
    ∃ (r : Except Stop α) (s' : RunState σ) (lines : List TraceLine), ∀ trace,
      c.run o { s with trace } = (r, { s' with trace := trace ++ lines.toArray }) := by
  induction c generalizing s with
  | done r => exact ⟨r.mapError .failed, s, [], fun trace => by simp [run]⟩
  | unfinished => exact ⟨.error .unfinished, s, [], fun trace => by simp [run]⟩
  | look next ih => exact ih s.env s.host s
  | act e next ih =>
    obtain ⟨r, s', lines, h⟩ := ih (e.stop? o (e.note o s)) (e.note o s)
    refine ⟨r, s', (e.line? o).toList ++ lines, fun trace => ?_⟩
    rw [run, Event.note_onto, Event.stop?_onto]
    simp only [h, Array.append_assoc, List.append_toArray]

/-- A stop none of whose positions is the program's. -/
def Stop.foreign : Stop → MarkedStop
  | .failed (.error e) => .error e.cause (.foreign e.pos)
  | .failed (.invalidOperator use op) => .other (.failed (.invalidOperator use op)) rfl
  | .failed .noValue => .other (.failed .noValue) rfl
  | .failed (.host m) => .other (.failed (.host m)) rfl
  | .unfinished => .other .unfinished rfl

/-- An error of a call comes from the call if it has no other position. -/
def Stop.located (p : Pos) : Stop → MarkedStop
  | .failed (.error { cause := .invocation r f t, pos := q, .. }) =>
    .error (.invocation r f t) (if q.isSet then .foreign q else .own p)
  | s => s.foreign

theorem Stop.fill_located (g : Pos → Pos) (p : Pos) (s : Stop) :
    (s.located p).fill g = match s with
      | .failed f => .failed (f.locate (g p))
      | .unfinished => .unfinished := by
  rcases s with (⟨cause, q, _, rfl⟩ | _ | _ | _) | _
  case failed.error =>
    cases cause with
    | invocation r f t =>
      cases hq : q.isSet <;>
        simp [located, MarkedStop.fill, Spot.fill, Failure.locate, Error.locate, hq] <;> rfl
    | _ => rfl
  all_goals rfl

/-- A position from elsewhere is that of the error as it came. -/
theorem Stop.eq_of_located {p q : Pos} {s : Stop} {cause : Cause}
    (h : s.located p = .error cause (.foreign q)) :
    s = .failed (.error (.of cause q)) ∧
      (Failure.isInvocation (.error (.of cause q)) = true → q.isSet = true) := by
  rcases s with (⟨cause', q', _, rfl⟩ | _ | _ | _) | _
  case failed.error =>
    cases cause' with
    | invocation r f t =>
      rw [located, MarkedStop.error.injEq] at h
      obtain ⟨rfl, h⟩ := h
      split at h
      · next hq =>
        cases h
        exact ⟨rfl, fun _ => hq⟩
      · cases h
    | _ =>
      cases h
      exact ⟨rfl, fun hi => absurd hi Bool.false_ne_true⟩
  all_goals cases h

/-- A line of a program from elsewhere. -/
def TraceLine.foreign (l : TraceLine) : MarkedLine := ⟨.foreign l.pos, l.action⟩

theorem TraceLine.fill_foreign (g : Pos → Pos) (lines : List TraceLine) :
    (lines.map foreign).map (·.fill g) = lines := by
  rw [List.map_map]
  exact List.map_id lines

/-! ## Runs and their accounts -/

namespace Interpreter

variable (it : Interpreter σ)

/-- The lines that a passage leaves in the trace. Those of an invocation are not the program's. -/
def told : Passage σ → List MarkedLine
  | .statement st => if it.options.trace then [⟨.own st.pos, st.action⟩] else []
  | .invocation _ name vs s =>
    (((it.invoke name vs).run s).2.trace.toList.drop s.trace.size).map TraceLine.foreign

/-- The marks of the account come of these passages. A position from elsewhere is that of a function
that was invoked and failed with it; the error of an invocation would have taken the position of the
call if it had none. -/
structure Covers (ps : List (Passage σ)) (a : Account σ α) : Prop where
  lines : a.lines = ps.flatMap it.told
  foreign {cause : Cause} {q : Pos} : a.result = .error (.error cause (.foreign q)) →
    ∃ pos name vs s t, .invocation pos name vs s ∈ ps ∧
      (it.invoke name vs).run s = (.error (.failed (.error (.of cause q))), t) ∧
      (Failure.isInvocation (.error (.of cause q)) = true → q.isSet = true)

/-- `x g` is the run `here` at other places: one account tells the runs at all places, whatever the
trace holds when they start, and `v` gives the passages. -/
structure Narrates (here : Run σ α) (x : (Pos → Pos) → Run σ α)
    (v : RunState σ → List (Passage σ)) : Prop where
  here : x id = here
  account (s : RunState σ) : ∃ a : Account σ α, it.Covers (v s) a ∧
    ∀ g trace, (x g).run { s with trace } = a.fill g trace

namespace Narrates

variable {it : Interpreter σ} {x : Run σ α} {y : (Pos → Pos) → Run σ α}
  {v : RunState σ → List (Passage σ)}

/-- What gives a value and adds no line. -/
theorem still (h : ∀ s : RunState σ, ∃ (a : α) (s' : RunState σ),
      ∀ trace, x.run { s with trace } = (.ok a, { s' with trace })) :
    it.Narrates x (fun _ => x) fun _ => [] := by
  refine ⟨rfl, fun s => ?_⟩
  obtain ⟨a, s', hrun⟩ := h s
  refine ⟨⟨.ok a, s'.env, s'.host, s'.calls, [], s'.polls⟩, ⟨rfl, nofun⟩, fun g trace => ?_⟩
  rw [hrun, Account.fill, List.map_nil, Array.append_empty]
  rfl

theorem pure (a : α) : it.Narrates (Pure.pure a) (fun _ => Pure.pure a) fun _ => [] :=
  still fun s => ⟨a, s, fun _ => rfl⟩

/-- What stops without a position. -/
theorem stop (e : Stop) (he : e.isError = false) (h : ∀ s : RunState σ, x.run s = (.error e, s)) :
    it.Narrates x (fun _ => x) fun _ => [] := by
  refine ⟨rfl, fun s => ?_⟩
  refine ⟨⟨.error (.other e he), s.env, s.host, s.calls, [], s.polls⟩, ⟨rfl, nofun⟩,
    fun g trace => ?_⟩
  rw [h, Account.fill, List.map_nil, Array.append_empty]
  rfl

theorem unfinished : it.Narrates (Run.unfinished : Run σ α) (fun _ => Run.unfinished) fun _ => [] :=
  stop .unfinished rfl fun _ => rfl

theorem fail (cause : Cause) (p : Pos) :
    it.Narrates (Run.fail (.error (.of cause p)) : Run σ α)
      (fun g => Run.fail (.error (.of cause (g p)))) fun _ => [] := by
  refine ⟨rfl, fun s => ⟨⟨.error (.error cause (.own p)), s.env, s.host, s.calls, [], s.polls⟩,
    ⟨rfl, fun h => by cases h⟩, fun g trace => ?_⟩⟩
  simp [Account.fill]
  rfl

theorem bind {here' : α → Run σ β} {f : (Pos → Pos) → α → Run σ β}
    {w : α → RunState σ → List (Passage σ)} (hy : it.Narrates x y v)
    (hf : ∀ a, it.Narrates (here' a) (fun g => f g a) (w a)) :
    it.Narrates (x >>= here') (fun g => y g >>= f g) fun s => v s ++ x.after s w := by
  constructor
  · rw [hy.here]
    exact congrArg (x >>= ·) (funext fun a => (hf a).here)
  · intro s
    obtain ⟨⟨r, env, host, calls, lines, polls⟩, hcovers, ha⟩ := hy.account s
    have hx := ha id s.trace
    rw [hy.here] at hx
    cases r with
    | error e =>
      refine ⟨⟨.error e, env, host, calls, lines, polls⟩, ?_, fun g trace => ?_⟩
      · rw [Run.after_of_error hx, List.append_nil]
        refine ⟨hcovers.lines, fun h => hcovers.foreign ?_⟩
        cases h
        rfl
      · rw [Run.run_bind, ha]
        rfl
    | ok a =>
      obtain ⟨b, hb, hrun⟩ := (hf a).account
        ⟨env, host, calls, s.trace ++ (lines.map (·.fill id)).toArray, polls⟩
      refine ⟨{ b with lines := lines ++ b.lines }, ?_, fun g trace => ?_⟩
      · rw [Run.after_of_ok hx]
        refine ⟨?_, fun h => ?_⟩
        · rw [List.flatMap_append, ← hcovers.lines, ← hb.lines]
        · obtain ⟨pos, name, vs, t, t', hm, h⟩ := hb.foreign h
          exact ⟨pos, name, vs, t, t', List.mem_append_right _ hm, h⟩
      · rw [Run.run_bind, ha]
        show (f g a).run _ = _
        rw [hrun g (trace ++ (lines.map (·.fill g)).toArray)]
        simp [Account.fill]

theorem bind_still {here' : α → Run σ β} {f : (Pos → Pos) → α → Run σ β} (hy : it.Narrates x y v)
    (hf : ∀ a, it.Narrates (here' a) (fun g => f g a) fun _ => []) :
    it.Narrates (x >>= here') (fun g => y g >>= f g) v := by
  have h := hy.bind hf
  simpa only [Run.after_nil, List.append_nil] using h

theorem discard (hy : it.Narrates x y v) :
    it.Narrates (Functor.discard x) (fun g => Functor.discard (y g)) v :=
  hy.bind_still fun _ => pure ()

/-- What follows a step that adds no line. -/
theorem after_still {x : Run σ α} {y : (Pos → Pos) → Run σ α} {here' : α → Run σ β}
    {f : (Pos → Pos) → α → Run σ β} {w : α → RunState σ → List (Passage σ)}
    (hy : it.Narrates x y fun _ => []) (hf : ∀ a, it.Narrates (here' a) (fun g => f g a) (w a)) :
    it.Narrates (x >>= here') (fun g => y g >>= f g) fun s => x.after s w :=
  hy.bind hf

theorem find? (name : Text) :
    it.Narrates (Run.find? name) (fun _ => Run.find? name) fun _ => [] :=
  still fun s => ⟨s.env.find? name, s, fun _ => rfl⟩

theorem assign (name : Text) (value : Value) :
    it.Narrates (Run.assign name value) (fun _ => Run.assign name value) fun _ => [] :=
  still fun s => ⟨(), { s with env := s.env.insert name value }, fun _ => rfl⟩

theorem repeatWhile {test : Run σ Bool} {body : Run σ Unit} {test' : (Pos → Pos) → Run σ Bool}
    {body' : (Pos → Pos) → Run σ Unit} {w : RunState σ → List (Passage σ)}
    (ht : it.Narrates test test' v) (hb : it.Narrates body body' w) (n : Nat) :
    it.Narrates (Run.repeatWhile test body n) (fun g => Run.repeatWhile (test' g) (body' g) n)
      fun s => roundPassages test body v w n s := by
  induction n with
  | zero => exact unfinished
  | succ n ih =>
    refine ht.bind fun again => ?_
    cases again with
    | false => exact pure ()
    | true => exact hb.bind fun _ => ih

end Narrates

end Interpreter

/-! ## Programs -/

/-- The position shows in errors only. -/
inductive Failure.Placed (r : Pos → Except Failure α) : Prop where
  | value (a : α) (h : ∀ p, r p = .ok a)
  | bare (f : Failure) (hf : (Stop.failed f).isError = false) (h : ∀ p, r p = .error f)
  | error (cause : Cause) (h : ∀ p, r p = .error (.error (.of cause p)))

theorem placed_arithmetic (op : TokenKind) (a b : Value) :
    Failure.Placed fun p => arithmetic p op a b := by
  cases a with
  | number x =>
    cases b with
    | number y =>
      cases op with
      | slash =>
        cases hy : y.isZero with
        | true => exact .error .divisionByZero fun _ => if_pos hy
        | false => exact .value _ fun _ => if_neg (by simp [hy])
      | plus | minus | star => exact .value _ fun _ => rfl
      | _ => exact .bare _ rfl fun _ => rfl
    | _ => exact .error _ fun _ => rfl
  | _ => exact .error _ fun _ => rfl

theorem placed_compareValues (op : TokenKind) (a b : Value) :
    Failure.Placed fun p => compareValues p op a b := by
  cases a with
  | number x =>
    cases b with
    | number y =>
      cases op with
      | greater | greaterEq | less | lessEq => exact .value _ fun _ => rfl
      | _ => exact .bare _ rfl fun _ => rfl
    | _ => exact .error _ fun _ => rfl
  | _ => exact .error _ fun _ => rfl

theorem placed_asCondition (v : Value) : Failure.Placed fun p => asCondition p v := by
  cases v with
  | boolean => exact .value _ fun _ => rfl
  | _ => exact .error _ fun _ => rfl

namespace Interpreter

variable {it : Interpreter σ} {p : Plan σ}

theorem Narrates.ofExcept {r : Pos → Except Failure α} (h : Failure.Placed r) (p : Pos) :
    it.Narrates (Run.ofExcept (r p)) (fun g => Run.ofExcept (r (g p))) fun _ => [] := by
  cases h with
  | value a h =>
    simp only [h]
    exact .pure a
  | bare f hf h =>
    simp only [h]
    exact .stop (.failed f) hf fun _ => rfl
  | error cause h =>
    simp only [h]
    exact .fail cause p

theorem poll_narrates (pos : Pos) :
    it.Narrates (it.poll pos) (fun g => it.poll (g pos)) fun _ => [] := by
  refine ⟨rfl, fun s => ?_⟩
  cases hc : it.options.cancel with
  | none =>
    refine ⟨⟨.ok (), s.env, s.host, s.calls, [], s.polls⟩, ⟨rfl, nofun⟩, fun g trace => ?_⟩
    rw [poll_follows]
    simp [Course.happen, Course.run, Event.note, Event.stop?, hc, Account.fill]
    rfl
  | some fires =>
    -- The hook is told how often it was asked, and nothing else.
    refine ⟨⟨if fires (s.polls + 1) then .error (.error .cancelled (.own pos)) else .ok (),
      s.env, s.host, s.calls, [], s.polls + 1⟩, ⟨rfl, ?_⟩, fun g trace => ?_⟩
    · intro cause q h
      dsimp only at h
      split at h <;> cases h
    · rw [poll_follows]
      cases hf : fires (s.polls + 1) <;>
        simp [Course.happen, Course.run, Event.note, Event.stop?, hc, hf, Account.fill] <;> rfl

theorem traceStatement_narrates (st : Stmt) :
    it.Narrates (it.traceStatement st) (fun g => it.traceStatement (st.mapPos g))
      fun _ => [.statement st] := by
  have hpos (g : Pos → Pos) : (st.mapPos g).pos = g st.pos := by
    cases st with
    | expr e => cases e <;> simp [Stmt.pos, Expr.pos]
    | block b => cases b; simp [Stmt.pos, Block.pos]
    | _ => simp [Stmt.pos]
  have haction (g : Pos → Pos) : (st.mapPos g).action = st.action := by
    cases st with
    | expr e => cases e <;> simp [Stmt.action]
    | _ => simp [Stmt.action]
  refine ⟨by rw [st.mapPos_id], fun s => ?_⟩
  refine ⟨⟨.ok (), s.env, s.host, s.calls, it.told (.statement st), s.polls⟩,
    ⟨(List.flatMap_singleton ..).symm, fun h => by cases h⟩, fun g trace => ?_⟩
  rw [traceStatement_follows, hpos, haction, told]
  cases ht : it.options.trace <;>
    simp [Course.happen, Course.run, Event.note, Event.stop?, ht, Account.fill, MarkedLine.fill,
      Spot.fill] <;> rfl

theorem invoke_narrates (hi : it.Follows p) (pos : Pos) (name : Text) (vs : List Value) :
    it.Narrates (Run.mapFailure (Failure.locate pos) (it.invoke name vs))
      (fun g => Run.mapFailure (Failure.locate (g pos)) (it.invoke name vs))
      fun s => [.invocation pos name vs s] := by
  refine ⟨rfl, fun s => ?_⟩
  obtain ⟨r, s', lines, h⟩ := (p.invoke name vs).run_onto it.options s
  have hinvoke (trace : Array TraceLine) : (it.invoke name vs).run { s with trace } =
      (r, { s' with trace := trace ++ lines.toArray }) := by rw [hi.invoke, h]
  have hhere : (it.invoke name vs).run s = (r, { s' with trace := s.trace ++ lines.toArray }) :=
    hinvoke s.trace
  refine ⟨⟨r.mapError (Stop.located pos), s'.env, s'.host, s'.calls,
    lines.map TraceLine.foreign, s'.polls⟩, ⟨?_, ?_⟩, fun g trace => ?_⟩
  · rw [List.flatMap_singleton, told, hhere]
    simp
  · intro cause q hq
    rcases r with e | a
    · obtain ⟨rfl, hset⟩ := Stop.eq_of_located (Except.error.inj hq)
      exact ⟨pos, name, vs, s, _, List.mem_singleton_self _, hhere, hset⟩
    · cases hq
  · rw [Run.run_mapFailure, hinvoke, Account.fill, TraceLine.fill_foreign]
    rcases r with (f | _) | a
    · exact Prod.ext (congrArg Except.error (Stop.fill_located g pos (.failed f)).symm) rfl
    · rfl
    · rfl

theorem call_narrates (hi : it.Follows p) (pos : Pos) (name : Text) {args : Run σ (List Value)}
    {args' : (Pos → Pos) → Run σ (List Value)} {v : RunState σ → List (Passage σ)}
    (ha : it.Narrates args args' v) :
    it.Narrates (it.call pos name args) (fun g => it.call (g pos) name (args' g))
      fun s => (it.poll pos).after s fun _ s' => v s' ++ args.after s' fun vs s'' =>
        [.invocation pos name vs s''] :=
  (poll_narrates pos).after_still fun _ => ha.bind fun vs => invoke_narrates hi pos name vs

mutual

theorem eval_narrates (hi : it.Follows p) (e : Expr) :
    it.Narrates (it.eval e) (fun g => it.eval (e.mapPos g)) fun s => it.exprPassages e s := by
  cases e with
  | number | string =>
    simp only [Expr.mapPos, eval, exprPassages]
    exact .pure _
  | var pos name =>
    simp only [Expr.mapPos, eval, exprPassages]
    refine (Narrates.find? name).bind_still fun v => ?_
    cases v with
    | some v => exact .pure v
    | none => exact .fail _ pos
  | binary pos op l r =>
    simp only [Expr.mapPos, eval, exprPassages]
    exact (eval_narrates hi l).bind fun a => (eval_narrates hi r).bind_still fun b =>
      .ofExcept (placed_arithmetic op a b) pos
  | comparison pos op l r =>
    simp only [Expr.mapPos, eval, exprPassages]
    exact (eval_narrates hi l).bind fun a => (eval_narrates hi r).bind_still fun b =>
      .ofExcept (placed_compareValues op a b) pos
  | call pos name args =>
    simp only [Expr.mapPos, eval, exprPassages]
    refine (call_narrates hi pos name (evalArgs_narrates hi args)).bind_still fun v => ?_
    cases v with
    | some v => exact .pure v
    | none => exact .fail _ pos

theorem evalArgs_narrates (hi : it.Follows p) (es : List Expr) :
    it.Narrates (it.evalArgs es) (fun g => it.evalArgs (Expr.mapPosAll g es))
      fun s => it.argPassages es s := by
  cases es with
  | nil =>
    simp only [Expr.mapPosAll, evalArgs, argPassages]
    exact .pure _
  | cons e es =>
    simp only [Expr.mapPosAll, evalArgs, argPassages]
    exact (eval_narrates hi e).bind fun v => (evalArgs_narrates hi es).bind_still fun vs => .pure _

end

theorem condition_narrates (hi : it.Follows p) (c : Condition) :
    it.Narrates (it.condition c) (fun g => it.condition (c.mapPos g))
      fun s => it.exprPassages c.toExpr s :=
  (eval_narrates hi c.toExpr).bind_still fun v => .ofExcept (placed_asCondition v) c.pos

mutual

theorem exec_narrates (hi : it.Follows p) (st : Stmt) :
    it.Narrates (it.exec st) (fun g => it.exec (st.mapPos g)) fun s => it.stmtPassages st s := by
  cases st with
  | expr e =>
    have he := (eval_narrates hi e).discard
    cases e with
    | call pos name args =>
      simp only [Stmt.mapPos, Expr.mapPos, exec, stmtPassages, exprPassages]
      exact (call_narrates hi pos name (evalArgs_narrates hi args)).discard
    | _ => simpa only [Stmt.mapPos, Expr.mapPos, exec, stmtPassages] using he
  | assign pos name v =>
    simp only [Stmt.mapPos, exec, stmtPassages]
    exact (eval_narrates hi v).bind_still fun v => .assign name v
  | block b =>
    simp only [Stmt.mapPos, exec, stmtPassages]
    exact execBlock_narrates hi b
  | ifThen pos c t =>
    simp only [Stmt.mapPos, exec, stmtPassages]
    refine (condition_narrates hi c).bind fun holds => ?_
    cases holds with
    | true => exact execBlock_narrates hi t
    | false => exact .pure ()
  | ifElse pos c t e =>
    simp only [Stmt.mapPos, exec, stmtPassages]
    refine (condition_narrates hi c).bind fun holds => ?_
    cases holds with
    | true => exact execBlock_narrates hi t
    | false => exact execBlock_narrates hi e
  | loop pos c b =>
    simp only [Stmt.mapPos, exec, stmtPassages]
    have ht := (poll_narrates pos).after_still fun _ => condition_narrates hi c
    exact ht.repeatWhile (execBlock_narrates hi b) it.rounds

theorem execBlock_narrates (hi : it.Follows p) (b : Block) :
    it.Narrates (it.execBlock b) (fun g => it.execBlock (b.mapPos g))
      fun s => it.blockPassages b s := by
  cases b with
  | mk pos ss =>
    simp only [Block.mapPos, execBlock, blockPassages]
    exact execBody_narrates hi ss

theorem execBody_narrates (hi : it.Follows p) (ss : List Stmt) :
    it.Narrates (it.execBody ss) (fun g => it.execBody (Stmt.mapPosAll g ss))
      fun s => it.bodyPassages ss s := by
  cases ss with
  | nil =>
    simp only [Stmt.mapPosAll, execBody, bodyPassages]
    exact .pure ()
  | cons st ss =>
    simp only [Stmt.mapPosAll, execBody, bodyPassages]
    exact (traceStatement_narrates st).bind fun _ => (exec_narrates hi st).bind fun _ =>
      execBody_narrates hi ss

end

end Interpreter

/-! ## Functions that bring in no places -/

/-- Host functions that run no programs and raise no errors with positions. -/
def Conduct.unplaced : Conduct where
  results _ := True
  failures f := ∀ e, f = .error e → e.pos.isSet = false
  reads := True
  writes := True
  runs := False

theorem Conduct.unplaced_fits (o : Options) :
    Conduct.unplaced.Fits Eq fun e : Event σ => e.line? o = none where
  runs h := h
  reads _ _ _ h := h
  assign _ _ _ := rfl
  clear _ := rfl
  update _ := rfl
  call _ _ := rfl

namespace Registry.KeepsTo

variable {reg : Registry σ} {o : Options} {fuel : Nat} {name : Text} {args : List Value}

theorem trace_invoke (h : reg.KeepsTo .unplaced) (s : RunState σ) :
    ((reg.invoke o fuel name args).run s).2.trace = s.trace := by
  have hw : (reg.course fuel name args).Within Eq (·.line? o = none) :=
    h.within (Conduct.unplaced_fits o) fuel name args
  have hlines : ((reg.course fuel name args).history o s).filterMap (Event.line? o) = [] :=
    List.filterMap_eq_nil_iff.mpr (hw.history o s)
  have hf : (reg.invoke o fuel name args).run s = (reg.course fuel name args).run o s :=
    (reg.interpreter_follows o fuel).invoke name args s
  rw [hf, Course.run_state, ← Array.toList_inj, RunState.replay_trace, hlines, List.append_nil]

theorem unset_of_invoke (h : reg.KeepsTo .unplaced) {s s' : RunState σ} {e : Error}
    (hs : (reg.invoke o fuel name args).run s = (.error (.failed (.error e)), s')) :
    e.pos.isSet = false := by
  have hrefuse {name : Text} {args : List Value} {e : Error}
      (he : reg.resolve name args = .error e) : Conduct.unplaced.failures (.error e) := by
    rintro _ ⟨⟩
    rcases resolve_eq_error he with ⟨-, rfl⟩ | ⟨_, _, -, -, -, rfl⟩ <;> rfl
  have hends := h.invoke_ends (fun h => h) hrefuse o fuel name args s
  rw [hs] at hends
  exact hends e rfl

end Registry.KeepsTo

/-- All positions of the account are the program's. -/
structure Account.IsOwn (a : Account σ α) : Prop where
  lines : ∀ l ∈ a.lines, ∃ p, l.spot = .own p
  error {cause : Cause} {q : Pos} : a.result = .error (.error cause (.foreign q)) → q.isSet = false

theorem Interpreter.Covers.isOwn {reg : Registry σ} (h : reg.KeepsTo .unplaced) {o : Options}
    {fuel : Nat} {ps : List (Passage σ)} {a : Account σ α}
    (ha : (reg.interpreter o fuel).Covers ps a) : a.IsOwn := by
  constructor
  · intro l hl
    rw [ha.lines, List.mem_flatMap] at hl
    obtain ⟨st | ⟨pos, name, vs, s⟩, -, hl⟩ := hl
    · rw [told] at hl
      split at hl
      · cases List.mem_singleton.mp hl
        exact ⟨_, rfl⟩
      · cases hl
    · have htrace : (((reg.interpreter o fuel).invoke name vs).run s).2.trace = s.trace :=
        h.trace_invoke s
      rw [told, htrace, ← Array.length_toList, List.drop_length] at hl
      cases hl
  · intro cause q hq
    obtain ⟨pos, name, vs, s, t, -, hrun, -⟩ := ha.foreign hq
    exact h.unset_of_invoke hrun

def Stop.mapPos (g : Pos → Pos) : Stop → Stop
  | .failed (.error e) => .failed (.error (e.setPos (g e.pos)))
  | s => s

def TraceLine.mapPos (g : Pos → Pos) (l : TraceLine) : TraceLine := ⟨g l.pos, l.action⟩

/-- A run whose account has no other places, at other places. -/
theorem Account.IsOwn.fill_eq {a : Account σ α} (h : a.IsOwn) {g : Pos → Pos}
    (hg : ∀ p, p.isSet = false → g p = p) (trace : Array TraceLine) {r : Except Stop α}
    {s : RunState σ} (hr : a.fill id #[] = (r, s)) :
    a.fill g trace = (r.mapError (Stop.mapPos g),
      { s with trace := trace ++ s.trace.map (TraceLine.mapPos g) }) := by
  obtain ⟨result, env, host, calls, lines, polls⟩ := a
  cases hr
  have hlines : lines.map (·.fill g) = (lines.map (·.fill id)).map (TraceLine.mapPos g) := by
    rw [List.map_map]
    refine List.map_congr_left fun l hl => ?_
    obtain ⟨p, hp⟩ := h.lines l hl
    simp [MarkedLine.fill, TraceLine.mapPos, hp, Spot.fill]
  have hresult : result.mapError (·.fill g) =
      (result.mapError (·.fill id)).mapError (Stop.mapPos g) := by
    rcases result with (⟨cause, p | q⟩ | ⟨stop, hstop⟩) | a
    · exact congrArg (fun e => Except.error (Stop.failed (.error e))) (Error.setPos_of ..).symm
    · have hq : g q = q := hg q (h.error rfl)
      exact congrArg (fun e => Except.error (Stop.failed (.error e)))
        ((Error.setPos_of ..).trans (congrArg _ hq)).symm
    · rcases stop with (_ | _ | _ | _) | _
      case failed.error => cases hstop
      all_goals rfl
    · rfl
  simp [fill, hlines, hresult]

end ScriptEngine
