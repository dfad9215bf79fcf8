import ScriptEngine.Proofs.Run.Milestones

/-!
# Errors that come out of nested runs

A function may run a program whose calls invoke functions again, and so on. `Registry.Backtrace` tells
where in such a chain a failure arose, and which calls were being carried out: it lists their
positions, the innermost first. The error of an invocation escapes from all these calls with its
contents as they were, and with the first position that is set among its own and those of the calls
(`invocation_error_escapes`). Where none is set, it is left with that of the outermost call.
-/

namespace ScriptEngine

variable {σ α β : Type}

/-! ## Positions -/

namespace Failure

theorem isInvocation_locate (p : Pos) (f : Failure) :
    (f.locate p).isInvocation = f.isInvocation := by
  rcases f with ⟨c, q, _, _⟩ | _ | _ | _
  · cases c with
    | invocation => cases h : q.isSet <;> simp [locate, Error.locate, Error.setPos, isInvocation, h]
    | _ => rfl
  all_goals rfl

theorem exists_of_isInvocation {f : Failure} (h : f.isInvocation = true) :
    ∃ reason function text own, f = .error (.of (.invocation reason function text) own) := by
  rcases f with ⟨c, own, _, rfl⟩ | _ | _ | _
  · cases c with
    | invocation reason function text => exact ⟨reason, function, text, own, rfl⟩
    | _ => cases h
  all_goals cases h

/-- What becomes of a failure that passes calls, from the innermost outward. -/
def passing (f : Failure) (calls : List Pos) : Failure := calls.foldl (fun f p => f.locate p) f

theorem passing_concat (f : Failure) (calls : List Pos) (p : Pos) :
    f.passing (calls ++ [p]) = (f.passing calls).locate p := List.foldl_concat ..

theorem isInvocation_passing (f : Failure) (calls : List Pos) :
    (f.passing calls).isInvocation = f.isInvocation := by
  induction calls generalizing f with
  | nil => rfl
  | cons p calls ih => exact (ih _).trans (isInvocation_locate p f)

theorem passing_invocation (reason : InvocationReason) (function text : Text) (own : Pos)
    (calls : List Pos) :
    passing (.error (.of (.invocation reason function text) own)) calls =
      .error (.of (.invocation reason function text)
        (((own :: calls).find? Pos.isSet).getD (calls.getLastD own))) := by
  induction calls generalizing own with
  | nil => cases h : own.isSet <;> simp [passing, h]
  | cons p calls ih =>
    show passing (.error (if own.isSet then .of _ own else (Error.of _ own).setPos p)) calls = _
    cases h : own.isSet with
    | true =>
      rw [if_pos rfl, ih, List.find?_cons_of_pos h, List.find?_cons_of_pos h]
      rfl
    | false =>
      have hne : ¬ own.isSet = true := Bool.not_eq_true _ ▸ h
      rw [if_neg nofun, Error.setPos_of, ih, List.find?_cons_of_neg hne, List.getLastD_cons]

end Failure

/-! ## Failures of runs -/

namespace Run

variable {x : Run σ α} {s t : RunState σ}

/-- No failure comes out of an attempt. -/
theorem attempt_ne_failed {f : Failure} : x.attempt.run s ≠ (.error (.failed f), t) := by
  rw [run_attempt]
  rcases x.run s with ⟨(_ | _) | _, _⟩ <;> exact nofun

/-- The invocation errors that the run ends with are those of the functions that it invokes. -/
structure Relays (it : Interpreter σ) (x : Run σ α) (v : RunState σ → List (Milestone σ)) : Prop where
  out {s t s' : RunState σ} {pos : Pos} {name : Text} {vs : List Value} {f : Failure} :
    .invocation pos name vs s' ∈ v s → (it.invoke name vs).run s' = (.error (.failed f), t) →
    x.run s = (.error (.failed (f.locate pos)), t)
  source {s t : RunState σ} {f : Failure} : x.run s = (.error (.failed f), t) →
    f.isInvocation = true → ∃ pos name vs s' f', .invocation pos name vs s' ∈ v s ∧
      (it.invoke name vs).run s' = (.error (.failed f'), t) ∧ f = f'.locate pos

namespace Relays

variable {it : Interpreter σ} {v : RunState σ → List (Milestone σ)}

theorem nil (h : ∀ {s t f}, x.run s = (.error (.failed f), t) → f.isInvocation = false) :
    x.Relays it fun _ => [] :=
  ⟨nofun, fun hr hf => absurd hf (Bool.not_eq_true _ ▸ h hr)⟩

theorem bind {g : α → Run σ β} {w : α → RunState σ → List (Milestone σ)} (hx : x.Relays it v)
    (hg : ∀ a, (g a).Relays it (w a)) : (x >>= g).Relays it fun s => v s ++ x.after s w := by
  constructor
  · intro s t s' pos name vs f hm hi
    rcases List.mem_append.mp hm with hm | hm
    · exact bind_of_error (hx.out hm hi)
    · obtain ⟨a, u, ha, hm⟩ := mem_after.mp hm
      rw [bind_of_ok ha]
      exact (hg a).out hm hi
  · intro s t f hr hf
    rcases bind_eq_error hr with hr | ⟨a, u, ha, hr⟩
    · obtain ⟨pos, name, vs, s', f', hm, hi⟩ := hx.source hr hf
      exact ⟨pos, name, vs, s', f', List.mem_append_left _ hm, hi⟩
    · obtain ⟨pos, name, vs, s', f', hm, hi⟩ := (hg a).source hr hf
      exact ⟨pos, name, vs, s', f', List.mem_append_right _ (mem_after.mpr ⟨a, u, ha, hm⟩), hi⟩

theorem invoke (pos : Pos) (name : Text) (vs : List Value) :
    (Run.mapFailure (Failure.locate pos) (it.invoke name vs)).Relays it
      fun s => [.invocation pos name vs s] := by
  constructor
  · intro s t s' pos' name' vs' f hm hi
    cases List.mem_singleton.mp hm
    rw [run_mapFailure, hi]
  · intro s t f hr _
    rw [run_mapFailure] at hr
    generalize hi : (it.invoke name vs).run s = r at hr
    rcases r with ⟨(f' | _) | a, s'⟩ <;> cases hr
    exact ⟨pos, name, vs, s, f', List.mem_singleton_self _, hi, rfl⟩

theorem cons {m : Milestone σ} (hm : ∀ pos name vs s, .invocation pos name vs s ≠ m)
    (hx : x.Relays it v) : x.Relays it fun s => m :: v s := by
  constructor
  · intro s t s' pos name vs f hmem hi
    rcases List.mem_cons.mp hmem with h | h
    · exact absurd h (hm pos name vs s')
    · exact hx.out h hi
  · intro s t f hr hf
    obtain ⟨pos, name, vs, s', f', hmem, hi⟩ := hx.source hr hf
    exact ⟨pos, name, vs, s', f', List.mem_cons_of_mem _ hmem, hi⟩

end Relays

end Run

theorem Interpreter.Marks.relays {it : Interpreter σ} {x : Run σ α}
    {v : RunState σ → List (Milestone σ)} (h : it.Marks x v) : x.Relays it v := by
  refine h.parts (P := fun _ x v => x.Relays it v) (fun hx => .nil hx.foreign) .bind
    (fun pos => .nil fun {s t f} hr => ?_) .invoke (fun _ _ _ => .cons nofun) fun _ _ _ => .cons nofun
  have hp : (it.poll pos).Ends _ _ := Interpreter.poll_ends pos
  have hp := hp s
  rw [hr] at hp
  rw [hp]
  rfl

/-! ## Failures of functions -/

/-- What comes after `x`, if it ends well, and `stay` otherwise. -/
def Run.goOn (x : Run σ α) (s : RunState σ) (stay : β) (next : α → RunState σ → β) : β :=
  match x.run s with
  | (.ok a, s') => next a s'
  | (.error _, _) => stay

theorem Run.goOn_of_ok {x : Run σ α} {s s' : RunState σ} {a : α} (h : x.run s = (.ok a, s'))
    (stay : β) (next : α → RunState σ → β) : x.goOn s stay next = next a s' := by
  rw [goOn, h]

theorem Run.goOn_of_error {x : Run σ α} {s s' : RunState σ} {e : Stop} (h : x.run s = (.error e, s'))
    (stay : β) (next : α → RunState σ → β) : x.goOn s stay next = stay := by
  rw [goOn, h]

theorem Run.goOn_fst {γ : Type} {x : Run σ α} {s : RunState σ} {stay : β × γ}
    {next : α → RunState σ → β × γ} {P : β → Prop} (hstay : P stay.1)
    (hnext : ∀ a s', x.run s = (.ok a, s') → P (next a s').1) : P (x.goOn s stay next).1 := by
  cases hx : x.run s with
  | mk r s' =>
    cases r with
    | ok a =>
      rw [goOn_of_ok hx]
      exact hnext a s' hx
    | error e =>
      rw [goOn_of_error hx]
      exact hstay

namespace Routine

/-- The step that a routine ends with, and the state in which it comes to it: the end, or a step that
fails. -/
def lastStep (it : Interpreter σ) : Routine σ → RunState σ → Routine σ × RunState σ
  | done result, s => (done result, s)
  | fail failure, s => (fail failure, s)
  | inspect next, s => (next s.env).lastStep it s
  | assign name value next, s => next.lastStep it { s with env := s.env.insert name value }
  | clear next, s => next.lastStep it { s with env := NameTable.empty }
  | update f next, s => (next (f s.host)).lastStep it { s with host := f s.host }
  | invoke name args next, s =>
    (it.invoke name args).goOn s (invoke name args next, s) fun v s' => (next v).lastStep it s'
  | run program next, s =>
    (it.execBlock program).goOn s (run program next, s) fun _ s' => next.lastStep it s'
  | eval node next, s => (it.evalNode node).goOn s (eval node next, s) fun v s' =>
    (next v).lastStep it s'
  | recover attempt next, s => (attempt.perform it).attempt.goOn s (recover attempt next, s) fun r s' =>
    (next r).lastStep it s'

variable {it : Interpreter σ}

/-- The step fails with `f`, leaving `t`. -/
def FailsWith (it : Interpreter σ) (f : Failure) (t : RunState σ) : Routine σ × RunState σ → Prop
  | (fail f', s) => f' = f ∧ s = t
  | (invoke name args _, s) => (it.invoke name args).run s = (.error (.failed f), t)
  | (run program _, s) => (it.execBlock program).run s = (.error (.failed f), t)
  | (eval node _, s) => (it.evalNode node).run s = (.error (.failed f), t)
  | _ => False

theorem failsWith_goOn {x : Run σ α} {stay : Routine σ} {next : α → Routine σ} {s t : RunState σ}
    {f : Failure} (hstay : FailsWith it f t (stay, s) ↔ x.run s = (.error (.failed f), t))
    (hnext : ∀ {a s'}, FailsWith it f t ((next a).lastStep it s') ↔
      ((next a).perform it).run s' = (.error (.failed f), t)) :
    FailsWith it f t (x.goOn s (stay, s) fun a s' => (next a).lastStep it s') ↔
      (x >>= fun a => (next a).perform it).run s = (.error (.failed f), t) := by
  cases hx : x.run s with
  | mk r s' =>
    cases r with
    | ok a =>
      rw [Run.goOn_of_ok hx, Run.bind_of_ok hx]
      exact hnext
    | error e =>
      rw [Run.goOn_of_error hx, Run.bind_of_error hx, hstay, hx]
      exact ⟨fun h => by cases h; rfl, fun h => by cases h; rfl⟩

/-- The failure of a routine is that of its last step. -/
theorem failsWith_lastStep {r : Routine σ} {s t : RunState σ} {f : Failure} :
    FailsWith it f t (r.lastStep it s) ↔ (r.perform it).run s = (.error (.failed f), t) := by
  induction r generalizing s with
  | done v => exact ⟨nofun, nofun⟩
  | fail g => exact ⟨fun ⟨hg, hs⟩ => hg ▸ hs ▸ rfl, fun h => by cases h; exact ⟨rfl, rfl⟩⟩
  | inspect next ih => exact ih s.env
  | assign name v next ih | clear next ih => exact ih
  | update g next ih => exact ih (g s.host)
  | invoke name args next ih => exact failsWith_goOn Iff.rfl (ih _)
  | run program next ih => exact failsWith_goOn Iff.rfl ih
  | eval node next ih => exact failsWith_goOn Iff.rfl (ih _)
  | recover attempt next _ ih =>
    refine failsWith_goOn ⟨False.elim, fun h => ?_⟩ (ih _)
    exact absurd h Run.attempt_ne_failed

end Routine

/-! ## Chains of calls -/

def RunState.noting (s : RunState σ) (name : Text) (args : List Value) : RunState σ :=
  { s with calls := s.calls.push ⟨name, args⟩ }

namespace Registry

/-- The call of a function in a state comes upon the failure `f`, which leaves `final`. Listed are the
positions of the calls of programs that are being carried out by then, without that of the function
itself. -/
inductive Backtrace (reg : Registry σ) (o : Options) (f : Failure) (final : RunState σ) :
    Nat → Text → List Value → RunState σ → List Pos → Prop where
  /-- There is no such function, or it takes another number of arguments. -/
  | refused {fuel : Nat} {name : Text} {args : List Value} {s : RunState σ} {e : Error} :
      reg.resolve name args = .error e → f = .error e → final = s.noting name args →
      Backtrace reg o f final (fuel + 1) name args s []
  /-- The function throws the failure. -/
  | thrown {fuel : Nat} {name : Text} {args : List Value} {s : RunState σ} {r : Routine σ} :
      reg.resolve name args = .ok r →
      r.lastStep (reg.interpreter o fuel) (s.noting name args) = (.fail f, final) →
      Backtrace reg o f final (fuel + 1) name args s []
  /-- The function calls another one by itself. -/
  | calling {fuel : Nat} {name name' : Text} {args args' : List Value} {s s' : RunState σ}
      {r : Routine σ} {next : Option Value → Routine σ} {calls : List Pos} :
      reg.resolve name args = .ok r →
      r.lastStep (reg.interpreter o fuel) (s.noting name args) = (.invoke name' args' next, s') →
      Backtrace reg o f final fuel name' args' s' calls →
      Backtrace reg o f final (fuel + 1) name args s calls
  /-- The function runs a program, of which a call is being carried out. -/
  | running {fuel : Nat} {name name' : Text} {args vs : List Value} {s s' s'' : RunState σ}
      {r next : Routine σ} {b : Block} {pos : Pos} {calls : List Pos} :
      reg.resolve name args = .ok r →
      r.lastStep (reg.interpreter o fuel) (s.noting name args) = (.run b next, s') →
      .invocation pos name' vs s'' ∈ (reg.interpreter o fuel).blockMilestones b s' →
      Backtrace reg o f final fuel name' vs s'' calls →
      Backtrace reg o f final (fuel + 1) name args s (calls ++ [pos])
  /-- The function evaluates an expression, of which a call is being carried out. -/
  | evaluating {fuel : Nat} {name name' : Text} {args vs : List Value} {s s' s'' : RunState σ}
      {r : Routine σ} {next : Value → Routine σ} {e : Expr} {pos : Pos} {calls : List Pos} :
      reg.resolve name args = .ok r →
      r.lastStep (reg.interpreter o fuel) (s.noting name args) = (.eval (.expr e) next, s') →
      .invocation pos name' vs s'' ∈ (reg.interpreter o fuel).exprMilestones e s' →
      Backtrace reg o f final fuel name' vs s'' calls →
      Backtrace reg o f final (fuel + 1) name args s (calls ++ [pos])

variable {reg : Registry σ} {o : Options} {fuel : Nat} {name : Text} {args : List Value}
  {s final : RunState σ} {f : Failure} {calls : List Pos}

theorem run_invoke_of_error {e : Error} (h : reg.resolve name args = .error e) :
    (reg.invoke o (fuel + 1) name args).run s =
      (.error (.failed (.error e)), s.noting name args) := by
  unfold invoke
  rw [h]
  rfl

theorem run_invoke_of_ok {r : Routine σ} (h : reg.resolve name args = .ok r) :
    (reg.invoke o (fuel + 1) name args).run s =
      (r.perform (reg.interpreter o fuel)).run (s.noting name args) := by
  unfold invoke
  rw [h]
  rfl

/-- A call fails if the last step of the function does. -/
theorem run_invoke_iff {r : Routine σ} (h : reg.resolve name args = .ok r) :
    (reg.invoke o (fuel + 1) name args).run s = (.error (.failed f), final) ↔
      Routine.FailsWith (reg.interpreter o fuel) f final
        (r.lastStep (reg.interpreter o fuel) (s.noting name args)) := by
  rw [Routine.failsWith_lastStep, run_invoke_of_ok h]

/-- The failure comes out, with a position from the calls if need be. -/
theorem Backtrace.run_invoke (h : reg.Backtrace o f final fuel name args s calls) :
    (reg.invoke o fuel name args).run s = (.error (.failed (f.passing calls)), final) := by
  induction h with
  | refused hr he hs =>
    rw [run_invoke_of_error hr, he, hs]
    rfl
  | thrown hr hl =>
    rw [run_invoke_iff hr, hl]
    exact ⟨rfl, rfl⟩
  | calling hr hl _ ih =>
    rw [run_invoke_iff hr, hl]
    exact ih
  | running hr hl hm _ ih =>
    rw [run_invoke_iff hr, hl, Failure.passing_concat]
    exact (Interpreter.execBlock_marks _).relays.out hm ih
  | evaluating hr hl hm _ ih =>
    rw [run_invoke_iff hr, hl, Failure.passing_concat]
    exact (Interpreter.eval_marks _).relays.out hm ih

/-- Every invocation error has come out of a chain of calls. -/
theorem exists_backtrace (hf : f.isInvocation = true)
    (h : (reg.invoke o fuel name args).run s = (.error (.failed f), final)) :
    ∃ f' calls, reg.Backtrace o f' final fuel name args s calls ∧ f = f'.passing calls := by
  -- What a function calls or runs has less fuel than the function itself.
  induction fuel generalizing name args s f with
  | zero => cases h
  | succ fuel ih =>
    cases hr : reg.resolve name args with
    | error e =>
      rw [run_invoke_of_error hr] at h
      cases h
      exact ⟨_, [], .refused hr rfl rfl, rfl⟩
    | ok r =>
      rw [run_invoke_iff hr] at h
      cases hl : r.lastStep (reg.interpreter o fuel) (s.noting name args) with
      | mk step s' =>
        rw [hl] at h
        cases step with
        | done | inspect | assign | clear | update | recover => exact h.elim
        | fail g =>
          obtain ⟨rfl, rfl⟩ := h
          exact ⟨_, [], .thrown hr hl, rfl⟩
        | invoke name' args' next =>
          obtain ⟨f', calls, hb, rfl⟩ := ih hf h
          exact ⟨f', calls, .calling hr hl hb, rfl⟩
        | run b next =>
          obtain ⟨pos, name', vs, s'', g, hm, hi, rfl⟩ :=
            (Interpreter.execBlock_marks b).relays.source h hf
          obtain ⟨f', calls, hb, rfl⟩ := ih (Failure.isInvocation_locate pos g ▸ hf) hi
          exact ⟨f', calls ++ [pos], .running hr hl hm hb, (f'.passing_concat calls pos).symm⟩
        | eval node next =>
          cases node with
          | stmt =>
            cases h
            cases hf
          | expr e =>
            obtain ⟨pos, name', vs, s'', g, hm, hi, rfl⟩ :=
              (Interpreter.eval_marks e).relays.source h hf
            obtain ⟨f', calls, hb, rfl⟩ := ih (Failure.isInvocation_locate pos g ▸ hf) hi
            exact ⟨f', calls ++ [pos], .evaluating hr hl hm hb, (f'.passing_concat calls pos).symm⟩

/-- An error with this cause comes out of one of the calls, with the position `p`: its own one, or else
that of the innermost call whose position is set. -/
def Surfaces (reg : Registry σ) (o : Options) (fuel : Nat) (cause : Cause) (p : Pos)
    (final : RunState σ) (ms : List (Milestone σ)) : Prop :=
  ∃ own calls pos name vs s, .invocation pos name vs s ∈ ms ∧
    reg.Backtrace o (.error (.of cause own)) final fuel name vs s calls ∧
    p = ((own :: (calls ++ [pos])).find? Pos.isSet).getD pos

theorem run_eq_error_iff {x : Run σ α} {v : RunState σ → List (Milestone σ)}
    (hx : (reg.interpreter o fuel).Marks x v) (reason : InvocationReason) (function text : Text)
    (p : Pos) :
    x.run s = (.error (.failed (.error (.of (.invocation reason function text) p))), final) ↔
      reg.Surfaces o fuel (.invocation reason function text) p final (v s) := by
  constructor
  · intro h
    obtain ⟨pos, name, vs, s', g, hm, hi, hg⟩ := hx.relays.source h rfl
    have hinv : g.isInvocation = true := by
      rw [← Failure.isInvocation_locate pos, ← hg]
      rfl
    obtain ⟨f, calls, hb, rfl⟩ := exists_backtrace hinv hi
    rw [Failure.isInvocation_passing] at hinv
    obtain ⟨_, _, _, own, rfl⟩ := Failure.exists_of_isInvocation hinv
    rw [← Failure.passing_concat, Failure.passing_invocation, List.getLastD_concat] at hg
    cases hg
    exact ⟨own, calls, pos, name, vs, s', hm, hb, rfl⟩
  · rintro ⟨own, calls, pos, name, vs, s', hm, hb, rfl⟩
    rw [hx.relays.out hm hb.run_invoke, ← Failure.passing_concat, Failure.passing_invocation,
      List.getLastD_concat]

end Registry

/-- The error of an invocation comes out of the outermost run just as it was thrown, up to its position:
that is the first one set among its own and those of the calls around it, from the innermost outward,
or that of the outermost call. -/
theorem invocation_error_escapes (reg : Registry σ) (o : Options) (fuel : Nat)
    (reason : InvocationReason) (function text : Text) (p : Pos) (s final : RunState σ) :
    let it := reg.interpreter o fuel
    let cause : Cause := .invocation reason function text
    (∀ b, (it.execBlock b).run s = (.error (.failed (.error (.of cause p))), final) ↔
      reg.Surfaces o fuel cause p final (it.blockMilestones b s)) ∧
    (∀ e, (it.eval e).run s = (.error (.failed (.error (.of cause p))), final) ↔
      reg.Surfaces o fuel cause p final (it.exprMilestones e s)) ∧
    (Error.of cause p).message = (if 0 < p.line then p.label ++ text else text) ∧
    ∀ e : Error, e.message = if 0 < e.pos.line then e.pos.label ++ e.text else e.text := by
  intro it cause
  refine ⟨fun b => ?_, fun e => ?_, (Error.of cause p).message_eq_ite, Error.message_eq_ite⟩
  · exact Registry.run_eq_error_iff (Interpreter.execBlock_marks b) reason function text p
  · exact Registry.run_eq_error_iff (Interpreter.eval_marks e) reason function text p

-- The error of `bottom` has a column and a file, but no line. Of the calls around it, the inner one is
-- the first to have a line.
example :
    let name (s : String) := Text.ascii s
    let call (p : Pos) (s : String) : Expr := .call p (name s) []
    let error (p : Pos) : Error := .of (.invocation .typeMismatch (name "bottom") (name "no")) p
    let reg : Registry Unit := ⟨[
      (name "outer", ⟨none, fun _ => .run (.mk Pos.unset [.expr (call ⟨-1, 4, []⟩ "middle")])
        (.done none)⟩),
      (name "middle", ⟨none, fun _ => .eval (.expr (call ⟨2, 5, []⟩ "bottom")) fun v => .done v⟩),
      (name "bottom", ⟨none, fun _ => .fail (.error (error ⟨0, 6, name "f"⟩))⟩)]⟩
    (((reg.interpreter Options.plain 3).eval (call ⟨1, 1, []⟩ "outer")).run
      (.start NameTable.empty ())).1 = .error (.failed (.error (error ⟨2, 5, []⟩))) := by
  rfl

end ScriptEngine
