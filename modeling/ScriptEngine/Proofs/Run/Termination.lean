import ScriptEngine.Proofs.Host.Conduct
import ScriptEngine.Proofs.Run.Ends
import ScriptEngine.Session

/-!
# Termination

A run whose hook cancels it in the end does end, whatever its loops and however its host functions
run programs again, and even if they swallow the cancellations of these programs
(`cancellable_ends`). A loop asks the hook before each round and a call before anything else, so the
number of questions left goes down; between two questions the run follows the tree, or the steps of a
host function, of which there are finitely many (`Registry.Finitary`). The stock functions are of this
sort (`Session.registry_finitary`).

Fuel bounds loops and nested calls from outside. A run ends if there is a bound from which on more
fuel makes no difference (`Run.Settles`).
-/

namespace ScriptEngine

variable {σ α β : Type}

/-! ## Runs with enough fuel -/

namespace Run

/-- With fuel enough, the run that starts in `s` ends with `r` and leaves `s'`. -/
def Settles (x : Nat → Run σ α) (s : RunState σ) (r : Except Failure α) (s' : RunState σ) : Prop :=
  ∃ enough, ∀ fuel, enough ≤ fuel → (x fuel).run s = (r.mapError .failed, s')

/-- With fuel enough, the run that starts in `s` ends. The polls it has counted stay. -/
def Halts (x : Nat → Run σ α) (s : RunState σ) : Prop :=
  ∃ r s', s.polls ≤ s'.polls ∧ Settles x s r s'

variable {x y : Nat → Run σ α} {f : Nat → α → Run σ β} {s s' : RunState σ} {r : Except Failure α}

theorem Settles.of_eq (h : ∀ fuel, (x fuel).run s = (r.mapError .failed, s')) :
    Settles x s r s' :=
  ⟨0, fun fuel _ => h fuel⟩

/-- What takes one unit of fuel before it goes on. -/
theorem Settles.succ (h : Settles y s r s') (hx : ∀ fuel, x (fuel + 1) = y fuel) :
    Settles x s r s' := by
  obtain ⟨enough, h⟩ := h
  refine ⟨enough + 1, fun fuel hf => ?_⟩
  obtain ⟨m, rfl⟩ := Nat.exists_eq_add_of_le' (Nat.le_trans (Nat.le_add_left 1 enough) hf)
  rw [hx]
  exact h m (by omega)

theorem Settles.congr {k : Nat} (h : Settles y s r s') (hx : ∀ fuel, k ≤ fuel → x fuel = y fuel) :
    Settles x s r s' := by
  obtain ⟨enough, h⟩ := h
  refine ⟨max k enough, fun fuel hf => ?_⟩
  rw [hx fuel (by omega)]
  exact h fuel (by omega)

theorem Settles.bind_ok {a : α} {r' : Except Failure β} {s'' : RunState σ}
    (hx : Settles x s (.ok a) s') (hf : Settles (f · a) s' r' s'') :
    Settles (fun fuel => x fuel >>= f fuel) s r' s'' := by
  obtain ⟨m, hx⟩ := hx
  obtain ⟨k, hf⟩ := hf
  refine ⟨max m k, fun fuel hle => ?_⟩
  rw [run_bind, hx fuel (by omega)]
  exact hf fuel (by omega)

theorem Settles.bind_error {g : Failure} (hx : Settles x s (.error g) s') :
    Settles (fun fuel => x fuel >>= f fuel) s (.error g) s' := by
  obtain ⟨m, hx⟩ := hx
  refine ⟨m, fun fuel hle => ?_⟩
  rw [run_bind, hx fuel hle]
  rfl

namespace Halts

/-- A step that cannot fail and leaves the polls alone. -/
theorem ok {x : Run σ α} {a : α} {t : RunState σ} (hx : x.run s = (.ok a, t))
    (hp : t.polls = s.polls) : Halts (fun _ => x) s :=
  ⟨.ok a, t, Nat.le_of_eq hp.symm, .of_eq fun _ => hx⟩

theorem pure (a : α) : Halts (fun _ => (Pure.pure a : Run σ α)) s := ok rfl rfl

theorem fail (g : Failure) : Halts (fun _ => (Run.fail g : Run σ α)) s :=
  ⟨.error g, s, Nat.le_refl _, .of_eq fun _ => rfl⟩

theorem ofExcept (r : Except Failure α) : Halts (fun _ => (Run.ofExcept r : Run σ α)) s := by
  cases r with
  | ok a => exact pure a
  | error g => exact fail g

theorem succ (h : Halts y s) (hx : ∀ fuel, x (fuel + 1) = y fuel) : Halts x s := by
  obtain ⟨r, s', hp, h⟩ := h
  exact ⟨r, s', hp, h.succ hx⟩

theorem congr {k : Nat} (h : Halts y s) (hx : ∀ fuel, k ≤ fuel → x fuel = y fuel) : Halts x s := by
  obtain ⟨r, s', hp, h⟩ := h
  exact ⟨r, s', hp, h.congr hx⟩

/-- What follows has to end only in states that the first part comes to. -/
theorem bind (hx : Halts x s)
    (hf : ∀ a s', s.polls ≤ s'.polls → Settles x s (.ok a) s' → Halts (f · a) s') :
    Halts (fun fuel => x fuel >>= f fuel) s := by
  obtain ⟨r, s', hp, h⟩ := hx
  cases r with
  | error g => exact ⟨.error g, s', hp, h.bind_error⟩
  | ok a =>
    obtain ⟨r', s'', hp', h'⟩ := hf a s' hp h
    exact ⟨r', s'', Nat.le_trans hp hp', h.bind_ok h'⟩

theorem discard (hx : Halts x s) : Halts (fun fuel => Functor.discard (x fuel)) s :=
  hx.bind fun _ _ _ _ => pure ()

theorem step {x : Run σ α} {a : α} {t : RunState σ} (hx : x.run s = (.ok a, t))
    (hp : t.polls = s.polls) (hf : Halts (f · a) t) : Halts (fun fuel => x >>= f fuel) s := by
  refine (ok hx hp).bind fun b t' _ h => ?_
  obtain ⟨enough, h⟩ := h
  have he := (h enough (Nat.le_refl _)).symm.trans hx
  cases he
  exact hf

theorem mapFailure (hx : Halts x s) (g : Failure → Failure) :
    Halts (fun fuel => (x fuel).mapFailure g) s := by
  obtain ⟨r, s', hp, enough, h⟩ := hx
  refine ⟨r.mapError g, s', hp, enough, fun fuel hle => ?_⟩
  rw [run_mapFailure, h fuel hle]
  cases r <;> rfl

theorem attempt (hx : Halts x s) : Halts (fun fuel => (x fuel).attempt) s := by
  obtain ⟨r, s', hp, enough, h⟩ := hx
  cases r with
  | ok a =>
    refine ⟨.ok (.ok a), s', hp, enough, fun fuel hle => ?_⟩
    rw [run_attempt, h fuel hle]
    rfl
  | error g =>
    refine ⟨.ok (.error g), s', hp, enough, fun fuel hle => ?_⟩
    rw [run_attempt, h fuel hle]
    rfl

end Halts

end Run

/-! ## Finitely many steps -/

namespace Routine

/-- The routine takes finitely many steps when it starts in `s`. The steps of a function that it calls
count as its own. A program that it runs is one step: if it comes back, the rest takes finitely many
steps from there. -/
inductive FiniteFrom (reg : Registry σ) (o : Options) : Routine σ → RunState σ → Prop where
  | done {v : Option Value} {s : RunState σ} : FiniteFrom reg o (.done v) s
  | fail {g : Failure} {s : RunState σ} : FiniteFrom reg o (.fail g) s
  | inspect {next : Environment → Routine σ} {s : RunState σ} :
      FiniteFrom reg o (next s.env) s → FiniteFrom reg o (.inspect next) s
  | assign {name : Text} {value : Value} {next : Routine σ} {s : RunState σ} :
      FiniteFrom reg o next { s with env := s.env.insert name value } →
      FiniteFrom reg o (.assign name value next) s
  | clear {next : Routine σ} {s : RunState σ} :
      FiniteFrom reg o next { s with env := NameTable.empty } → FiniteFrom reg o (.clear next) s
  | update {f : σ → σ} {next : σ → Routine σ} {s : RunState σ} :
      FiniteFrom reg o (next (f s.host)) { s with host := f s.host } →
      FiniteFrom reg o (.update f next) s
  | invoke {name : Text} {args : List Value} {next : Option Value → Routine σ} {s : RunState σ} :
      (∀ body, reg.resolve name args = .ok body →
        FiniteFrom reg o body { s with calls := s.calls.push ⟨name, args⟩ }) →
      (∀ v s', Run.Settles (fun fuel => reg.invoke o fuel name args) s (.ok v) s' →
        FiniteFrom reg o (next v) s') →
      FiniteFrom reg o (.invoke name args next) s
  | run {b : Block} {next : Routine σ} {s : RunState σ} :
      (∀ s', Run.Settles (fun fuel => (reg.interpreter o fuel).execBlock b) s (.ok ()) s' →
        FiniteFrom reg o next s') →
      FiniteFrom reg o (.run b next) s
  | eval {node : Node} {next : Value → Routine σ} {s : RunState σ} :
      (∀ v s', Run.Settles (fun fuel => (reg.interpreter o fuel).evalNode node) s (.ok v) s' →
        FiniteFrom reg o (next v) s') →
      FiniteFrom reg o (.eval node next) s
  | recover {attempt : Routine σ} {next : Except Failure (Option Value) → Routine σ}
      {s : RunState σ} :
      FiniteFrom reg o attempt s →
      (∀ r s', Run.Settles (fun fuel => (attempt.perform (reg.interpreter o fuel)).attempt) s
        (.ok r) s' → FiniteFrom reg o (next r) s') →
      FiniteFrom reg o (.recover attempt next) s

end Routine

/-- The functions take finitely many steps each, in whatever state they are called. -/
def Registry.Finitary (reg : Registry σ) (o : Options) : Prop :=
  ∀ name args body, reg.resolve name args = .ok body → ∀ s, body.FiniteFrom reg o s

/-! ## Programs -/

/-- With a hook that lets a run go on `n` times. -/
abbrev Options.cancelAfter (n : Nat) (trace : Bool) : Options := ⟨some (.after n), trace⟩

section

variable {reg : Registry σ} {n : Nat} {trace : Bool} {N : Nat} {s : RunState σ}

/-- A call ends if fewer than `N` polls are left. -/
def CallsHalt (reg : Registry σ) (n : Nat) (trace : Bool) (N : Nat) : Prop :=
  ∀ name args s, n - s.polls < N →
    Run.Halts (fun fuel => reg.invoke (.cancelAfter n trace) fuel name args) s

namespace Interpreter

/-- After a poll, the run has ended or there is one poll less to come. -/
theorem poll_halts {f : Nat → Run σ α} (pos : Pos)
    (hf : s.polls < n → Run.Halts f { s with polls := s.polls + 1 }) :
    Run.Halts (fun fuel => do
      (reg.interpreter (.cancelAfter n trace) fuel).poll pos
      f fuel) s := by
  have hrun (fuel : Nat) : ((reg.interpreter (.cancelAfter n trace) fuel).poll pos).run s =
      (if n < s.polls + 1 then .error (.failed (.error (.of .cancelled pos))) else .ok (),
        { s with polls := s.polls + 1 }) := by
    show (if CancelHook.after n (s.polls + 1) then Run.fail _ else pure () : Run σ Unit)
      { s with polls := s.polls + 1 } = _
    by_cases h : n < s.polls + 1 <;> simp [CancelHook.after, h] <;> rfl
  by_cases h : n < s.polls + 1
  · refine ⟨.error (.error (.of .cancelled pos)), { s with polls := s.polls + 1 }, Nat.le_succ _, 0,
      fun fuel _ => ?_⟩
    rw [Run.run_bind, hrun, if_pos h]
    rfl
  · obtain ⟨r, s', hp, enough, hr⟩ := hf (by omega)
    refine ⟨r, s', Nat.le_of_succ_le hp, enough, fun fuel hle => ?_⟩
    rw [Run.run_bind, hrun, if_neg h]
    exact hr fuel hle

theorem call_halts (hc : CallsHalt reg n trace N) (pos : Pos) (name : Text)
    {args : Nat → Run σ (List Value)} (hs : n - s.polls ≤ N)
    (ha : ∀ s, n - s.polls ≤ N → Run.Halts args s) :
    Run.Halts (fun fuel =>
      (reg.interpreter (.cancelAfter n trace) fuel).call pos name (args fuel)) s :=
  poll_halts pos fun hlt => (ha _ (by simp only; omega)).bind fun vs s' hp _ =>
    Run.Halts.mapFailure (hc name vs s' (by simp only at hp; omega)) _

mutual

theorem eval_halts (hc : CallsHalt reg n trace N) (e : Expr) (s : RunState σ)
    (hs : n - s.polls ≤ N) :
    Run.Halts (fun fuel => (reg.interpreter (.cancelAfter n trace) fuel).eval e) s := by
  cases e with
  | number | string =>
    unfold eval
    exact .pure _
  | var pos name =>
    unfold eval
    refine Run.Halts.step (t := s) rfl rfl ?_
    cases s.env.find? name with
    | some v => exact .pure v
    | none => exact .fail _
  | binary pos op l r | comparison pos op l r =>
    unfold eval
    refine (eval_halts hc l s hs).bind fun a s' hp _ => ?_
    exact (eval_halts hc r s' (by omega)).bind fun b _ _ _ => .ofExcept _
  | call pos name args =>
    unfold eval
    refine (call_halts hc pos name hs fun s hs => evalArgs_halts hc args s hs).bind fun v _ _ _ => ?_
    cases v with
    | some v => exact .pure v
    | none => exact .fail _

theorem evalArgs_halts (hc : CallsHalt reg n trace N) (es : List Expr) (s : RunState σ)
    (hs : n - s.polls ≤ N) :
    Run.Halts (fun fuel => (reg.interpreter (.cancelAfter n trace) fuel).evalArgs es) s := by
  cases es with
  | nil =>
    unfold evalArgs
    exact .pure _
  | cons e es =>
    unfold evalArgs
    refine (eval_halts hc e s hs).bind fun v s' hp _ => ?_
    exact (evalArgs_halts hc es s' (by omega)).bind fun vs _ _ _ => .pure _

end

theorem condition_halts (hc : CallsHalt reg n trace N) (c : Condition) (s : RunState σ)
    (hs : n - s.polls ≤ N) :
    Run.Halts (fun fuel => (reg.interpreter (.cancelAfter n trace) fuel).condition c) s :=
  (eval_halts hc c.toExpr s hs).bind fun _ _ _ _ => .ofExcept _

theorem evalNode_halts (hc : CallsHalt reg n trace N) (node : Node) (s : RunState σ)
    (hs : n - s.polls ≤ N) :
    Run.Halts (fun fuel => (reg.interpreter (.cancelAfter n trace) fuel).evalNode node) s := by
  cases node with
  | expr e => exact eval_halts hc e s hs
  | stmt => exact .fail _

/-- A loop polls in each round, so it has as many rounds as there are polls left. -/
theorem loop_halts (hc : CallsHalt reg n trace N) (pos : Pos) (c : Condition)
    {body : Nat → Run σ Unit} (hb : ∀ s, n - s.polls ≤ N → Run.Halts body s) (hs : n - s.polls ≤ N) :
    Run.Halts (fun fuel => Run.repeatWhile
      (do (reg.interpreter (.cancelAfter n trace) fuel).poll pos
          (reg.interpreter (.cancelAfter n trace) fuel).condition c) (body fuel) fuel) s := by
  -- The rounds taken come off the fuel, which the test and the body keep.
  suffices h : ∀ left taken s, n - s.polls = left → left ≤ N → Run.Halts (fun fuel =>
      Run.repeatWhile
        (do (reg.interpreter (.cancelAfter n trace) fuel).poll pos
            (reg.interpreter (.cancelAfter n trace) fuel).condition c)
        (body fuel) (fuel - taken)) s
    from h _ 0 s rfl hs
  intro left
  induction left using Nat.strongRecOn with
  | ind left ih =>
    intro taken s hl hN
    have hround : Run.Halts (fun fuel => do
        (reg.interpreter (.cancelAfter n trace) fuel).poll pos
        if ← (reg.interpreter (.cancelAfter n trace) fuel).condition c then
          body fuel
          Run.repeatWhile
            (do (reg.interpreter (.cancelAfter n trace) fuel).poll pos
                (reg.interpreter (.cancelAfter n trace) fuel).condition c)
            (body fuel) (fuel - (taken + 1))) s := by
      refine poll_halts pos fun hlt => ?_
      refine (condition_halts hc c _ (by simp only; omega)).bind fun again s' hp _ => ?_
      simp only at hp
      cases again with
      | false => exact .pure ()
      | true =>
        refine (hb s' (by omega)).bind fun _ s'' hp' _ => ?_
        exact ih (n - s''.polls) (by omega) (taken + 1) s'' rfl (by omega)
    refine hround.congr (k := taken + 1) fun fuel hle => ?_
    rw [show fuel - taken = fuel - (taken + 1) + 1 by omega, Run.repeatWhile, bind_assoc]

mutual

theorem exec_halts (hc : CallsHalt reg n trace N) (st : Stmt) (s : RunState σ)
    (hs : n - s.polls ≤ N) :
    Run.Halts (fun fuel => (reg.interpreter (.cancelAfter n trace) fuel).exec st) s := by
  cases st with
  | expr e =>
    cases e with
    | call pos name args =>
      unfold exec
      exact (call_halts hc pos name hs fun s hs => evalArgs_halts hc args s hs).discard
    | _ =>
      unfold exec
      exact (eval_halts hc _ s hs).discard
  | assign pos name v =>
    unfold exec
    exact (eval_halts hc v s hs).bind fun v s' _ _ => .ok rfl rfl
  | block b =>
    unfold exec
    exact execBlock_halts hc b s hs
  | ifThen pos c t =>
    unfold exec
    refine (condition_halts hc c s hs).bind fun holds s' hp _ => ?_
    cases holds with
    | true => exact execBlock_halts hc t s' (by omega)
    | false => exact .pure ()
  | ifElse pos c t e =>
    unfold exec
    refine (condition_halts hc c s hs).bind fun holds s' hp _ => ?_
    cases holds with
    | true => exact execBlock_halts hc t s' (by omega)
    | false => exact execBlock_halts hc e s' (by omega)
  | loop pos c b =>
    unfold exec
    exact loop_halts hc pos c (fun s hs => execBlock_halts hc b s hs) hs

theorem execBlock_halts (hc : CallsHalt reg n trace N) (b : Block) (s : RunState σ)
    (hs : n - s.polls ≤ N) :
    Run.Halts (fun fuel => (reg.interpreter (.cancelAfter n trace) fuel).execBlock b) s := by
  cases b with
  | mk pos ss =>
    unfold execBlock
    exact execBody_halts hc ss s hs

theorem execBody_halts (hc : CallsHalt reg n trace N) (ss : List Stmt) (s : RunState σ)
    (hs : n - s.polls ≤ N) :
    Run.Halts (fun fuel => (reg.interpreter (.cancelAfter n trace) fuel).execBody ss) s := by
  cases ss with
  | nil =>
    unfold execBody
    exact .pure ()
  | cons st ss =>
    unfold execBody
    have ht : Run.Halts
        (fun fuel => (reg.interpreter (.cancelAfter n trace) fuel).traceStatement st) s := by
      cases trace with
      | true => exact .ok (x := Run.noteStatement st) rfl rfl
      | false => exact .pure ()
    refine ht.bind fun _ s' hp _ => (exec_halts hc st s' (by omega)).bind fun _ s'' hp' _ => ?_
    exact execBody_halts hc ss s'' (by omega)

end

end Interpreter

/-! ## Host functions -/

theorem Registry.invoke_halts {o : Options} {name : Text} {args : List Value}
    (h : ∀ body, reg.resolve name args = .ok body →
      Run.Halts (fun fuel => body.perform (reg.interpreter o fuel))
        { s with calls := s.calls.push ⟨name, args⟩ }) :
    Run.Halts (fun fuel => reg.invoke o fuel name args) s := by
  cases hr : reg.resolve name args with
  | error e =>
    have hfail : Run.Halts (fun _ => do
        Run.noteCall name args
        (Run.fail (.error e) : Run σ (Option Value))) s := .step rfl rfl (.fail _)
    exact hfail.succ fun _ => by rw [invoke, hr]
  | ok body =>
    have hbody : Run.Halts (fun fuel => do
        Run.noteCall name args
        body.perform (reg.interpreter o fuel)) s := .step rfl rfl (h body hr)
    exact hbody.succ fun _ => by rw [invoke, hr]; rfl

theorem Routine.perform_halts (hc : CallsHalt reg n trace N) {body : Routine σ}
    (hf : body.FiniteFrom reg (.cancelAfter n trace) s) (hs : n - s.polls ≤ N) :
    Run.Halts (fun fuel => body.perform (reg.interpreter (.cancelAfter n trace) fuel)) s := by
  induction hf with
  | done => exact .pure _
  | fail => exact .fail _
  | inspect _ ih => exact .step rfl rfl (ih hs)
  | assign _ ih => exact .step rfl rfl (ih hs)
  | clear _ ih => exact .step rfl rfl (ih hs)
  | update _ ih => exact .step rfl rfl (ih hs)
  | invoke _ _ ihb ih =>
    refine (Registry.invoke_halts fun body hr => ihb body hr hs).bind fun v s' hp h => ?_
    exact ih v s' h (by omega)
  | run _ ih =>
    refine (Interpreter.execBlock_halts hc _ _ hs).bind fun _ s' hp h => ?_
    exact ih s' h (by omega)
  | eval _ ih =>
    refine (Interpreter.evalNode_halts hc _ _ hs).bind fun v s' hp h => ?_
    exact ih v s' h (by omega)
  | recover _ _ iha ih =>
    refine (iha hs).attempt.bind fun r s' hp h => ?_
    exact ih r s' h (by omega)

/-- A call that leaves fewer polls than before it ends if calls that leave fewer still do. -/
theorem Registry.Finitary.callsHalt (h : reg.Finitary (.cancelAfter n trace)) (N : Nat) :
    CallsHalt reg n trace N := by
  induction N with
  | zero => exact fun _ _ _ hlt => absurd hlt (Nat.not_lt_zero _)
  | succ N ih =>
    intro name args s hlt
    refine invoke_halts fun body hr => ?_
    exact Routine.perform_halts ih (h name args body hr _) (Nat.le_of_lt_succ hlt)

end

/-! ## Stock functions -/

namespace Stock

variable {programs : NameTable Block} {function : Text} {reg : Registry Counters} {o : Options}

theorem finiteFrom_check {γ : Type} {x : Except Failure γ} {next : γ → Routine Counters}
    {s : RunState Counters} (h : ∀ a, x = .ok a → (next a).FiniteFrom reg o s) :
    (check x next).FiniteFrom reg o s := by
  cases x with
  | ok a => exact h a rfl
  | error f => exact .fail

/-- A stock function that calls another hands on fewer arguments than it was given. -/
theorem finiteFrom_routine
    (hreg : ∀ name args body, reg.resolve name args = .ok body →
      ∃ (stock : Stock) (function : Text), body = stock.routine programs function args)
    (stock : Stock) (function : Text) (args : List Value) (s : RunState Counters) :
    (stock.routine programs function args).FiniteFrom reg o s := by
  induction hn : args.length using Nat.strongRecOn generalizing stock function args s with
  | ind n ih =>
    cases stock with
    | nothing | constant | echo | typeName | count | join => exact .done
    | raise | fail => exact .fail
    | counter => exact .update .done
    | clear => exact .clear .done
    | sum | expect => exact finiteFrom_check fun _ _ => .done
    | lookup => exact finiteFrom_check fun _ _ => .inspect .done
    | assign x =>
      cases args with
      | nil => exact .done
      | cons v rest => exact .assign .done
    | run slot =>
      simp only [routine]
      cases programs.find? slot with
      | some b => exact .run fun _ _ => .done
      | none => exact .done
    | call =>
      refine finiteFrom_check fun f hf => .invoke (fun body hb => ?_) fun _ _ _ => .done
      obtain ⟨stock, function, rfl⟩ := hreg f _ body hb
      cases args with
      | nil => cases hf
      | cons v rest => exact ih rest.length (by simp [← hn]) stock function rest _ rfl

end Stock

/-- What a session lets its programs call is made of stock functions. -/
theorem Session.resolve_registry {s : Session} {name : Text} {args : List Value}
    {body : Routine Counters} (h : s.registry.resolve name args = .ok body) :
    ∃ stock : Stock, body = stock.routine s.programs name args := by
  obtain ⟨f, hf, -, rfl⟩ := Registry.resolve_eq_ok h
  rw [registry, NameTable.find?_map, Option.map_eq_some_iff] at hf
  obtain ⟨d, -, rfl⟩ := hf
  exact ⟨d.stock, rfl⟩

theorem Session.registry_finitary (s : Session) (o : Options) : s.registry.Finitary o := by
  intro name args body hb st
  obtain ⟨stock, rfl⟩ := resolve_registry hb
  refine Stock.finiteFrom_routine (fun name args body h => ?_) stock name args st
  obtain ⟨stock, rfl⟩ := resolve_registry h
  exact ⟨stock, name, rfl⟩

/-! ## Cancellable runs -/

/-- Whatever the tree and the state, a run whose hook lets it go on `n` times ends, with a value or
with a failure. -/
theorem cancellable_ends (reg : Registry σ) (n : Nat) (trace : Bool)
    (h : reg.Finitary (.cancelAfter n trace)) (s : RunState σ) :
    (∀ b, ∃ r s', Run.Settles
      (fun fuel => (reg.interpreter (.cancelAfter n trace) fuel).execBlock b) s r s') ∧
    ∀ node, ∃ r s', Run.Settles
      (fun fuel => (reg.interpreter (.cancelAfter n trace) fuel).evalNode node) s r s' := by
  have hc := h.callsHalt (n - s.polls)
  refine ⟨fun b => ?_, fun node => ?_⟩
  · obtain ⟨r, s', -, hr⟩ := Interpreter.execBlock_halts hc b s (Nat.le_refl _)
    exact ⟨r, s', hr⟩
  · obtain ⟨r, s', -, hr⟩ := Interpreter.evalNode_halts hc node s (Nat.le_refl _)
    exact ⟨r, s', hr⟩

/-- A loop that calls a function that runs the loop again and goes on whatever comes of it. When the
hook fires in the inner run, the function swallows the cancellation, and the outer run goes on to its
next question. -/
theorem cancellable_ends_swallowed :
    let loop : Block := .mk .unset [.loop .unset
      ⟨.unset, .less, .number .unset (.ofNat 0), .number .unset (.ofNat 1)⟩
      (.mk .unset [.expr (.call .unset (Text.ascii "again") [])])]
    let body : Routine Unit := .recover (.run loop (.done none)) fun _ => .done none
    let reg : Registry Unit := ⟨[(Text.ascii "again", ⟨some 0, fun _ => body⟩)]⟩
    let run (fuel : Nat) := (reg.interpreter (.cancelAfter 3 true) fuel).execBlock loop
    reg.Finitary (.cancelAfter 3 true) ∧
    (∃ r s', Run.Settles run (RunState.start .empty ()) r s') ∧
    ((run 9).run (RunState.start .empty ())).2.polls = 5 := by
  intro loop body reg run
  have hf : reg.Finitary (.cancelAfter 3 true) := by
    intro name args routine hr s
    obtain ⟨f, -, hmem, rfl⟩ := Registry.resolve_eq_ok hr
    cases List.mem_singleton.mp hmem
    exact .recover (.run fun _ _ => .done) fun _ _ _ => .done
  exact ⟨hf, (cancellable_ends reg 3 true hf _).1 loop, by decide +kernel⟩

end ScriptEngine
