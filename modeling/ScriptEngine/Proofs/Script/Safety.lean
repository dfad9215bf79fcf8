import ScriptEngine.Proofs.Host.Conduct
import ScriptEngine.Proofs.Run.Safety
import ScriptEngine.Proofs.Run.ValueStack
import ScriptEngine.Proofs.Script.RoundTrip

/-!
# Compiled scripts run safely

Whatever the source, the environment, the options and the host functions, as long as these fail by
invocation errors only, a compiled script fails by the errors of a script only, and so does each of
its expressions (`run_compiled_safe`).
-/

namespace ScriptEngine

variable {σ : Type}

/-! ## Host functions -/

namespace Routine

/-- The routine fails by invocation errors only, and runs no program. -/
def Obliging : Routine σ → Prop
  | done _ => True
  | fail f => f.isInvocation = true
  | inspect next => ∀ env, (next env).Obliging
  | assign _ _ next | clear next => next.Obliging
  | update _ next => ∀ s, (next s).Obliging
  | invoke _ _ next => ∀ v, (next v).Obliging
  | run _ _ | eval _ _ => False
  | recover attempt next => attempt.Obliging ∧ ∀ r, (next r).Obliging

theorem Obliging.perform {it : Interpreter σ} (hi : it.Obliging) {r : Routine σ} (h : r.Obliging) :
    (r.perform it).Ends (fun _ => True) (·.isInvocation = true) := by
  induction r with
  | done => exact .pure trivial
  | fail f => exact .fail h
  | inspect next ih => exact Run.Ends.environment.bind fun env _ => ih env (h env)
  | assign name v next ih | clear next ih => exact (Run.Ends.modify _).bind fun _ _ => ih h
  | update f next ih => exact (Run.Ends.updateHost f).bind fun s _ => ih s (h s)
  | invoke name args next ih => exact (hi name args).bind fun v _ => ih v (h v)
  | run | eval => cases h
  | recover attempt next _ ih => exact Run.Ends.attempt.bind fun r _ => ih r (h.2 r)

end Routine

namespace Registry

variable {reg : Registry σ}

/-- A registry of obliging functions is obliging. -/
theorem obliging (h : ∀ e ∈ reg.entries, ∀ args, (e.2.body args).Obliging) (options : Options)
    (fuel : Nat) : (reg.interpreter options fuel).Obliging := by
  induction fuel with
  | zero => exact fun _ _ => .unfinished
  | succ fuel ih =>
    -- The functions that a function calls have less fuel.
    intro name args
    refine (Run.Ends.modify _).bind fun _ _ => ?_
    cases hr : reg.resolve name args with
    | error e =>
      rcases resolve_eq_error hr with ⟨-, rfl⟩ | ⟨f, n, -, -, -, rfl⟩ <;> exact .fail rfl
    | ok r =>
      obtain ⟨f, -, hf, rfl⟩ := resolve_eq_ok hr
      exact Routine.Obliging.perform ih (h _ hf args)

end Registry

/-! ## Scripts -/

namespace Script

/-- A compiled script runs safely, as a whole and expression by expression, and its run on a value
stack never finds the stack empty. -/
theorem run_compiled_safe {file source : Text} {script : Script}
    (hc : compile file source = .ok script) (reg : Registry σ) (options : Options) (fuel : Nat)
    (hr : (reg.interpreter options fuel).Obliging) :
    let it := reg.interpreter options fuel
    ((it.execBlock script.root).Safe ∧ (it.visitBlock script.root).Agrees (it.execBlock script.root) ∧
      ¬ (it.visitBlock script.root).Underflows) ∧
    ∀ e, .expr e ∈ script.root.toNode.preorder →
      (it.evalNode (.expr e)).Safe ∧ (it.visit e).value.Agrees (it.evalNode (.expr e)) ∧
        ¬ (it.visit e).value.Underflows := by
  intro it
  obtain ⟨root, file'⟩ := script
  obtain rfl : file' = file := file_of_compile hc
  have hw := wellFormed_of_compile hc
  have hb := it.visitBlock_agrees root
  refine ⟨⟨Interpreter.execBlock_safe hr root hw, hb, hb.not_underflows⟩, fun e he => ?_⟩
  obtain ⟨p, hp⟩ := hw.exprs e he
  have ha : (it.visit e).value.Agrees (it.eval e) := by
    rw [Interpreter.value_visit]
    exact StackRun.agrees_ofRun _
  exact ⟨Interpreter.eval_safe hr e hp, ha, ha.not_underflows⟩

theorem run_compiled_safe_loop :
    ∃ (script : Script) (reg : Registry Unit),
      compile [] (Text.ascii "while x<2 f(x+g()) endwhile") = .ok script ∧
      (reg.interpreter ⟨some (.after 3), true⟩ 5).Obliging ∧
      ((reg.interpreter ⟨some (.after 3), true⟩ 5).execBlock script.root).Safe ∧
      ¬ ((reg.interpreter ⟨some (.after 3), true⟩ 5).visitBlock script.root).Underflows := by
  let reg : Registry Unit :=
    ⟨[(Text.ascii "f", ⟨some 1, fun _ => .done none⟩),
      (Text.ascii "g", ⟨none, fun vs => .invoke (Text.ascii "f") vs .done⟩)]⟩
  have hr : ∀ e ∈ reg.entries, ∀ args, (e.2.body args).Obliging := by
    intro e he args
    rcases List.mem_cons.mp he with rfl | he
    · trivial
    · cases List.mem_singleton.mp he
      exact fun v => trivial
  have hi := Registry.obliging hr ⟨some (.after 3), true⟩ 5
  have hok : (compile [] (Text.ascii "while x<2 f(x+g()) endwhile")).isOk = true := by
    decide +kernel
  cases hc : compile [] (Text.ascii "while x<2 f(x+g()) endwhile") with
  | error r =>
    rw [hc] at hok
    cases hok
  | ok script =>
    obtain ⟨hs, -, hu⟩ := (run_compiled_safe hc reg _ _ hi).1
    exact ⟨script, reg, rfl, hi, hs, hu⟩

end Script

end ScriptEngine
