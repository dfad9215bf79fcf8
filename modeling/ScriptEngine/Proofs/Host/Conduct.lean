import ScriptEngine.Host.Registry
import ScriptEngine.Proofs.Run.Ends

/-!
# The conduct of host functions

What a program can count on depends on what its host functions may do. A `Conduct` says it of their
results and failures, of the environment and of programs they run, and `KeepsTo` that routines and
registries hold to it, in all that their functions do step by step.
-/

namespace ScriptEngine

variable {σ : Type}

structure Conduct where
  results : Option Value → Prop
  failures : Failure → Prop
  /-- Whether the environment may be looked at. -/
  reads : Prop
  /-- Whether the environment may be changed. -/
  writes : Prop
  /-- Whether programs may be run. -/
  runs : Prop

namespace Routine

def KeepsTo (c : Conduct) : Routine σ → Prop
  | done result => c.results result
  | fail f => c.failures f
  | inspect next => c.reads ∧ ∀ env, (next env).KeepsTo c
  | assign _ _ next | clear next => c.writes ∧ next.KeepsTo c
  | update _ next => ∀ s, (next s).KeepsTo c
  | invoke _ _ next => ∀ v, (next v).KeepsTo c
  | run _ next => c.runs ∧ next.KeepsTo c
  | eval _ next => c.runs ∧ ∀ v, (next v).KeepsTo c
  | recover attempt next => attempt.KeepsTo c ∧ ∀ r, (next r).KeepsTo c

/-- A routine that runs no program ends as it may, if the functions it calls fail as they may. -/
theorem KeepsTo.ends {c : Conduct} {it : Interpreter σ} (hruns : ¬ c.runs)
    (hi : ∀ name args, (it.invoke name args).Ends (fun _ => True) c.failures) {r : Routine σ}
    (h : r.KeepsTo c) : (r.perform it).Ends c.results c.failures := by
  induction r with
  | done v => exact .pure h
  | fail f => exact .fail h
  | inspect next ih => exact Run.Ends.environment.bind fun env _ => ih env (h.2 env)
  | assign name v next ih | clear next ih => exact (Run.Ends.modify _).bind fun _ _ => ih h.2
  | update f next ih => exact (Run.Ends.updateHost f).bind fun s _ => ih s (h s)
  | invoke name args next ih => exact (hi name args).bind fun v _ => ih v (h v)
  | run | eval => exact absurd h.1 hruns
  | recover attempt next _ ih => exact Run.Ends.attempt.bind fun r _ => ih r (h.2 r)

end Routine

/-- The function does not insist on another number of arguments. -/
def HostFunction.Accepts (f : HostFunction σ) (args : List Value) : Prop :=
  ∀ n, f.arity = some n → n = args.length

namespace Registry

variable {reg : Registry σ} {name : Text} {args : List Value} {f : HostFunction σ}

def KeepsTo (reg : Registry σ) (c : Conduct) : Prop :=
  ∀ e ∈ reg.entries, ∀ args, (e.2.body args).KeepsTo c

theorem resolve_eq_ok {r : Routine σ} (h : reg.resolve name args = .ok r) :
    ∃ f, reg.find? name = some f ∧ (name, f) ∈ reg.entries ∧ r = f.body args := by
  unfold resolve at h
  split at h
  · cases h
  · next f hf =>
    obtain ⟨l, l', hl, -⟩ := List.lookup_eq_some_iff.mp hf
    have hmem : (name, f) ∈ reg.entries := hl ▸ List.mem_append_right l List.mem_cons_self
    split at h
    · exact ⟨f, hf, hmem, (Except.ok.inj h).symm⟩
    · split at h
      · exact ⟨f, hf, hmem, (Except.ok.inj h).symm⟩
      · cases h

theorem resolve_eq_error {e : Error} (h : reg.resolve name args = .error e) :
    (reg.find? name = none ∧ e = unknownFunction name) ∨
      ∃ f n, reg.find? name = some f ∧ f.arity = some n ∧ n ≠ args.length ∧
        e = wrongArity name n args.length := by
  unfold resolve at h
  split at h
  · next hf => exact .inl ⟨hf, (Except.error.inj h).symm⟩
  · next f hf =>
    split at h
    · cases h
    · next n hn =>
      split at h
      · cases h
      · next hne => exact .inr ⟨f, n, hf, hn, hne, (Except.error.inj h).symm⟩

theorem resolve_of_find?_none (h : reg.find? name = none) :
    reg.resolve name args = .error (unknownFunction name) := by
  rw [resolve, h]

theorem resolve_of_arity {n : Nat} (h : reg.find? name = some f) (hn : f.arity = some n)
    (hne : n ≠ args.length) : reg.resolve name args = .error (wrongArity name n args.length) := by
  rw [resolve, h]
  simp only [hn]
  rw [if_neg hne]

theorem accepts_of_resolve {r : Routine σ} (hf : reg.find? name = some f)
    (h : reg.resolve name args = .ok r) : f.Accepts args := by
  intro n hn
  refine Decidable.byContradiction fun hne => ?_
  rw [resolve_of_arity hf hn hne] at h
  cases h

theorem resolve_of_accepts (h : reg.find? name = some f) (ha : f.Accepts args) :
    reg.resolve name args = .ok (f.body args) := by
  rw [resolve, h]
  cases hn : f.arity with
  | none => simp only [hn]
  | some n => simp only [hn, ha n hn, if_pos]

/-- Functions that run no program fail as they may, if the registry may refuse calls. -/
theorem KeepsTo.invoke_ends {c : Conduct} (h : reg.KeepsTo c) (hruns : ¬ c.runs)
    (hrefuse : ∀ {name args e}, reg.resolve name args = .error e → c.failures (.error e))
    (options : Options) (fuel : Nat) (name : Text) (args : List Value) :
    (reg.invoke options fuel name args).Ends (fun _ => True) c.failures := by
  induction fuel generalizing name args with
  | zero => exact .unfinished
  | succ fuel ih =>
    refine (Run.Ends.modify _).bind fun _ _ => ?_
    cases hr : reg.resolve name args with
    | error e => exact .fail (hrefuse hr)
    | ok routine =>
      obtain ⟨f, -, hf, rfl⟩ := resolve_eq_ok hr
      exact ((h _ hf args).ends hruns ih).mono (fun _ _ => trivial) fun _ h => h

end Registry

end ScriptEngine
