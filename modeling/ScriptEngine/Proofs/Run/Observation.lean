import ScriptEngine.Proofs.Run.Cancellation

/-!
# Observation

A run may be watched in two ways: by a trace, and by a hook that is asked whether to go on and never
says no. Neither changes what the run does, nor does one of them see the other
(`observation_neutral`).

The events of a course that is not cancelled are the same whoever watches
(`Course.history_of_lenient`). All that the options decide is which of them are written down.
-/

namespace ScriptEngine

variable {σ α : Type}

/-- There is no hook, or one that lets every run go on. -/
def Options.Lenient (o : Options) : Prop := ∀ k, o.cancel.any (· k) = false

/-- A run that is watched by a lenient hook or not, and traced or not. -/
def Options.watching (hook trace : Bool) : Options :=
  ⟨if hook then some fun _ => false else none, trace⟩

theorem Options.lenient_watching (hook trace : Bool) : (watching hook trace).Lenient := by
  intro k
  cases hook <;> rfl

/-! ## The same events -/

/-- The states are the same to all that a program can look at. -/
structure RunState.Matches (s s' : RunState σ) : Prop where
  env : s'.env = s.env
  host : s'.host = s.host

theorem Event.note_matches {s s' : RunState σ} (h : s.Matches s') (o o' : Options) (e : Event σ) :
    (e.note o s).Matches (e.note o' s') := by
  obtain ⟨he, hh⟩ := h
  cases e with
  | statement | poll =>
    rw [note, note]
    constructor <;> split <;> split <;> assumption
  | assign | clear | update | call => constructor <;> simp [note, he, hh]

theorem RunState.replay_matches {s s' : RunState σ} (h : s.Matches s') (o o' : Options)
    (es : List (Event σ)) : (s.replay o es).Matches (s'.replay o' es) := by
  induction es generalizing s s' with
  | nil => exact h
  | cons e es ih => exact ih (e.note_matches h o o')

namespace Course

variable {o o' : Options}

/-- What happens in a run, and how it ends, is the same whoever watches. -/
theorem history_of_lenient (ho : o.Lenient) (ho' : o'.Lenient) (c : Course σ α)
    {s s' : RunState σ} (h : s.Matches s') :
    c.history o' s' = c.history o s ∧ (c.run o' s').1 = (c.run o s).1 := by
  induction c generalizing s s' with
  | done | unfinished => exact ⟨rfl, rfl⟩
  | look next ih =>
    simp only [run, history, h.env, h.host]
    exact ih _ _ h
  | act e next ih =>
    have hs : e.stop? o (e.note o s) = none := e.stop?_eq_none (fun k _ => ho k) (Nat.le_refl _)
    have hs' : e.stop? o' (e.note o' s') = none :=
      e.stop?_eq_none (fun k _ => ho' k) (Nat.le_refl _)
    obtain ⟨hh, hr⟩ := ih none (e.note_matches h o o')
    simp only [run, history, hs, hs']
    exact ⟨congrArg (e :: ·) hh, hr⟩

end Course

/-! ## Watched runs -/

namespace Job

/-- The events of a run that nobody watches. -/
def events (p : Job σ α) (fuel : Nat) (s : RunState σ) : List (Event σ) :=
  (p.course fuel).history (.watching false false) s

/-- Every watched run is told by the one that nobody watches. -/
theorem run_watching (p : Job σ α) (fuel : Nat) (s : RunState σ) (hook trace : Bool) :
    (p.run (.watching hook trace) fuel).run s =
      (((p.course fuel).run (.watching false false) s).1,
        s.replay (.watching hook trace) (p.events fuel s)) := by
  obtain ⟨hh, hr⟩ := (p.course fuel).history_of_lenient (Options.lenient_watching false false)
    (Options.lenient_watching hook trace) (s := s) ⟨rfl, rfl⟩
  rw [p.follows]
  refine Prod.ext hr ?_
  rw [Course.run_state, hh]
  rfl

/-- Whoever watches, the run does the same. -/
structure Unaffected (p : Job σ α) (fuel : Nat) (s : RunState σ) : Prop where
  /-- The result, and what the run leaves behind. -/
  work (hook trace hook' trace' : Bool) :
    let r := (p.run (.watching hook trace) fuel).run s
    let r' := (p.run (.watching hook' trace') fuel).run s
    r'.1 = r.1 ∧ r'.2.env = r.2.env ∧ r'.2.host = r.2.host ∧ r'.2.calls = r.2.calls
  /-- The hook does not show in the trace. -/
  trace (hook hook' trace : Bool) :
    ((p.run (.watching hook' trace) fuel).run s).2.traceText =
      ((p.run (.watching hook trace) fuel).run s).2.traceText
  /-- The trace does not show in the number of polls. -/
  polls (hook trace trace' : Bool) :
    ((p.run (.watching hook trace') fuel).run s).2.polls =
      ((p.run (.watching hook trace) fuel).run s).2.polls

theorem unaffected (p : Job σ α) (fuel : Nat) (s : RunState σ) : p.Unaffected fuel s := by
  have hmatch (hook trace hook' trace' : Bool) :=
    RunState.replay_matches (s := s) ⟨rfl, rfl⟩ (.watching hook trace) (.watching hook' trace')
      (p.events fuel s)
  refine ⟨fun hook trace hook' trace' => ?_, fun hook hook' trace => ?_,
    fun hook trace trace' => ?_⟩
  · simp only [run_watching, true_and]
    refine ⟨(hmatch hook trace hook' trace').env, (hmatch hook trace hook' trace').host, ?_⟩
    rw [← Array.toList_inj, RunState.replay_calls, RunState.replay_calls]
  · simp only [run_watching, RunState.traceText, RunState.replay_trace]
    rfl
  · simp only [run_watching, RunState.replay_polls]
    rfl

end Job

/-- Whatever the tree, the state and the host functions, also those that run programs again, nobody
who watches a run changes it. -/
theorem observation_neutral (reg : Registry σ) (fuel : Nat) (s : RunState σ) :
    (∀ b, (reg.executing b).Unaffected fuel s) ∧ ∀ node, (reg.evaluating node).Unaffected fuel s :=
  ⟨fun b => (reg.executing b).unaffected fuel s,
    fun node => (reg.evaluating node).unaffected fuel s⟩

end ScriptEngine
