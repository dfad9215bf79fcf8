import Mathlib.Data.List.Induction
import ScriptEngine.Proofs.Run.Plan
import ScriptEngine.Session

/-!
# What applications do

An application that embeds the engine writes into environments, defines functions, invokes them and
runs programs, in any order and whatever comes of it. An `Embedding` does so with one environment and
any host functions, a `Session` with several environments and stock functions.

The environment that an application has come to is made of the events of its steps and of nothing
else (`Embedding.env_after`, `Session.environment_after`).
-/

namespace ScriptEngine

variable {σ β : Type}

/-! ## The last of its sort -/

/-- `x` stands in the list, and nothing with `P` after it. -/
def IsLast (P : β → Prop) (xs : List β) (x : β) : Prop :=
  ∃ before after, xs = before ++ x :: after ∧ ∀ y ∈ after, ¬ P y

section IsLast

variable {P : β → Prop} {xs : List β} {x y : β}

theorem isLast_nil : ¬ IsLast P [] x := by
  rintro ⟨before, after, h, -⟩
  cases before <;> cases h

theorem isLast_concat : IsLast P (xs ++ [y]) x ↔ y = x ∨ ¬ P y ∧ IsLast P xs x := by
  constructor
  · rintro ⟨before, after, h, hafter⟩
    rcases List.eq_nil_or_concat after with rfl | ⟨after, z, rfl⟩
    · exact .inl (List.head_eq_of_cons_eq (List.append_inj' h rfl).2)
    · rw [List.concat_eq_append] at h hafter
      rw [← List.cons_append, ← List.append_assoc] at h
      obtain ⟨rfl, hz⟩ := List.append_inj' h rfl
      cases hz
      exact .inr ⟨hafter y List.mem_concat_self, before, after, rfl, fun z hz =>
        hafter z (List.mem_append_left _ hz)⟩
  · rintro (rfl | ⟨hy, before, after, rfl, hafter⟩)
    · exact ⟨xs, [], rfl, fun _ h => by cases h⟩
    · refine ⟨before, after ++ [y], by simp, fun z hz => ?_⟩
      rcases List.mem_append.mp hz with hz | hz
      · exact hafter z hz
      · rw [List.mem_singleton.mp hz]
        exact hy

/-- What comes about with `x` and is put an end to by anything with `P` holds as long as `x` is the
last of its sort. -/
theorem iff_isLast {Q : List β → Prop} (hnil : ¬ Q [])
    (hstep : ∀ xs y, Q (xs ++ [y]) ↔ y = x ∨ ¬ P y ∧ Q xs) (xs : List β) :
    Q xs ↔ IsLast P xs x := by
  induction xs using List.reverseRecOn with
  | nil => exact iff_of_false hnil isLast_nil
  | append_singleton xs y ih => rw [hstep, isLast_concat, ih]

theorem IsLast.mem (h : IsLast P xs x) : x ∈ xs := by
  obtain ⟨before, after, rfl, -⟩ := h
  simp

theorem exists_isLast (hx : x ∈ xs) (hP : P x) : ∃ y, P y ∧ IsLast P xs y := by
  induction xs using List.reverseRecOn with
  | nil => cases hx
  | append_singleton xs z ih =>
    by_cases hz : P z
    · exact ⟨z, hz, isLast_concat.mpr (.inl rfl)⟩
    · have hxs : x ∈ xs := by
        rcases List.mem_append.mp hx with h | h
        · exact h
        · rw [List.mem_singleton.mp h] at hP
          exact absurd hP hz
      obtain ⟨y, hy, hlast⟩ := ih hxs
      exact ⟨y, hy, isLast_concat.mpr (.inr ⟨hz, hlast⟩)⟩

theorem exists_mem_iff_exists_isLast {γ : Type} {f : γ → β} :
    (∃ c, f c ∈ xs) ↔ ∃ c, IsLast (fun x => ∃ c, x = f c) xs (f c) := by
  constructor
  · rintro ⟨c, hc⟩
    obtain ⟨_, ⟨d, rfl⟩, hd⟩ := exists_isLast (P := fun x => ∃ c, x = f c) hc ⟨c, rfl⟩
    exact ⟨d, hd⟩
  · rintro ⟨c, hc⟩
    exact ⟨c, hc.mem⟩

end IsLast

/-! ## Events and the environment -/

/-- What the event makes of an environment. -/
def Event.writeTo (env : Environment) : Event σ → Environment
  | assign name value => env.insert name value
  | clear => NameTable.empty
  | _ => env

/-- The environment after some events. -/
def Environment.replay (env : Environment) (es : List (Event σ)) : Environment :=
  es.foldl Event.writeTo env

theorem Environment.replay_append (env : Environment) (es es' : List (Event σ)) :
    replay env (es ++ es') = replay (replay env es) es' :=
  List.foldl_append

theorem RunState.env_replay_eq (o : Options) (s : RunState σ) (es : List (Event σ)) :
    (s.replay o es).env = Environment.replay s.env es := by
  induction es generalizing s with
  | nil => rfl
  | cons e es ih =>
    refine (ih (e.note o s)).trans (congrArg (Environment.replay · es) ?_)
    cases e with
    | statement | poll =>
      rw [Event.note]
      split <;> rfl
    | _ => rfl

theorem Run.Follows.env_run {α : Type} {o : Options} {x : Run σ α} {c : Course σ α}
    (h : x.Follows o c) (s : RunState σ) :
    (x.run s).2.env = Environment.replay s.env (c.history o s) := by
  rw [h s, Course.run_state, RunState.env_replay_eq]

/-- The states that a run goes through. -/
def Course.states {α : Type} (o : Options) : Course σ α → RunState σ → List (RunState σ)
  | done _, s => [s]
  | unfinished, s => [s]
  | look next, s => (next s.env s.host).states o s
  | act e next, s => s :: (next (e.stop? o (e.note o s))).states o (e.note o s)

theorem Course.exists_replay_of_mem_states {α : Type} {o : Options} {c : Course σ α}
    {s t : RunState σ} (h : t ∈ c.states o s) :
    ∃ es, es <+: c.history o s ∧ t = s.replay o es := by
  induction c generalizing s with
  | done | unfinished =>
    obtain rfl := List.mem_singleton.mp h
    exact ⟨[], List.nil_prefix, rfl⟩
  | look next ih => exact ih _ _ h
  | act e next ih =>
    rw [states] at h
    rw [history]
    rcases List.mem_cons.mp h with rfl | h
    · exact ⟨[], List.nil_prefix, rfl⟩
    · obtain ⟨es, hes, rfl⟩ := ih _ h
      exact ⟨e :: es, (List.prefix_cons_inj e).mpr hes, rfl⟩

/-! ## One environment, any host functions -/

structure Embedding (σ : Type) where
  registry : Registry σ
  env : Environment
  /-- What the host functions keep. -/
  host : σ

namespace Embedding

/-- Each run has options and fuel of its own. -/
inductive Step (σ : Type) where
  | assign (name : Text) (value : Value)
  | clear
  | define (name : Text) (f : HostFunction σ)
  | invoke (o : Options) (fuel : Nat) (name : Text) (args : List Value)
  | run (o : Options) (fuel : Nat) (b : Block)
  | eval (o : Options) (fuel : Nat) (n : Node)

def start (host : σ) : Embedding σ := ⟨NameTable.empty, NameTable.empty, host⟩

variable (a : Embedding σ)

/-- The state in which runs start. -/
def state : RunState σ := RunState.start a.env a.host

/-- Goes on with what a run leaves behind. -/
def keep (s : RunState σ) : Embedding σ := { a with env := s.env, host := s.host }

def step : Step σ → Embedding σ
  | .assign name value => { a with env := a.env.insert name value }
  | .clear => { a with env := NameTable.empty }
  | .define name f => { a with registry := a.registry.define name f }
  | .invoke o fuel name args => a.keep ((a.registry.invoke o fuel name args).run a.state).2
  | .run o fuel b => a.keep (((a.registry.interpreter o fuel).execBlock b).run a.state).2
  | .eval o fuel n => a.keep (((a.registry.interpreter o fuel).evalNode n).run a.state).2

def after (steps : List (Step σ)) : Embedding σ := steps.foldl step a

/-- The events of a step, up to where it fails or is cancelled. -/
def events : Step σ → List (Event σ)
  | .assign name value => [.assign name value]
  | .clear => [.clear]
  | .define _ _ => []
  | .invoke o fuel name args => (a.registry.course fuel name args).history o a.state
  | .run o fuel b => ((a.registry.plan fuel).execBlock b).history o a.state
  | .eval o fuel n => ((a.registry.plan fuel).evalNode n).history o a.state

/-- The environments that a run goes through, and that its host functions can look at. -/
def moments : Step σ → List Environment
  | .invoke o fuel name args =>
    ((a.registry.course fuel name args).states o a.state).map RunState.env
  | .run o fuel b => (((a.registry.plan fuel).execBlock b).states o a.state).map RunState.env
  | .eval o fuel n => (((a.registry.plan fuel).evalNode n).states o a.state).map RunState.env
  | .assign _ _ | .clear | .define _ _ => []

def history (a : Embedding σ) : List (Step σ) → List (Event σ)
  | [] => []
  | x :: xs => a.events x ++ (a.step x).history xs

theorem after_concat (steps : List (Step σ)) (x : Step σ) :
    a.after (steps ++ [x]) = (a.after steps).step x := by
  simp [after]

theorem env_step (x : Step σ) : (a.step x).env = a.env.replay (a.events x) := by
  cases x with
  | assign | clear | define => rfl
  | invoke o fuel name args =>
    exact ((a.registry.interpreter_follows o fuel).invoke name args).env_run a.state
  | run o fuel b =>
    exact (Interpreter.execBlock_follows (a.registry.interpreter_follows o fuel) b).env_run a.state
  | eval o fuel n =>
    exact (Interpreter.evalNode_follows (a.registry.interpreter_follows o fuel) n).env_run a.state

theorem exists_replay_of_mem_moments {x : Step σ} {env : Environment} (h : env ∈ a.moments x) :
    ∃ es, es <+: a.events x ∧ env = a.env.replay es := by
  cases x with
  | assign | clear | define => cases h
  | _ =>
    obtain ⟨t, ht, rfl⟩ := List.mem_map.mp h
    obtain ⟨es, hes, rfl⟩ := Course.exists_replay_of_mem_states ht
    exact ⟨es, hes, RunState.env_replay_eq _ _ es⟩

theorem env_after (steps : List (Step σ)) :
    (a.after steps).env = a.env.replay (a.history steps) := by
  induction steps generalizing a with
  | nil => rfl
  | cons x xs ih =>
    refine (ih (a.step x)).trans ?_
    rw [env_step, history, Environment.replay_append]

end Embedding

/-! ## Sessions -/

namespace Session

inductive Step where
  | assign (env name : Text) (value : Value)
  | clear (env : Text)
  | define (name : Text) (d : Definition)
  | store (slot : Text) (p : Program)
  | compile (slot file source : Text)
  | invoke (env name : Text) (args : List Value)
  | run (env : Text) (o : Options) (b : Block)
  | eval (env : Text) (o : Options) (n : Node)

variable (s : Session)

def step : Step → Session
  | .assign env name value => s.assign env name value
  | .clear env => s.clear env
  | .define name d => s.define name d
  | .store slot p => s.store slot p
  | .compile slot file source => (s.compile slot file source).2
  | .invoke env name args => (s.invoke env name args).2
  | .run env o b => (s.run env o b).2
  | .eval env o n => (s.eval env o n).2

def after (steps : List Step) : Session := steps.foldl step s

/-- What the step does with the environment called `env`. -/
def Step.on (env : Text) : Step → Option (Embedding.Step Counters)
  | assign e name value => if e = env then some (.assign name value) else none
  | clear e => if e = env then some .clear else none
  | invoke e name args => if e = env then some (.invoke Options.plain fuel name args) else none
  | run e o b => if e = env then some (.run o fuel b) else none
  | eval e o n => if e = env then some (.eval o fuel n) else none
  | define _ _ | store _ _ | compile _ _ _ => none

/-- The session as it stands for one of its environments. -/
def view (env : Text) : Embedding Counters := ⟨s.registry, s.environment env, s.counters⟩

/-- What happens to the environment called `env` in a step. -/
def events (env : Text) (x : Step) : List (Event Counters) :=
  (x.on env).elim [] (s.view env).events

def history (s : Session) (env : Text) : List Step → List (Event Counters)
  | [] => []
  | x :: xs => s.events env x ++ (s.step x).history env xs

theorem after_concat (steps : List Step) (x : Step) :
    s.after (steps ++ [x]) = (s.after steps).step x := by
  simp [after]

theorem environment_setEnvironment (s : Session) (other env : Text) (e : Environment) :
    (s.setEnvironment other e).environment env = if other = env then e else s.environment env := by
  rw [environment, setEnvironment]
  split
  · next h => rw [h, NameTable.find?_insert_self]; rfl
  · next h => rw [NameTable.find?_insert_of_ne (Ne.symm h)]; rfl

/-- A compilation changes slots only. -/
theorem exists_compile_eq (s : Session) (slot file source : Text) :
    ∃ slots, (s.compile slot file source).2 = { s with slots } := by
  rw [compile]
  split
  · exact ⟨_, rfl⟩
  · exact ⟨s.slots, rfl⟩

theorem environment_perform {α : Type} (s : Session) (other env : Text) (x : Run Counters α) :
    (s.perform other x).2.environment env =
      if other = env then (x.run (s.view env).state).2.env else s.environment env := by
  refine (environment_setEnvironment _ other env _).trans ?_
  split
  · next h => rw [h]; rfl
  · rfl

/-- A step changes an environment as the embedding for it says, or not at all. -/
theorem environment_step (s : Session) (x : Step) (env : Text) :
    (s.step x).environment env = ((x.on env).map fun y => ((s.view env).step y).env).getD
      (s.environment env) := by
  cases x with
  | define | store => rfl
  | compile slot file source =>
    obtain ⟨slots, h⟩ := s.exists_compile_eq slot file source
    rw [step, h]
    rfl
  | assign other | clear other =>
    refine (environment_setEnvironment s other env _).trans ?_
    rw [Step.on]
    split
    · next h => subst h; rfl
    · rfl
  | invoke other | run other | eval other =>
    refine (environment_perform s other env _).trans ?_
    rw [Step.on]
    split
    · rfl
    · rfl

theorem environment_replay (s : Session) (x : Step) (env : Text) :
    (s.step x).environment env = (s.environment env).replay (s.events env x) := by
  rw [environment_step, events]
  cases x.on env with
  | none => rfl
  | some y => exact (s.view env).env_step y

theorem environment_after (s : Session) (env : Text) (steps : List Step) :
    (s.after steps).environment env = (s.environment env).replay (s.history env steps) := by
  induction steps generalizing s with
  | nil => rfl
  | cons x xs ih =>
    refine (ih (s.step x)).trans ?_
    rw [environment_replay, history, Environment.replay_append]

end Session

end ScriptEngine
