import ScriptEngine.Proofs.Session.History

/-!
# The last write wins

Whatever an application has done, its environment binds each name to the last value that was assigned
to it since the environment was last cleared, by the application itself, by a program or by a host
function, in a run that went well or in one that failed or was cancelled. All ways to read the
environment say so (`Environment.Reflects`), and it lists its names in the order of their bytes.
-/

namespace ScriptEngine

variable {σ : Type}

/-! ## The order of names -/

/-- The order of unsigned bytes: a text comes after its own beginnings, and otherwise the first byte
that differs decides. -/
def Text.Precedes (a b : Text) : Prop :=
  (∃ x rest, b = a ++ x :: rest) ∨
    ∃ common x y a' b', a = common ++ x :: a' ∧ b = common ++ y :: b' ∧ x.toNat < y.toNat

theorem Text.precedes_of_lt {a b : Text} (h : a < b) : a.Precedes b := by
  induction h with
  | nil => exact .inl ⟨_, _, rfl⟩
  | rel hxy => exact .inr ⟨[], _, _, _, _, rfl, rfl, hxy⟩
  | @cons z a b _ ih =>
    rcases ih with ⟨x, rest, rfl⟩ | ⟨common, x, y, a', b', rfl, rfl, hxy⟩
    · exact .inl ⟨x, rest, rfl⟩
    · exact .inr ⟨z :: common, x, y, a', b', rfl, rfl, hxy⟩

/-! ## What was written last -/

namespace Event

/-- What the name was bound to before no longer counts. -/
def Overwrites (name : Text) (e : Event σ) : Prop := e = .clear ∨ ∃ v, e = .assign name v

/-- `v` is the last value assigned to the name since the last time that all was cleared. -/
def LastAssigned (es : List (Event σ)) (name : Text) (v : Value) : Prop :=
  IsLast (Overwrites name) es (.assign name v)

theorem find?_writeTo {env : Environment} {e : Event σ} {name : Text} {v : Value} :
    (e.writeTo env).find? name = some v ↔
      e = .assign name v ∨ ¬ e.Overwrites name ∧ env.find? name = some v := by
  cases e with
  | assign other w =>
    rw [writeTo, NameTable.find?_insert_eq_some_iff]
    simp [Overwrites]
  | _ => simp [writeTo, Overwrites]

end Event

/-- An environment that was empty at first binds the names to what was written last. -/
theorem Environment.find?_replay {es : List (Event σ)} {name : Text} {v : Value} :
    (replay NameTable.empty es).find? name = some v ↔ Event.LastAssigned es name v := by
  refine iff_isLast (Q := fun es => (replay NameTable.empty es).find? name = some v) ?_ ?_ es
  · simp [replay]
  · intro es e
    rw [replay_append]
    exact Event.find?_writeTo

theorem Environment.isOrdered_replay {env : Environment} (h : env.IsOrdered)
    (es : List (Event σ)) : (replay env es).IsOrdered := by
  induction es generalizing env with
  | nil => exact h
  | cons e es ih =>
    apply ih
    cases e with
    | assign name v => exact h.insert name v
    | clear => exact NameTable.isOrdered_empty
    | _ => exact h

/-! ## What can be read off an environment -/

/-- All that can be read off the environment is what the events wrote last. -/
structure Environment.Reflects (env : Environment) (es : List (Event σ)) : Prop where
  find (name : Text) (v : Value) : env.find? name = some v ↔ Event.LastAssigned es name v
  get (name : Text) (v : Value) : env.get name = .ok v ↔ Event.LastAssigned es name v
  outOfRange (name : Text) : env.get name = .error .outOfRange ↔ env.find? name = none
  contains (name : Text) : env.contains name = true ↔ ∃ v, Event.LastAssigned es name v
  listed (name : Text) : name ∈ env.names ↔ ∃ v, Event.LastAssigned es name v
  increasing : env.names.Pairwise Text.Precedes
  size : env.names.length = env.size

theorem Environment.reflects_replay (es : List (Event σ)) :
    (replay NameTable.empty es).Reflects es where
  find _ _ := find?_replay
  get _ _ := NameTable.get_eq_ok.trans find?_replay
  outOfRange _ := NameTable.get_eq_error
  contains _ := by simp only [NameTable.contains, Option.isSome_iff_exists, find?_replay]
  listed _ := by simp only [NameTable.mem_names, find?_replay]
  increasing := (isOrdered_replay NameTable.isOrdered_empty es).imp Text.precedes_of_lt
  size := NameTable.length_names _

/-- After any steps, and all along the runs of the next one, an environment reflects what has been
written into it so far. So does each environment of a session. -/
theorem environment_reflects_writes :
    (∀ (host : σ) (steps : List (Embedding.Step σ)),
      let a := (Embedding.start host).after steps
      let written := (Embedding.start host).history steps
      a.env.Reflects written ∧
      ∀ x, ∀ env ∈ a.moments x, ∃ es, es <+: a.events x ∧ env.Reflects (written ++ es)) ∧
    ∀ (steps : List Session.Step) (env : Text),
      ((Session.start.after steps).environment env).Reflects (Session.start.history env steps) := by
  refine ⟨fun host steps => ?_, fun steps env => ?_⟩
  · have henv := (Embedding.start host).env_after steps
    refine ⟨henv ▸ Environment.reflects_replay _, fun x env hx => ?_⟩
    obtain ⟨es, hes, rfl⟩ := Embedding.exists_replay_of_mem_moments _ hx
    refine ⟨es, hes, ?_⟩
    rw [henv]
    exact Environment.replay_append _ _ es ▸ Environment.reflects_replay _
  · rw [Session.environment_after]
    exact Environment.reflects_replay _

end ScriptEngine
