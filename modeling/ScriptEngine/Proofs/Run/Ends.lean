import ScriptEngine.Run.State

/-!
# How runs end

`x.Ends P Q`: whatever the state it starts in, `x` gives a value with `P`, fails in a way with `Q`, or
is cut off. There is a rule for each way in which runs are put together.
-/

namespace ScriptEngine

namespace Run

variable {σ α β : Type}

theorem run_bind (x : Run σ α) (f : α → Run σ β) (s : RunState σ) :
    (x >>= f).run s =
      match x.run s with
      | (.ok a, s') => (f a).run s'
      | (.error e, s') => (.error e, s') := by
  show (match x.run s with | (r, s') => ExceptT.bindCont f r s') = _
  rcases x.run s with ⟨_ | _, _⟩ <;> rfl

section Bind

variable {x : Run σ α} {f : α → Run σ β} {s t : RunState σ}

theorem bind_of_ok {a : α} (h : x.run s = (.ok a, t)) : (x >>= f).run s = (f a).run t := by
  rw [run_bind, h]

theorem bind_of_error {e : Stop} (h : x.run s = (.error e, t)) :
    (x >>= f).run s = (.error e, t) := by
  rw [run_bind, h]

theorem bind_eq_ok {b : β} (h : (x >>= f).run s = (.ok b, t)) :
    ∃ a s', x.run s = (.ok a, s') ∧ (f a).run s' = (.ok b, t) := by
  rw [run_bind] at h
  generalize x.run s = r at h ⊢
  rcases r with ⟨e | a, s'⟩
  · cases h
  · exact ⟨a, s', rfl, h⟩

theorem bind_eq_error {e : Stop} (h : (x >>= f).run s = (.error e, t)) :
    x.run s = (.error e, t) ∨ ∃ a s', x.run s = (.ok a, s') ∧ (f a).run s' = (.error e, t) := by
  rw [run_bind] at h
  generalize x.run s = r at h ⊢
  rcases r with ⟨e' | a, s'⟩
  · cases h
    exact .inl rfl
  · exact .inr ⟨a, s', rfl, h⟩

end Bind

theorem run_mapFailure (g : Failure → Failure) (x : Run σ α) (s : RunState σ) :
    (x.mapFailure g).run s =
      match x.run s with
      | (.ok a, s') => (.ok a, s')
      | (.error (.failed f), s') => (.error (.failed (g f)), s')
      | (.error .unfinished, s') => (.error .unfinished, s') := by
  simp only [mapFailure, tryCatch, tryCatchThe, MonadExceptOf.tryCatch, ExceptT.tryCatch,
    ExceptT.run, ExceptT.mk, bind, StateT.bind]
  rcases x s with ⟨(_ | _) | _, _⟩ <;> rfl

theorem run_attempt (x : Run σ α) (s : RunState σ) :
    (x.attempt).run s =
      match x.run s with
      | (.ok a, s') => (.ok (.ok a), s')
      | (.error (.failed f), s') => (.ok (.error f), s')
      | (.error .unfinished, s') => (.error .unfinished, s') := by
  simp only [attempt, tryCatch, tryCatchThe, MonadExceptOf.tryCatch, ExceptT.tryCatch,
    ExceptT.run, ExceptT.mk, bind, StateT.bind, Functor.map, ExceptT.map]
  rcases x s with ⟨(_ | _) | _, _⟩ <;> rfl

def Ends (x : Run σ α) (P : α → Prop) (Q : Failure → Prop) : Prop :=
  ∀ s, match (x.run s).1 with
    | .ok a => P a
    | .error (.failed f) => Q f
    | .error .unfinished => True

namespace Ends

variable {x : Run σ α} {f : α → Run σ β} {P : α → Prop} {R : β → Prop} {Q Q' : Failure → Prop}

theorem pure {a : α} (h : P a) : (Pure.pure a : Run σ α).Ends P Q := fun _ => h

theorem fail {g : Failure} (h : Q g) : (Run.fail g : Run σ α).Ends P Q := fun _ => h

theorem unfinished : (Run.unfinished : Run σ α).Ends P Q := fun _ => trivial

theorem bind (hx : x.Ends P Q) (hf : ∀ a, P a → (f a).Ends R Q) : (x >>= f).Ends R Q := by
  intro s
  have h := hx s
  rw [run_bind]
  generalize x.run s = r at h ⊢
  rcases r with ⟨(_ | _) | a, s'⟩
  · exact h
  · trivial
  · exact hf a h s'

theorem mono {P' : α → Prop} (hx : x.Ends P Q) (hP : ∀ a, P a → P' a) (hQ : ∀ e, Q e → Q' e) :
    x.Ends P' Q' := by
  intro s
  have h := hx s
  generalize (x.run s).1 = r at h ⊢
  rcases r with (e | _) | a
  · exact hQ e h
  · trivial
  · exact hP a h

/-- A failure is that of some run. -/
theorem witnessed (hx : x.Ends P Q) :
    x.Ends P fun g => Q g ∧ ∃ s s', x.run s = (.error (.failed g), s') := by
  intro s
  have h := hx s
  cases hr : x.run s with
  | mk r s' =>
    rw [hr] at h
    rcases r with (g | _) | a
    · exact ⟨h, s, s', hr⟩
    · trivial
    · exact h

theorem discard (hx : x.Ends P Q) : (Functor.discard x).Ends (fun _ => True) Q :=
  hx.bind fun _ _ => pure trivial

theorem mapFailure {g : Failure → Failure} (hx : x.Ends P Q) (hg : ∀ e, Q e → Q' (g e)) :
    (x.mapFailure g).Ends P Q' := by
  intro s
  have h := hx s
  rw [run_mapFailure]
  generalize x.run s = r at h ⊢
  rcases r with ⟨(e | _) | a, s'⟩
  · exact hg e h
  · trivial
  · exact h

theorem ofExcept {r : Except Failure α} (hP : ∀ a, r = .ok a → P a) (hQ : ∀ e, r = .error e → Q e) :
    (Run.ofExcept r : Run σ α).Ends P Q := by
  cases r with
  | ok a => exact pure (hP a rfl)
  | error e => exact fail (hQ e rfl)

theorem get : (MonadState.get : Run σ (RunState σ)).Ends (fun _ => True) Q := fun _ => trivial

theorem modify (g : RunState σ → RunState σ) :
    (modifyThe (RunState σ) g : Run σ Unit).Ends (fun _ => True) Q := fun _ => trivial

theorem attempt : x.attempt.Ends (fun _ => True) Q := by
  intro s
  rw [run_attempt]
  generalize x.run s = r
  rcases r with ⟨(_ | _) | _, _⟩ <;> trivial

theorem environment : (Run.environment : Run σ _).Ends (fun _ => True) Q := fun _ => trivial

theorem find? (name : Text) : (Run.find? name : Run σ _).Ends (fun _ => True) Q := fun _ => trivial

theorem updateHost (g : σ → σ) : (Run.updateHost g).Ends (fun _ => True) Q := fun _ => trivial

theorem repeatWhile {test : Run σ Bool} {body : Run σ Unit} (ht : test.Ends (fun _ => True) Q)
    (hb : body.Ends (fun _ => True) Q) (n : Nat) :
    (Run.repeatWhile test body n).Ends (fun _ => True) Q := by
  induction n with
  | zero => exact unfinished
  | succ n ih =>
    refine ht.bind fun b _ => ?_
    cases b with
    | true => exact hb.bind fun _ _ => ih
    | false => exact pure trivial

end Ends

end Run

end ScriptEngine
