import ScriptEngine.Proofs.Run.Footprint

/-!
# What holds all along a course

`c.Stays o I Q`: from an environment with `I`, the course `c` keeps `I` after every event, in
whatever way it ends, and a result of it has `Q`. There is a rule for each way in which courses are
put together.
-/

namespace ScriptEngine

variable {σ α β : Type}

namespace Course

variable {o : Options} {I : Environment → Prop} {Q : α → Prop} {c : Course σ α}

/-- What follows when a course that goes on with `k` has ended. -/
def resume (k : Except Failure α → Course σ β) : Except Stop α → Course σ β
  | .ok a => k (.ok a)
  | .error (.failed f) => k (.error f)
  | .error .unfinished => .unfinished

theorem history_andThen (k : Except Failure α → Course σ β) (c : Course σ α) (s : RunState σ) :
    (c.andThen k).history o s =
      c.history o s ++ (resume k (c.run o s).1).history o (c.run o s).2 := by
  induction c generalizing s with
  | done r => cases r <;> rfl
  | unfinished => rfl
  | look next ih => exact ih _ _ s
  | act e next ih => exact congrArg (e :: ·) (ih _ _)

theorem run_andThen_eq (k : Except Failure α → Course σ β) (c : Course σ α) (s : RunState σ) :
    (c.andThen k).run o s = (resume k (c.run o s).1).run o (c.run o s).2 := by
  rw [run_andThen]
  rcases c.run o s with ⟨(_ | _) | _, _⟩ <;> rfl

/-- From an environment with `I`, it has `I` after every event, and a result has `Q`. -/
structure Stays (o : Options) (I : Environment → Prop) (Q : α → Prop) (c : Course σ α) : Prop where
  env {s : RunState σ} {es : List (Event σ)} : I s.env → es <+: c.history o s →
    I (s.replay o es).env
  result {s : RunState σ} {a : α} : I s.env → (c.run o s).1 = .ok a → Q a

namespace Stays

theorem run (h : c.Stays o I Q) {s : RunState σ} (hs : I s.env) : I (c.run o s).2.env := by
  rw [run_state]
  exact h.env hs List.prefix_rfl

theorem done {r : Except Failure α} (h : ∀ a, r = .ok a → Q a) :
    (Course.done r : Course σ α).Stays o I Q := by
  refine ⟨fun hs he => ?_, fun _ hr => ?_⟩
  · rw [List.prefix_nil.mp he]
    exact hs
  · cases r with
    | ok a => cases hr; exact h _ rfl
    | error => cases hr

theorem pure {a : α} (h : Q a) : (Pure.pure a : Course σ α).Stays o I Q :=
  done fun _ ha => by cases ha; exact h

theorem fail (f : Failure) : (Course.fail f : Course σ α).Stays o I Q := done nofun

theorem unfinished : (Course.unfinished : Course σ α).Stays o I Q := by
  refine ⟨fun hs he => ?_, fun _ hr => (by cases hr)⟩
  rw [List.prefix_nil.mp he]
  exact hs

theorem happen {e : Event σ} (h : ∀ s : RunState σ, I s.env → I (e.note o s).env) :
    (Course.happen e).Stays o I fun _ => True := by
  refine ⟨fun {s es} hs he => ?_, fun _ _ => trivial⟩
  have hone : (Course.happen e).history o s = [e] := by
    rw [Course.happen, history]
    cases e.stop? o (e.note o s) <;> rfl
  rw [hone] at he
  rcases List.prefix_cons_iff.mp he with rfl | ⟨es', rfl, he'⟩
  · exact hs
  · rw [List.prefix_nil.mp he']
    exact h s hs

/-- Events that neither assign nor clear. -/
theorem happen_of_isWrite {e : Event σ} (h : e.isWrite = false) :
    (Course.happen e).Stays o I fun _ => True :=
  happen fun s hs => by rw [Event.env_note_of_isWrite h]; exact hs

theorem find? (name : Text) :
    (Course.find? name : Course σ _).Stays o I fun v => ∃ env, I env ∧ env.find? name = v := by
  refine ⟨fun hs he => ?_, fun hs hr => ?_⟩
  · rw [List.prefix_nil.mp he]
    exact hs
  · cases hr
    exact ⟨_, hs, rfl⟩

theorem andThen {k : Except Failure α → Course σ β} {Q' : β → Prop} (hc : c.Stays o I Q)
    (hok : ∀ a, Q a → (k (.ok a)).Stays o I Q') (herror : ∀ f, (k (.error f)).Stays o I Q') :
    (c.andThen k).Stays o I Q' := by
  have hrest {s : RunState σ} (hs : I s.env) : (resume k (c.run o s).1).Stays o I Q' := by
    cases hr : (c.run o s).1 with
    | ok a => exact hok a (hc.result hs hr)
    | error e =>
      cases e with
      | failed f => exact herror f
      | unfinished => exact unfinished
  refine ⟨fun {s es} hs he => ?_, fun {s b} hs hb => ?_⟩
  · rw [history_andThen] at he
    rcases List.prefix_or_prefix_of_prefix he (List.prefix_append ..) with he | ⟨es', rfl⟩
    · exact hc.env hs he
    · rw [RunState.replay_append, ← run_state]
      exact (hrest hs).env (hc.run hs) ((List.prefix_append_right_inj _).mp he)
  · rw [run_andThen_eq] at hb
    exact (hrest hs).result (hc.run hs) hb

theorem bind {f : α → Course σ β} {Q' : β → Prop} (hc : c.Stays o I Q)
    (hf : ∀ a, Q a → (f a).Stays o I Q') : (c >>= f).Stays o I Q' :=
  hc.andThen hf fun f => fail f

theorem discard (hc : c.Stays o I Q) : (Functor.discard c).Stays o I fun _ => True :=
  hc.bind fun _ _ => pure trivial

theorem mapFailure (hc : c.Stays o I Q) (g : Failure → Failure) : (c.mapFailure g).Stays o I Q :=
  hc.andThen (fun _ ha => pure ha) fun f => fail (g f)

theorem repeatWhile {test : Course σ Bool} {body : Course σ Unit}
    (ht : test.Stays o I fun _ => True) (hb : body.Stays o I fun _ => True) (n : Nat) :
    (Course.repeatWhile test body n).Stays o I fun _ => True := by
  induction n with
  | zero => exact unfinished
  | succ n ih =>
    refine ht.bind fun again _ => ?_
    cases again with
    | true => exact hb.bind fun _ _ => ih
    | false => exact pure trivial

end Stays

end Course

end ScriptEngine
