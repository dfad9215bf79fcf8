import ScriptEngine.Proofs.Run.Ends

/-!
# The course of a run

What a run does, and in which order, depends on its options only through the answers of the hook
that may cancel it, and not on whether anyone reads its trace. A `Course` is a program seen in this
way: a tree of events, and of looks at what the run works on, on which the rest may depend. Where the
hook cancels, the course goes on with the failure, since a host function may recover from it.
`Course.run` plays a course out under given options, `Course.history` lists the events that take
place, and the state that a run leaves is made of these events and of nothing else
(`Course.run_state`).

`Run.Follows` says that a run is the playing out of a course. There is a rule for each way in which
runs are put together.
-/

namespace ScriptEngine

variable {σ α β : Type}

/-! ## Events -/

/-- What leaves a mark on a run. -/
inductive Event (σ : Type) where
  | assign (name : Text) (value : Value)
  | clear
  /-- What the host keeps is changed. -/
  | update (f : σ → σ)
  /-- A host function is invoked. -/
  | call (name : Text) (args : List Value)
  /-- A statement is reached. -/
  | statement (line : TraceLine)
  /-- The cancel hook is asked, if there is one. -/
  | poll (pos : Pos)

namespace Event

def note (o : Options) : Event σ → RunState σ → RunState σ
  | assign name value, s => { s with env := s.env.insert name value }
  | clear, s => { s with env := NameTable.empty }
  | update f, s => { s with host := f s.host }
  | call name args, s => { s with calls := s.calls.push ⟨name, args⟩ }
  | statement line, s => if o.trace then { s with trace := s.trace.push line } else s
  | poll _, s => if o.cancel.isSome then { s with polls := s.polls + 1 } else s

/-- The failure that the event brings about in a run that has come to the state `s` by it. -/
def stop? (o : Options) (s : RunState σ) : Event σ → Option Failure
  | poll pos => if o.cancel.any (· s.polls) then some (.error (.of .cancelled pos)) else none
  | _ => none

def call? : Event σ → Option CallRecord
  | call name args => some ⟨name, args⟩
  | _ => none

def line? (o : Options) : Event σ → Option TraceLine
  | statement line => if o.trace then some line else none
  | _ => none

def isPoll : Event σ → Bool
  | poll _ => true
  | _ => false

variable {o : Options} {s : RunState σ}

theorem note_calls (e : Event σ) :
    (e.note o s).calls.toList = s.calls.toList ++ e.call?.toList := by
  cases e with
  | statement | poll =>
    rw [note]
    split <;> simp [call?]
  | _ => simp [note, call?]

theorem note_trace (e : Event σ) :
    (e.note o s).trace.toList = s.trace.toList ++ (e.line? o).toList := by
  cases e with
  | statement =>
    rw [note, line?]
    split <;> simp
  | poll =>
    rw [note]
    split <;> simp [line?]
  | _ => simp [note, line?]

theorem note_polls (e : Event σ) :
    (e.note o s).polls = s.polls + if o.cancel.isSome && e.isPoll then 1 else 0 := by
  cases e with
  | poll =>
    rw [note]
    split <;> simp_all [isPoll]
  | statement =>
    rw [note]
    split <;> simp [isPoll]
  | _ => simp [note, isPoll]

end Event

/-- The state after some events. -/
def RunState.replay (o : Options) (s : RunState σ) (es : List (Event σ)) : RunState σ :=
  es.foldl (fun s e => e.note o s) s

namespace RunState

variable (o : Options) (s : RunState σ) (es : List (Event σ))

/-- Where each event adds at most one line to a log, the events add their lines in turn. -/
theorem replay_log {γ : Type} {f : RunState σ → List γ} {g : Event σ → Option γ}
    (h : ∀ e s, f (e.note o s) = f s ++ (g e).toList) :
    f (s.replay o es) = f s ++ es.filterMap g := by
  induction es generalizing s with
  | nil => exact (List.append_nil _).symm
  | cons e es ih =>
    refine (ih (e.note o s)).trans ?_
    rw [h, List.append_assoc, List.filterMap_cons]
    cases g e <;> rfl

theorem replay_calls :
    (s.replay o es).calls.toList = s.calls.toList ++ es.filterMap Event.call? :=
  replay_log o s es (f := fun s => s.calls.toList) fun e _ => e.note_calls

theorem replay_trace :
    (s.replay o es).trace.toList = s.trace.toList ++ es.filterMap (Event.line? o) :=
  replay_log o s es (f := fun s => s.trace.toList) fun e _ => e.note_trace

theorem replay_polls :
    (s.replay o es).polls = s.polls + if o.cancel.isSome then es.countP Event.isPoll else 0 := by
  induction es generalizing s with
  | nil => simp [replay]
  | cons e es ih =>
    refine (ih (e.note o s)).trans ?_
    rw [e.note_polls, List.countP_cons]
    cases o.cancel.isSome with
    | false => rfl
    | true =>
      simp only [Bool.true_and, if_true]
      omega

end RunState

/-! ## Courses -/

inductive Course (σ α : Type) where
  | done (result : Except Failure α)
  /-- A bound on rounds or on nested calls is reached. -/
  | unfinished
  /-- Goes on with the environment and what the host keeps. -/
  | look (next : Environment → σ → Course σ α)
  /-- Goes on with the failure that the event brings about, if it does. -/
  | act (e : Event σ) (next : Option Failure → Course σ α)

namespace Course

/-- Goes on with the result of a course, be it a failure. -/
def andThen (k : Except Failure α → Course σ β) : Course σ α → Course σ β
  | done r => k r
  | unfinished => unfinished
  | look next => look fun env host => (next env host).andThen k
  | act e next => act e fun stop => (next stop).andThen k

instance : Monad (Course σ) where
  pure a := done (.ok a)
  bind c f := c.andThen fun
    | .ok a => f a
    | .error e => done (.error e)

def fail (f : Failure) : Course σ α := done (.error f)

def environment : Course σ Environment := look fun env _ => pure env

def find? (name : Text) : Course σ (Option Value) := return (← environment).find? name

/-- Fails if the event brings a failure about. -/
def happen (e : Event σ) : Course σ Unit :=
  act e fun
    | none => pure ()
    | some f => fail f

def updateHost (f : σ → σ) : Course σ σ := do
  happen (.update f)
  look fun _ host => pure host

def mapFailure (f : Failure → Failure) (c : Course σ α) : Course σ α :=
  c.andThen fun r => done (r.mapError f)

def attempt (c : Course σ α) : Course σ (Except Failure α) :=
  c.andThen pure

/-- To go on with what comes of an attempt is to go on with the result, be it a failure. -/
theorem attempt_bind (c : Course σ α) (k : Except Failure α → Course σ β) :
    c.attempt >>= k = c.andThen k := by
  induction c with
  | done | unfinished => rfl
  | look next ih => exact congrArg look (funext fun env => funext fun host => ih env host)
  | act e next ih => exact congrArg (act e) (funext ih)

def repeatWhile (test : Course σ Bool) (body : Course σ Unit) : Nat → Course σ Unit
  | 0 => unfinished
  | n + 1 => do
    if ← test then
      body
      repeatWhile test body n

/-- Plays a course out. -/
def run (o : Options) : Course σ α → RunState σ → Except Stop α × RunState σ
  | done r, s => (r.mapError .failed, s)
  | unfinished, s => (.error .unfinished, s)
  | look next, s => (next s.env s.host).run o s
  | act e next, s => (next (e.stop? o (e.note o s))).run o (e.note o s)

/-- The events that take place when a course is played out. -/
def history (o : Options) : Course σ α → RunState σ → List (Event σ)
  | done _, _ => []
  | unfinished, _ => []
  | look next, s => (next s.env s.host).history o s
  | act e next, s => e :: (next (e.stop? o (e.note o s))).history o (e.note o s)

variable (o : Options)

/-- The state that a run leaves is made of its events. -/
theorem run_state (c : Course σ α) (s : RunState σ) :
    (c.run o s).2 = s.replay o (c.history o s) := by
  induction c generalizing s with
  | done | unfinished => rfl
  | look next ih => exact ih _ _ s
  | act e next ih => exact ih _ _

theorem run_andThen (k : Except Failure α → Course σ β) (c : Course σ α) (s : RunState σ) :
    (c.andThen k).run o s =
      match c.run o s with
      | (.ok a, s') => (k (.ok a)).run o s'
      | (.error (.failed f), s') => (k (.error f)).run o s'
      | (.error .unfinished, s') => (.error .unfinished, s') := by
  induction c generalizing s with
  | done r => cases r <;> rfl
  | unfinished => rfl
  | look next ih => exact ih _ _ s
  | act e next ih => exact ih _ _

end Course

/-! ## Runs that follow a course -/

/-- Under the given options, the run is the playing out of the course. -/
def Run.Follows (o : Options) (x : Run σ α) (c : Course σ α) : Prop := ∀ s, x.run s = c.run o s

namespace Run.Follows

variable {o : Options} {x : Run σ α} {c : Course σ α}

theorem pure (a : α) : (Pure.pure a : Run σ α).Follows o (Pure.pure a) := fun _ => rfl

theorem fail (f : Failure) : (Run.fail f : Run σ α).Follows o (.fail f) := fun _ => rfl

theorem unfinished : (Run.unfinished : Run σ α).Follows o .unfinished := fun _ => rfl

theorem bind {f : α → Run σ β} {g : α → Course σ β} (hx : x.Follows o c)
    (hf : ∀ a, (f a).Follows o (g a)) : (x >>= f).Follows o (c >>= g) := by
  intro s
  rw [run_bind, hx s]
  refine Eq.trans ?_ (Course.run_andThen o _ c s).symm
  rcases c.run o s with ⟨(_ | _) | a, s'⟩
  · rfl
  · rfl
  · exact hf a s'

theorem discard (hx : x.Follows o c) : (Functor.discard x).Follows o (Functor.discard c) :=
  hx.bind fun _ => pure ()

theorem ofExcept (r : Except Failure α) : (Run.ofExcept r : Run σ α).Follows o (.done r) := by
  cases r with
  | ok a => exact pure a
  | error f => exact fail f

theorem mapFailure (hx : x.Follows o c) (g : Failure → Failure) :
    (x.mapFailure g).Follows o (c.mapFailure g) := by
  intro s
  rw [run_mapFailure, hx s]
  refine Eq.trans ?_ (Course.run_andThen o _ c s).symm
  rcases c.run o s with ⟨(_ | _) | a, s'⟩ <;> rfl

theorem attempt (hx : x.Follows o c) : x.attempt.Follows o c.attempt := by
  intro s
  rw [run_attempt, hx s]
  refine Eq.trans ?_ (Course.run_andThen o _ c s).symm
  rcases c.run o s with ⟨(_ | _) | a, s'⟩ <;> rfl

theorem environment : (Run.environment : Run σ _).Follows o .environment := fun _ => rfl

theorem find? (name : Text) : (Run.find? name : Run σ _).Follows o (.find? name) :=
  environment.bind fun _ => pure _

theorem updateHost (f : σ → σ) : (Run.updateHost f).Follows o (.updateHost f) := fun _ => rfl

theorem assign (name : Text) (v : Value) :
    (Run.assign name v : Run σ _).Follows o (.happen (.assign name v)) := fun _ => rfl

theorem clear : (Run.clear : Run σ _).Follows o (.happen .clear) := fun _ => rfl

theorem noteCall (name : Text) (args : List Value) :
    (Run.noteCall name args : Run σ _).Follows o (.happen (.call name args)) := fun _ => rfl

theorem repeatWhile {test : Run σ Bool} {body : Run σ Unit} {t : Course σ Bool} {b : Course σ Unit}
    (ht : test.Follows o t) (hb : body.Follows o b) (n : Nat) :
    (Run.repeatWhile test body n).Follows o (.repeatWhile t b n) := by
  induction n with
  | zero => exact unfinished
  | succ n ih =>
    refine ht.bind fun again => ?_
    cases again with
    | false => exact pure ()
    | true => exact hb.bind fun _ => ih

end Run.Follows

end ScriptEngine
