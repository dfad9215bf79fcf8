import ScriptEngine.Proofs.Host.Backtrace
import ScriptEngine.Proofs.Host.Conduct
import ScriptEngine.Proofs.Run.Congruence
import ScriptEngine.Proofs.Run.Polls
import ScriptEngine.Proofs.Session.History
import ScriptEngine.Proofs.Text.Digits

/-!
# Dispatch

A call goes to the latest definition of its name. It is checked before anything is entered: a name
that was never defined and a wrong number of arguments are refused (`Registry.Refuses`), whatever the
functions would have done. Otherwise the call is the body of the latest definition, carried out once.

A definition makes a difference to the calls of its name and to nothing else. So the call of another
function is the same as before, unless that function comes to call the name (`Registry.Serves`).
-/

namespace ScriptEngine

variable {σ α β : Type}

/-! ## Courses that part -/

namespace Course

/-- The courses are the same up to an event with `P`, where they may part. -/
inductive SameUntil (P : Event σ → Prop) : Course σ α → Course σ α → Prop where
  | done (r : Except Failure α) : SameUntil P (.done r) (.done r)
  | unfinished : SameUntil P .unfinished .unfinished
  | look {next next' : Environment → σ → Course σ α} :
      (∀ env host, SameUntil P (next env host) (next' env host)) →
      SameUntil P (.look next) (.look next')
  | act (e : Event σ) {next next' : Option Failure → Course σ α} :
      (¬ P e → ∀ stop, SameUntil P (next stop) (next' stop)) →
      SameUntil P (.act e next) (.act e next')

namespace SameUntil

variable {P : Event σ → Prop} {c c' : Course σ α}

theorem refl (c : Course σ α) : c.SameUntil P c := by
  induction c with
  | done r => exact .done r
  | unfinished => exact .unfinished
  | look next ih => exact .look ih
  | act e next ih => exact .act e fun _ => ih

theorem andThen {k k' : Except Failure α → Course σ β} (h : c.SameUntil P c')
    (hk : ∀ r, (k r).SameUntil P (k' r)) : (c.andThen k).SameUntil P (c'.andThen k') := by
  induction h with
  | done r => exact hk r
  | unfinished => exact .unfinished
  | look _ ih => exact .look ih
  | act e _ ih => exact .act e ih

theorem bind {f f' : α → Course σ β} (h : c.SameUntil P c') (hf : ∀ a, (f a).SameUntil P (f' a)) :
    (c >>= f).SameUntil P (c' >>= f') :=
  h.andThen fun
    | .ok a => hf a
    | .error e => .done (.error e)

theorem repeatWhile {test test' : Course σ Bool} {body body' : Course σ Unit} {n n' : Nat}
    (ht : test.SameUntil P test') (hb : body.SameUntil P body') (hn : n = n') :
    (Course.repeatWhile test body n).SameUntil P (Course.repeatWhile test' body' n') := by
  subst hn
  induction n with
  | zero => exact .unfinished
  | succ n ih =>
    refine ht.bind fun again => ?_
    cases again with
    | false => exact refl _
    | true => exact hb.bind fun _ => ih

theorem congruence (P : Event σ → Prop) : @Congruence σ (SameUntil P) Eq :=
  ⟨refl, andThen, repeatWhile⟩

/-- Where no event has `P`, the courses are played out alike. -/
theorem run {o : Options} {s : RunState σ} (h : c.SameUntil P c')
    (hP : ∀ e ∈ c.history o s, ¬ P e) : c'.run o s = c.run o s := by
  induction h generalizing s with
  | done | unfinished => rfl
  | look _ ih => exact ih _ _ hP
  | act e _ ih =>
    rw [Course.history, List.forall_mem_cons] at hP
    obtain ⟨he, hnext⟩ := hP
    exact ih he _ hnext

end SameUntil

end Course

def Event.IsCallOf (name : Text) (e : Event σ) : Prop := ∃ args, e = .call name args

/-! ## Refused calls -/

namespace Registry

/-- The registries have functions of the same names and with as many arguments. -/
def SameSignatures (reg reg' : Registry σ) : Prop :=
  ∀ name, (reg'.find? name).map HostFunction.arity = (reg.find? name).map HostFunction.arity

/-- The call fails with `e` before any function is entered: it fails so whatever the functions would
do, and nothing comes of it but a note of the call. -/
def Refuses (reg : Registry σ) (o : Options) (fuel : Nat) (s : RunState σ) (name : Text)
    (args : List Value) (e : Error) : Prop :=
  ∀ reg', reg.SameSignatures reg' →
    (reg'.invoke o (fuel + 1) name args).run s =
      (.error (.failed (.error e)), s.noting name args)

variable {reg reg' : Registry σ} {o : Options} {fuel : Nat} {s : RunState σ} {name : Text}
  {args : List Value} {e : Error} {f : HostFunction σ}

theorem SameSignatures.resolve_error (h : reg.SameSignatures reg')
    (he : reg.resolve name args = .error e) : reg'.resolve name args = .error e := by
  have hname := h name
  rcases resolve_eq_error he with ⟨hf, rfl⟩ | ⟨f, n, hf, hn, hne, rfl⟩
  · rw [hf, Option.map_none, Option.map_eq_none_iff] at hname
    exact resolve_of_find?_none hname
  · rw [hf, Option.map_some, hn, Option.map_eq_some_iff] at hname
    obtain ⟨f', hf', hn'⟩ := hname
    exact resolve_of_arity hf' hn' hne

theorem SameSignatures.symm (h : reg.SameSignatures reg') : reg'.SameSignatures reg :=
  fun name => (h name).symm

/-- The same functions, except that none of them does anything. -/
def idle (reg : Registry σ) : Registry σ := reg.map fun _ f => ⟨f.arity, fun _ => .done none⟩

theorem sameSignatures_idle (reg : Registry σ) : reg.SameSignatures reg.idle := by
  intro name
  rw [idle, NameTable.find?_map, Option.map_map]
  rfl

theorem run_invoke_idle {r : Routine σ} (h : reg.resolve name args = .ok r) :
    (reg.idle.invoke o (fuel + 1) name args).run s = (.ok none, s.noting name args) := by
  cases hi : reg.idle.resolve name args with
  | error e =>
    rw [reg.sameSignatures_idle.symm.resolve_error hi] at h
    cases h
  | ok r' =>
    obtain ⟨f, hf, -, rfl⟩ := resolve_eq_ok hi
    rw [idle, NameTable.find?_map, Option.map_eq_some_iff] at hf
    obtain ⟨_, -, rfl⟩ := hf
    rw [run_invoke_of_ok hi]
    rfl

theorem refuses_iff : reg.Refuses o fuel s name args e ↔ reg.resolve name args = .error e := by
  constructor
  · intro h
    cases hr : reg.resolve name args with
    | error e' =>
      have hrun := h reg fun _ => rfl
      rw [run_invoke_of_error hr] at hrun
      cases hrun
      rfl
    | ok r =>
      -- The call would not fail if the function did nothing.
      have hrun := h reg.idle reg.sameSignatures_idle
      rw [run_invoke_idle hr] at hrun
      cases hrun
  · intro h reg' hs
    exact run_invoke_of_error (hs.resolve_error h)

/-! ## Definitions of other names -/

theorem resolve_define_of_ne (reg : Registry σ) {g : Text} (h : name ≠ g) (f : HostFunction σ) :
    (reg.define g f).resolve name args = reg.resolve name args := by
  rw [resolve, resolve, define, NameTable.find?_insert_of_ne h]

/-- Registries that settle all calls alike but those of `g` set the same courses going, up to a call
of `g`. -/
theorem plan_sameUntil {g : Text}
    (h : ∀ name args, name ≠ g → reg'.resolve name args = reg.resolve name args) (fuel : Nat) :
    (reg.plan fuel).Related (Course.SameUntil (Event.IsCallOf g)) Eq (reg'.plan fuel) := by
  refine ⟨?_, rfl⟩
  show ∀ name args, Course.SameUntil _ (reg.course fuel name args) (reg'.course fuel name args)
  induction fuel with
  | zero => exact fun _ _ => .unfinished
  | succ fuel ih =>
    -- The functions that a function calls have less fuel.
    intro name args
    refine Course.SameUntil.act (.call name args) fun hcall stop => ?_
    have hne : name ≠ g := fun hg => hcall ⟨args, hg ▸ rfl⟩
    refine Course.SameUntil.bind (.refl _) fun _ => ?_
    rw [h name args hne]
    cases reg.resolve name args with
    | error e => exact .refl _
    | ok routine =>
      have hplan : (reg.plan fuel).Related (Course.SameUntil (Event.IsCallOf g)) Eq
          (reg'.plan fuel) := ⟨ih, rfl⟩
      exact (Course.SameUntil.congruence _).routine hplan routine

/-- The calls that a call leads to, itself included. -/
def callsOf (reg : Registry σ) (o : Options) (fuel : Nat) (s : RunState σ) (name : Text)
    (args : List Value) : List CallRecord :=
  ((reg.invoke o fuel name args).run s).2.calls.toList.drop s.calls.size

theorem callsOf_eq :
    reg.callsOf o fuel s name args =
      ((reg.course fuel name args).history o s).filterMap Event.call? := by
  rw [callsOf, run_invoke_state, RunState.replay_calls, ← Array.length_toList, List.drop_left]

theorem run_invoke_define {g : Text} (h : ∀ c ∈ reg.callsOf o fuel s name args, c.name ≠ g)
    (f : HostFunction σ) :
    ((reg.define g f).invoke o fuel name args).run s = (reg.invoke o fuel name args).run s := by
  have hplan := plan_sameUntil (g := g) (fun _ _ hne => reg.resolve_define_of_ne hne f) fuel
  have hquiet : ∀ e ∈ (reg.course fuel name args).history o s, ¬ e.IsCallOf g := by
    rintro e he ⟨args', rfl⟩
    refine h ⟨g, args'⟩ ?_ rfl
    rw [callsOf_eq]
    exact List.mem_filterMap.mpr ⟨_, he, rfl⟩
  calc ((reg.define g f).invoke o fuel name args).run s
      = ((reg.define g f).course fuel name args).run o s :=
        ((reg.define g f).interpreter_follows o fuel).invoke name args s
    _ = (reg.course fuel name args).run o s := (hplan.invoke name args).run hquiet
    _ = (reg.invoke o fuel name args).run s :=
        ((reg.interpreter_follows o fuel).invoke name args s).symm

/-! ## Calls and definitions -/

theorem unknownFunction_ne_wrongArity (name : Text) (n given : Nat) :
    unknownFunction name ≠ wrongArity name n given := by
  simp [unknownFunction, wrongArity]

/-- The error tells how many arguments the function takes. -/
theorem wrongArity_inj {n n' given : Nat} (h : wrongArity name n given = wrongArity name n' given) :
    n = n' := by
  have htext : (wrongArity name n given).text = (wrongArity name n' given).text := by rw [h]
  have hdigits : Text.ofNat n = Text.ofNat n' :=
    List.append_cancel_left (List.append_cancel_right (List.append_cancel_right htext))
  rw [← Text.digitsValue_ofNat n, hdigits, Text.digitsValue_ofNat]

/-- What becomes of calls, where `latest` has the latest definition of each name that was ever
`defined`. -/
structure Serves (reg : Registry σ) (defined : Text → Prop) (latest : Text → HostFunction σ → Prop) :
    Prop where
  contains (name : Text) : reg.contains name = true ↔ defined name
  unknown (o : Options) (fuel : Nat) (s : RunState σ) (name : Text) (args : List Value) :
    reg.Refuses o fuel s name args (unknownFunction name) ↔ ¬ defined name
  arity (o : Options) (fuel : Nat) (s : RunState σ) (name : Text) (args : List Value) (n : Nat) :
    reg.Refuses o fuel s name args (wrongArity name n args.length) ↔
      ∃ f, latest name f ∧ f.arity = some n ∧ n ≠ args.length
  /-- There are no other errors of this sort. -/
  refused (o : Options) (fuel : Nat) (s : RunState σ) (name : Text) (args : List Value) (e : Error) :
    reg.Refuses o fuel s name args e →
      e = unknownFunction name ∨ ∃ n, e = wrongArity name n args.length
  entered (o : Options) (fuel : Nat) (s : RunState σ) (name : Text) (args : List Value)
    (f : HostFunction σ) : latest name f → f.Accepts args →
      (reg.invoke o (fuel + 1) name args).run s =
        ((f.body args).perform (reg.interpreter o fuel)).run (s.noting name args)
  /-- A definition of `g` is nothing to a call that leads to no call of `g`. -/
  kept (o : Options) (fuel : Nat) (s : RunState σ) (name : Text) (args : List Value) (g : Text)
    (f : HostFunction σ) : (∀ c ∈ reg.callsOf o fuel s name args, c.name ≠ g) →
      ((reg.define g f).invoke o fuel name args).run s = (reg.invoke o fuel name args).run s

theorem serves_of_find? {defined : Text → Prop} {latest : Text → HostFunction σ → Prop}
    (hl : ∀ name f, reg.find? name = some f ↔ latest name f)
    (hd : ∀ name, defined name ↔ ∃ f, latest name f) : reg.Serves defined latest where
  contains name := by simp only [NameTable.contains, Option.isSome_iff_exists, hl, hd]
  unknown o fuel s name args := by
    rw [refuses_iff, hd]
    constructor
    · rintro h ⟨f, hf⟩
      rcases resolve_eq_error h with ⟨hnone, -⟩ | ⟨_, n, -, -, -, he⟩
      · rw [(hl name f).mpr hf] at hnone
        cases hnone
      · exact unknownFunction_ne_wrongArity name n args.length he
    · intro h
      apply resolve_of_find?_none
      rw [Option.eq_none_iff_forall_ne_some]
      exact fun f hf => h ⟨f, (hl name f).mp hf⟩
  arity o fuel s name args n := by
    rw [refuses_iff]
    constructor
    · intro h
      rcases resolve_eq_error h with ⟨-, he⟩ | ⟨f, n', hf, hn, hne, he⟩
      · exact absurd he.symm (unknownFunction_ne_wrongArity name n args.length)
      · obtain rfl := wrongArity_inj he
        exact ⟨f, (hl name f).mp hf, hn, hne⟩
    · rintro ⟨f, hf, hn, hne⟩
      exact resolve_of_arity ((hl name f).mpr hf) hn hne
  refused o fuel s name args e h := by
    rcases resolve_eq_error (refuses_iff.mp h) with ⟨-, he⟩ | ⟨_, n, -, -, -, he⟩
    · exact .inl he
    · exact .inr ⟨n, he⟩
  entered o fuel s name args f hf ha :=
    run_invoke_of_ok (resolve_of_accepts ((hl name f).mpr hf) ha)
  kept o fuel s name args g f h := run_invoke_define h f

end Registry

/-! ## Histories of definitions -/

namespace Embedding

/-- The function is that of the last step that defines the name. -/
def Latest (steps : List (Step σ)) (name : Text) (f : HostFunction σ) : Prop :=
  IsLast (fun x => ∃ f, x = .define name f) steps (.define name f)

theorem find?_step {a : Embedding σ} {x : Step σ} {name : Text} {f : HostFunction σ} :
    (a.step x).registry.find? name = some f ↔
      x = .define name f ∨ ¬ (∃ f, x = .define name f) ∧ a.registry.find? name = some f := by
  cases x with
  | define other g =>
    rw [step, Registry.define, NameTable.find?_insert_eq_some_iff]
    simp
  | _ => simp [step, keep]

theorem find?_registry (host : σ) (steps : List (Step σ)) (name : Text) (f : HostFunction σ) :
    ((start host).after steps).registry.find? name = some f ↔ Latest steps name f := by
  refine iff_isLast (Q := fun xs => ((start host).after xs).registry.find? name = some f) ?_ ?_ steps
  · exact fun h => by cases h
  · intro xs x
    rw [after_concat]
    exact find?_step

end Embedding

namespace Session

/-- The definition is that of the last step that defines the name. -/
def Latest (steps : List Step) (name : Text) (d : Definition) : Prop :=
  IsLast (fun x => ∃ d, x = .define name d) steps (.define name d)

/-- What a definition stands for in a session. -/
def function (s : Session) (name : Text) (d : Definition) : HostFunction Counters :=
  ⟨d.arity, fun args => d.stock.routine s.programs name args⟩

theorem functions_step (s : Session) {x : Step} (h : ∀ name d, x ≠ .define name d) :
    (s.step x).functions = s.functions := by
  cases x with
  | define name d => exact absurd rfl (h name d)
  | compile slot file source =>
    obtain ⟨slots, hs⟩ := s.exists_compile_eq slot file source
    rw [step, hs]
  | _ => rfl

theorem find?_step {s : Session} {x : Step} {name : Text} {d : Definition} :
    (s.step x).functions.find? name = some d ↔
      x = .define name d ∨ ¬ (∃ d, x = .define name d) ∧ s.functions.find? name = some d := by
  cases x with
  | define other c =>
    rw [step, define, NameTable.find?_insert_eq_some_iff]
    simp
  | _ =>
    rw [functions_step s (by simp)]
    simp

theorem find?_functions (steps : List Step) (name : Text) (d : Definition) :
    (start.after steps).functions.find? name = some d ↔ Latest steps name d := by
  refine iff_isLast (Q := fun xs => (start.after xs).functions.find? name = some d) ?_ ?_ steps
  · exact fun h => by cases h
  · intro xs x
    rw [after_concat]
    exact find?_step

theorem find?_registry (s : Session) (name : Text) :
    s.registry.find? name = (s.functions.find? name).map (s.function name) :=
  NameTable.find?_map _ _ _

theorem registry_define (s : Session) (name : Text) (d : Definition) :
    (s.define name d).registry = s.registry.define name (s.function name d) :=
  NameTable.map_insert s.function s.functions name d

end Session

/-- After any steps, calls go to the latest definitions, with the checks made first. In a session,
too, whose functions are those that its steps have defined. -/
theorem calls_reach_latest :
    (∀ (host : σ) (steps : List (Embedding.Step σ)),
      ((Embedding.start host).after steps).registry.Serves
        (fun name => ∃ f, .define name f ∈ steps) (Embedding.Latest steps)) ∧
    ∀ steps : List Session.Step,
      let s := Session.start.after steps
      s.registry.Serves (fun name => ∃ d, .define name d ∈ steps)
        (fun name f => ∃ d, Session.Latest steps name d ∧ f = s.function name d) ∧
      (∀ name, s.functions.contains name = s.registry.contains name) ∧
      ∀ name d, (s.define name d).registry = s.registry.define name (s.function name d) := by
  refine ⟨fun host steps => ?_, fun steps => ⟨?_, fun name => ?_, Session.registry_define _⟩⟩
  · exact Registry.serves_of_find? (Embedding.find?_registry host steps) fun name =>
      exists_mem_iff_exists_isLast
  · refine Registry.serves_of_find? (fun name f => ?_) fun name => ?_
    · rw [Session.find?_registry, Option.map_eq_some_iff]
      simp only [Session.find?_functions, @eq_comm _ f]
    · rw [exists_mem_iff_exists_isLast]
      constructor
      · rintro ⟨d, hd⟩
        exact ⟨_, d, hd, rfl⟩
      · rintro ⟨_, d, hd, -⟩
        exact ⟨d, hd⟩
  · rw [NameTable.contains, NameTable.contains, Session.find?_registry, Option.isSome_map]

/-- A function that calls another fails as that call does, and does what the latest definition of the
other does. -/
theorem definition_reaches_callers :
    let f := Text.ascii "f"
    let g := Text.ascii "g"
    let h := Text.ascii "h"
    let constantly (b : Bool) : Definition := ⟨none, .constant (.boolean b)⟩
    let s := Session.start.after [.define g (constantly true), .define f ⟨none, .call⟩]
    let s' := s.define g (constantly false)
    let result (s : Session) (x : Text) := (s.invoke (Text.ascii "main") f [.text x]).1.result
    f ≠ g ∧ s.functions.contains f = true ∧
    result s h = .error (.failed (.error (Registry.unknownFunction h))) ∧
    result s g = .ok (some (.boolean true)) ∧ result s' g = .ok (some (.boolean false)) := by
  decide +kernel

end ScriptEngine
