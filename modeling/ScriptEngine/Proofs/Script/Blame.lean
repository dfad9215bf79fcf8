import ScriptEngine.Proofs.Host.Backtrace
import ScriptEngine.Proofs.Run.Blame
import ScriptEngine.Proofs.Script.Safety
import ScriptEngine.Proofs.Script.Tokens
import ScriptEngine.Tree.Sexpr

/-!
# Errors of scripts

An error that comes out of a script names the place of the node that failed, and the node is of the
sort that fails in this way (`run_error_located`). The host functions may do what they like with the
environment and invoke each other, but they run no program and leave it to the script to say where an
error comes from. Where a function invokes another, the error of the inner call stands at the call of
the outer one in the script, and its name need not be that of the call (`run_error_of_inner_call`).
-/

namespace ScriptEngine

variable {σ : Type}

/-! ## Host functions -/

/-- No program is run, and all failures are invocation errors without a position. -/
def Conduct.discreet : Conduct where
  results _ := True
  failures f := f.IsRaised fun _ => True
  reads := True
  writes := True
  runs := False

/-- The step with which a routine ends is one that it may take. -/
theorem Routine.KeepsTo.lastStep {c : Conduct} {it : Interpreter σ} {r : Routine σ}
    (h : r.KeepsTo c) (s : RunState σ) : (r.lastStep it s).1.KeepsTo c := by
  induction r generalizing s with
  | done | fail => exact h
  | inspect next ih => exact ih _ (h.2 _) _
  | assign _ _ next ih | clear next ih => exact ih h.2 _
  | update f next ih => exact ih _ (h _) _
  | invoke name args next ih => exact Run.goOn_fst h fun v s' _ => ih v (h v) s'
  | run b next ih => exact Run.goOn_fst h fun _ s' _ => ih h.2 s'
  | eval n next ih => exact Run.goOn_fst h fun v s' _ => ih v (h.2 v) s'
  | recover attempt next _ ih => exact Run.goOn_fst h fun r s' _ => ih r (h.2 r) s'

namespace Registry

/-- How a call of a function may fail. The registry itself refuses it if there is no function of the
name, or if it is given a number of arguments that it does not take; otherwise the body ends with a
failure of its own, or with a call of another function that fails. -/
inductive Raises (reg : Registry σ) (options : Options) : Text → Cause → Prop where
  | unknown {name : Text} : reg.find? name = none →
      Raises reg options name (.invocation .unknownFunction name (unknownFunction name).text)
  | arity {name : Text} {f : HostFunction σ} {n given : Nat} : reg.find? name = some f →
      f.arity = some n → n ≠ given →
      Raises reg options name (.invocation .arityMismatch name (wrongArity name n given).text)
  | thrown {name : Text} {f : HostFunction σ} {args : List Value} {fuel : Nat} {s s' : RunState σ}
      {e : Error} : reg.find? name = some f → f.Accepts args →
      (f.body args).lastStep (reg.interpreter options fuel) s = (.fail (.error e), s') →
      Raises reg options name e.cause
  | relayed {name name' : Text} {f : HostFunction σ} {args args' : List Value} {fuel : Nat}
      {s s' : RunState σ} {next : Option Value → Routine σ} {cause : Cause} :
      reg.find? name = some f → f.Accepts args →
      (f.body args).lastStep (reg.interpreter options fuel) s = (.invoke name' args' next, s') →
      Raises reg options name' cause → Raises reg options name cause

variable {reg : Registry σ}

theorem isRaised_of_resolve {name : Text} {args : List Value} {e : Error} (options : Options)
    (h : reg.resolve name args = .error e) :
    Failure.IsRaised (reg.Raises options name) (.error e) := by
  rcases resolve_eq_error h with ⟨hf, rfl⟩ | ⟨f, n, hf, hn, hne, rfl⟩
  · exact .intro rfl (.unknown hf)
  · exact .intro rfl (.arity hf hn hne)

/-- Discreet functions raise what they may. -/
theorem raises_of_keepsTo (h : reg.KeepsTo .discreet) (options : Options) (fuel : Nat) :
    (reg.interpreter options fuel).Raises (reg.Raises options) := by
  induction fuel with
  | zero => exact fun _ _ => .unfinished
  | succ fuel ih =>
    intro name args
    refine (Run.Ends.modify _).bind fun _ _ => ?_
    cases hr : reg.resolve name args with
    | error e => exact .fail (isRaised_of_resolve options hr)
    | ok routine =>
      obtain ⟨f, hf, hmem, rfl⟩ := resolve_eq_ok hr
      have ha := accepts_of_resolve hf hr
      -- The functions that the body calls have less fuel.
      have hcalls (name : Text) (args : List Value) :
          ((reg.interpreter options fuel).invoke name args).Ends (fun _ => True)
            Conduct.discreet.failures :=
        (ih name args).mono (fun _ h => h) fun _ h => h.mono fun _ _ => trivial
      have hbody := (h _ hmem args).ends (fun h => h) hcalls
      refine hbody.witnessed.mono (fun _ _ => trivial) ?_
      rintro _ ⟨⟨hp, -⟩, s, t, hs⟩
      have hlast := Routine.failsWith_lastStep.mpr hs
      have hstep : ((f.body args).lastStep (reg.interpreter options fuel) s).1.KeepsTo .discreet :=
        (h _ hmem args).lastStep s
      cases hl : (f.body args).lastStep (reg.interpreter options fuel) s with
      | mk step s' =>
        rw [hl] at hlast hstep
        cases step with
        | done | inspect | assign | clear | update | recover => exact hlast.elim
        | fail g =>
          obtain ⟨rfl, rfl⟩ := hlast
          exact .intro hp (.thrown hf ha hl)
        | invoke name' args' next =>
          have hinner := ih name' args' s'
          rw [hlast] at hinner
          cases hinner with
          | intro hp' hr' => exact .intro hp (.relayed hf ha hl hr')
        | run | eval => exact hstep.1.elim

end Registry

theorem Interpreter.Raises.obliging {it : Interpreter σ} {raises : Text → Cause → Prop}
    (h : it.Raises raises) : it.Obliging :=
  fun name args => (h name args).mono (fun _ h => h) fun _ ⟨_, _⟩ => rfl

/-! ## Scripts -/

namespace Script

variable {file source : Text} {script : Script}

/-- Every node of a compiled script has a position. -/
theorem isSet_of_compile (h : compile file source = .ok script) :
    ∀ n ∈ script.root.toNode.preorder, n.pos.isSet = true := by
  obtain ⟨root, file'⟩ := script
  obtain rfl : file' = file := file_of_compile h
  obtain ⟨ts, last, hl⟩ := exists_lexesTo h
  obtain ⟨D, rfl, rfl, -⟩ := compile_eq_ok h hl
  obtain ⟨lx, hd⟩ := hl.1
  have hset := (Lexer.delivers_places hd (Lexer.start_stands _ _ _)).1
  exact D.allAt_tree (P := (·.isSet = true)) (fun t ht => (hset t (by simp [ht])).1.2) last.pos
    (hset last (by simp)).1.2 [] fun n hn => by cases hn

/-- What comes out of a run that fails is an error, and it stands at the node that failed. -/
theorem run_error_located (hc : compile file source = .ok script) {reg : Registry σ}
    (hr : reg.KeepsTo .discreet) {options : Options} {fuel : Nat} {state final : RunState σ}
    {f : Failure} (hf : ((reg.interpreter options fuel).execBlock script.root).run state =
      (.error (.failed f), final)) :
    ∃ e, f = .error e ∧ e.pos.isSet = true ∧
      e.PointsAt script.root.toNode.preorder (reg.Raises options) final.env := by
  have hi := Registry.raises_of_keepsTo hr options fuel
  have hset := isSet_of_compile hc
  obtain ⟨root, file'⟩ := script
  obtain rfl : file' = file := file_of_compile hc
  have hsafe : f.isOfScript = true := by
    have hs := Interpreter.execBlock_safe hi.obliging root (wellFormed_of_compile hc) state
    rw [hf] at hs
    exact hs
  cases f with
  | error e =>
    have hall : root.nodesOnto [] ⊆ root.toNode.preorder := List.Subset.refl _
    have hp : e.PointsAt root.toNode.preorder (reg.Raises options) final.env :=
      Interpreter.execBlock_blames hi root hall state e final hf
    obtain ⟨n, hn, hpos⟩ := hp.exists_node
    exact ⟨e, rfl, hpos ▸ hset n hn, hp⟩
  | invalidOperator | noValue | host => cases hsafe

/-- A function that is not there, called for an argument of one that is. -/
theorem run_error_located_unknown :
    ∃ (script : Script) (reg : Registry Unit) (final : RunState Unit) (e : Error),
      compile [] (Text.ascii "x=1 f(g(x))") = .ok script ∧ reg.KeepsTo .discreet ∧
      ((reg.interpreter ⟨some (.after 5), true⟩ 3).execBlock script.root).run
          (.start NameTable.empty ()) = (.error (.failed (.error e)), final) ∧
      e = .of (Registry.unknownFunction (Text.ascii "g")).cause ⟨1, 7, []⟩ ∧
      e.PointsAt script.root.toNode.preorder (reg.Raises ⟨some (.after 5), true⟩) final.env := by
  let reg : Registry Unit := ⟨[(Text.ascii "f", ⟨some 1, fun _ => .clear (.done none)⟩)]⟩
  have hr : reg.KeepsTo .discreet := by
    intro e he args
    cases List.mem_singleton.mp he
    exact ⟨trivial, trivial⟩
  have hrun : (compile [] (Text.ascii "x=1 f(g(x))")).toOption.map (fun script =>
      (((reg.interpreter ⟨some (.after 5), true⟩ 3).execBlock script.root).run
        (.start NameTable.empty ())).1) = some (.error (.failed (.error
          (.of (Registry.unknownFunction (Text.ascii "g")).cause ⟨1, 7, []⟩)))) := by decide +kernel
  cases hc : compile [] (Text.ascii "x=1 f(g(x))") with
  | error r =>
    rw [hc] at hrun
    cases hrun
  | ok script =>
    rw [hc] at hrun
    obtain ⟨e, he, -, hp⟩ := run_error_located hc hr (Prod.ext (Option.some.inj hrun) rfl)
    cases he
    exact ⟨script, reg, _, _, rfl, hr, Prod.ext (Option.some.inj hrun) rfl, rfl, hp⟩

/-- A function that is there invokes one that is not. The error stands at the only call of the script,
but it names the other function. -/
theorem run_error_of_inner_call :
    let f := Text.ascii "f"
    let g := Text.ascii "g"
    let reg : Registry Unit := ⟨[(f, ⟨some 0, fun _ => .invoke g [] .done⟩)]⟩
    reg.KeepsTo .discreet ∧ reg.contains f = true ∧ reg.contains g = false ∧
    ∃ script, compile [] (Text.ascii "f()") = .ok script ∧
      script.root.toNode.sexpr = Text.ascii "(block (call f))" ∧
      (((reg.interpreter Options.plain 3).execBlock script.root).run (.start NameTable.empty ())).1 =
        .error (.failed (.error (.of (Registry.unknownFunction g).cause ⟨1, 1, []⟩))) := by
  intro f g reg
  have hr : reg.KeepsTo .discreet := by
    intro e he args
    cases List.mem_singleton.mp he
    exact fun _ => trivial
  have hrun : (compile [] (Text.ascii "f()")).toOption.map (fun script =>
      (script.root.toNode.sexpr, (((reg.interpreter Options.plain 3).execBlock script.root).run
        (.start NameTable.empty ())).1)) = some (Text.ascii "(block (call f))",
          .error (.failed (.error (.of (Registry.unknownFunction g).cause ⟨1, 1, []⟩)))) := by
    decide +kernel
  refine ⟨hr, rfl, rfl, ?_⟩
  cases hc : compile [] (Text.ascii "f()") with
  | error r =>
    rw [hc] at hrun
    cases hrun
  | ok script =>
    rw [hc] at hrun
    have h := Option.some.inj hrun
    exact ⟨script, rfl, congrArg Prod.fst h, congrArg Prod.snd h⟩

end Script

end ScriptEngine
