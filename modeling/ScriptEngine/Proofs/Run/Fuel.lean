import ScriptEngine.Proofs.Run.Congruence

/-!
# More fuel

The bound on rounds and on nested calls decides how far a run gets, and nothing else. With a higher
bound the courses of programs begin as they did (`Registry.plan_begins`). So a run that ends is the
same with more fuel (`Course.Begins.run`), and one that does not end has taken the first steps of
the longer run (`Course.Begins.history`).
-/

namespace ScriptEngine

variable {σ α β : Type}

namespace Course

/-- The second course begins as the first, and goes on where the first is unfinished. -/
inductive Begins : Course σ α → Course σ α → Prop where
  | unfinished (c : Course σ α) : Begins .unfinished c
  | done (r : Except Failure α) : Begins (.done r) (.done r)
  | look {next next' : Environment → σ → Course σ α} :
      (∀ env host, Begins (next env host) (next' env host)) → Begins (.look next) (.look next')
  | act (e : Event σ) {next next' : Option Failure → Course σ α} :
      (∀ stop, Begins (next stop) (next' stop)) → Begins (.act e next) (.act e next')

namespace Begins

variable {c c' : Course σ α}

theorem refl (c : Course σ α) : c.Begins c := by
  induction c with
  | done r => exact .done r
  | unfinished => exact .unfinished _
  | look next ih => exact .look ih
  | act e next ih => exact .act e ih

theorem andThen {k k' : Except Failure α → Course σ β} (h : c.Begins c')
    (hk : ∀ r, (k r).Begins (k' r)) : (c.andThen k).Begins (c'.andThen k') := by
  induction h with
  | unfinished => exact .unfinished _
  | done r => exact hk r
  | look _ ih => exact .look ih
  | act e _ ih => exact .act e ih

theorem bind {f f' : α → Course σ β} (h : c.Begins c') (hf : ∀ a, (f a).Begins (f' a)) :
    (c >>= f).Begins (c' >>= f') :=
  h.andThen fun
    | .ok a => hf a
    | .error e => .done (.error e)

theorem repeatWhile {test test' : Course σ Bool} {body body' : Course σ Unit} {n n' : Nat}
    (ht : test.Begins test') (hb : body.Begins body') (hn : n ≤ n') :
    (Course.repeatWhile test body n).Begins (Course.repeatWhile test' body' n') := by
  induction n generalizing n' with
  | zero => exact .unfinished _
  | succ n ih =>
    obtain ⟨m, rfl⟩ := Nat.exists_eq_add_of_le' (Nat.le_trans (Nat.le_add_left 1 n) hn)
    refine ht.bind fun again => ?_
    cases again with
    | false => exact refl _
    | true => exact hb.bind fun _ => ih (Nat.le_of_succ_le_succ hn)

theorem congruence : @Congruence σ Begins (· ≤ ·) := ⟨refl, andThen, repeatWhile⟩

variable (o : Options)

theorem history (h : c.Begins c') (s : RunState σ) : c.history o s <+: c'.history o s := by
  induction h generalizing s with
  | unfinished => exact List.nil_prefix
  | done => exact List.prefix_rfl
  | look _ ih => exact ih _ _ s
  | act e _ ih =>
    rw [Course.history, Course.history, List.prefix_cons_inj]
    exact ih _ _

theorem run (h : c.Begins c') (s : RunState σ) (hf : (c.run o s).1 ≠ .error .unfinished) :
    c'.run o s = c.run o s ∧ c'.history o s = c.history o s := by
  induction h generalizing s with
  | unfinished => exact absurd rfl hf
  | done => exact ⟨rfl, rfl⟩
  | look _ ih => exact ih _ _ s hf
  | act e _ ih =>
    obtain ⟨hr, hh⟩ := ih _ _ hf
    exact ⟨hr, congrArg (e :: ·) hh⟩

end Begins

end Course

/-! ## Programs -/

namespace Plan

/-- What the second plan sets going begins as what the first sets going. -/
structure Begins (p p' : Plan σ) : Prop where
  invoke (name : Text) (args : List Value) : (p.invoke name args).Begins (p'.invoke name args)
  rounds : p.rounds ≤ p'.rounds

variable {p p' : Plan σ}

theorem Begins.related (hp : p.Begins p') : p.Related Course.Begins (· ≤ ·) p' :=
  ⟨hp.invoke, hp.rounds⟩

theorem evalNode_begins (hp : p.Begins p') (n : Node) : (p.evalNode n).Begins (p'.evalNode n) :=
  Course.Begins.congruence.closed.evalNode hp.related n

theorem execBlock_begins (hp : p.Begins p') (b : Block) :
    (p.execBlock b).Begins (p'.execBlock b) :=
  Course.Begins.congruence.closed.execBlock hp.related b

end Plan

theorem Registry.plan_begins (reg : Registry σ) {fuel fuel' : Nat} (hf : fuel ≤ fuel') :
    (reg.plan fuel).Begins (reg.plan fuel') := by
  refine ⟨?_, hf⟩
  show ∀ name args, (reg.course fuel name args).Begins (reg.course fuel' name args)
  induction fuel generalizing fuel' with
  | zero => exact fun _ _ => .unfinished _
  | succ fuel ih =>
    obtain ⟨m, rfl⟩ := Nat.exists_eq_add_of_le' (Nat.le_trans (Nat.le_add_left 1 fuel) hf)
    have hm := Nat.le_of_succ_le_succ hf
    intro name args
    refine (Course.Begins.refl _).bind fun _ => ?_
    cases reg.resolve name args with
    | error e => exact .refl _
    | ok routine => exact Course.Begins.congruence.routine ⟨ih hm, hm⟩ routine

end ScriptEngine
