import ScriptEngine.Proofs.Run.Footprint
import ScriptEngine.Proofs.Run.Milestones

/-!
# How often the cancel hook is asked

A run that ends well has asked its hook once for each of its milestones: for each invocation, for each
loop and for each round of a loop (`polls_counted`). Loops ask before every test; the first test goes
with the beginning of the loop, and every other one with the round before it.

The calls that a run notes are the invocations among its milestones, each followed by those that the
function makes itself (`Interpreter.Marks.notes`).
-/

namespace ScriptEngine

variable {σ α β γ δ : Type}

namespace Run

variable {x : Run σ α} {s s' : RunState σ}

theorem mapFailure_eq_ok {g : Failure → Failure} {a : α} (h : (x.mapFailure g).run s = (.ok a, s')) :
    x.run s = (.ok a, s') := by
  rw [run_mapFailure] at h
  generalize x.run s = r at h ⊢
  rcases r with ⟨(f | _) | b, t⟩
  · cases h
  · cases h
  · exact h

theorem flatMap_after (k : α → RunState σ → List γ) (f : γ → List δ) :
    (x.after s k).flatMap f = x.after s fun a t => (k a t).flatMap f := by
  unfold after
  split <;> rfl

end Run

/-! ## Counting polls -/

namespace Interpreter

variable {it : Interpreter σ}

/-- The functions do not ask the hook. -/
def Pollless (it : Interpreter σ) : Prop :=
  ∀ {name vs s r s'}, (it.invoke name vs).run s = (r, s') → s'.polls = s.polls

theorem polls_poll (ho : it.options.cancel.isSome = true) {pos : Pos} {s s' : RunState σ}
    {r : Except Stop Unit} (h : (it.poll pos).run s = (r, s')) : s'.polls = s.polls + 1 := by
  have hnote : ((Event.poll pos).note it.options s).polls = s.polls + 1 := by
    simp [Event.note_polls, Event.isPoll, ho]
  rw [poll_follows pos s, Course.happen, Course.run] at h
  split at h <;> cases h <;> exact hnote

section Loops

variable {condition : Run σ Bool} {body : Run σ Unit} {v w : RunState σ → List (Milestone σ)}

/-- A loop asks once more than it has milestones after its beginning. -/
theorem polls_roundMilestones (ho : it.options.cancel.isSome = true) {pos : Pos}
    (hc : ∀ {s a s'}, condition.run s = (.ok a, s') → s'.polls = s.polls + (v s).length)
    (hb : ∀ {s a s'}, body.run s = (.ok a, s') → s'.polls = s.polls + (w s).length) (n : Nat)
    {s s' : RunState σ}
    (h : (Run.repeatWhile (do it.poll pos; condition) body n).run s = (.ok (), s')) :
    s'.polls = s.polls + (roundMilestones pos (do it.poll pos; condition) body
      (fun s => (it.poll pos).after s fun _ s' => v s') w n s).length + 1 := by
  induction n generalizing s with
  | zero => cases h
  | succ n ih =>
    obtain ⟨again, s₂, htest, hrest⟩ := Run.bind_eq_ok h
    obtain ⟨_, s₁, hpoll, hcond⟩ := Run.bind_eq_ok htest
    have h₁ := polls_poll ho hpoll
    have h₂ := hc hcond
    rw [roundMilestones, Run.after_of_ok htest, Run.after_of_ok hpoll, List.length_append]
    cases again with
    | false =>
      cases hrest
      rw [if_neg Bool.false_ne_true, List.length_nil]
      omega
    | true =>
      obtain ⟨_, s₃, hbody, hrest⟩ := Run.bind_eq_ok hrest
      have h₃ := hb hbody
      have h₄ := ih hrest
      rw [if_pos rfl, Run.after_of_ok hbody, List.length_cons, List.length_append]
      omega

end Loops

/-- A run that ends well asks for each of its milestones once. -/
theorem Marks.polls (ho : it.options.cancel.isSome = true) (hi : it.Pollless) {x : Run σ α}
    {v : RunState σ → List (Milestone σ)} (h : it.Marks x v) {s s' : RunState σ} {a : α}
    (hr : x.run s = (.ok a, s')) : s'.polls = s.polls + (v s).length := by
  -- Not by `parts`: a poll and a milestone that make up for each other stand in different parts.
  induction h generalizing s s' with
  | quiet hx =>
    have hp := hx.polls s
    rw [hr] at hp
    exact hp
  | bind _ _ ihx ihf =>
    obtain ⟨b, t, hx, hf⟩ := Run.bind_eq_ok hr
    have h₁ := ihx hx
    have h₂ := ihf b hf
    show _ = _ + (_ ++ Run.after _ _ _).length
    rw [Run.after_of_ok hx, List.length_append]
    omega
  | call pos name _ iha =>
    obtain ⟨_, s₁, hpoll, hrest⟩ := Run.bind_eq_ok hr
    obtain ⟨vs, s₂, hargs, hinvoke⟩ := Run.bind_eq_ok hrest
    have h₁ := polls_poll ho hpoll
    have h₂ := iha hargs
    have h₃ := hi (Run.mapFailure_eq_ok hinvoke)
    show _ = _ + (Run.after _ _ _).length
    rw [Run.after_of_ok hpoll, Run.after_of_ok hargs, List.length_append, List.length_singleton]
    omega
  | loop pos rounds _ _ ihc ihb => exact polls_roundMilestones ho ihc ihb rounds hr

end Interpreter

/-! ## The calls that are noted -/

/-- The run notes the calls `l`. -/
def Run.Notes (x : Run σ α) (l : RunState σ → List CallRecord) : Prop :=
  ∀ s, (x.run s).2.calls.toList = s.calls.toList ++ l s

namespace Run.Notes

variable {x : Run σ α} {l : RunState σ → List CallRecord}

theorem nil (h : ∀ s, (x.run s).2.calls = s.calls) : x.Notes fun _ => [] := by
  intro s
  rw [h, List.append_nil]

theorem bind {f : α → Run σ β} {m : α → RunState σ → List CallRecord} (hx : x.Notes l)
    (hf : ∀ a, (f a).Notes (m a)) : (x >>= f).Notes fun s => l s ++ x.after s m := by
  intro s
  have h := hx s
  simp only [run_bind, after]
  generalize x.run s = r at h ⊢
  rcases r with ⟨e | a, t⟩
  · rw [List.append_nil]
    exact h
  · rw [hf a t, ← List.append_assoc, ← h]

theorem mapFailure (hx : x.Notes l) (g : Failure → Failure) : (x.mapFailure g).Notes l := by
  intro s
  have h := hx s
  rw [run_mapFailure]
  generalize x.run s = r at h ⊢
  rcases r with ⟨(f | _) | a, t⟩ <;> exact h

end Run.Notes

def Milestone.record? : Milestone σ → Option CallRecord
  | invocation _ name vs _ => some ⟨name, vs⟩
  | loop _ | round _ => none

namespace Interpreter

variable (it : Interpreter σ)

/-- The calls that are noted while a function is carried out, those that it makes itself. -/
def inner : Milestone σ → List CallRecord
  | .invocation _ name vs s => ((it.invoke name vs).run s).2.calls.toList.drop (s.calls.size + 1)
  | .loop _ | .round _ => []

/-- The call that is noted for a milestone, if it is an invocation, and those made on its account. -/
def logged (m : Milestone σ) : List CallRecord := m.record?.toList ++ it.inner m

/-- An invocation is noted before the function does anything. -/
def NotesFirst (it : Interpreter σ) : Prop :=
  ∀ pos name vs, (it.invoke name vs).Notes fun s => it.logged (.invocation pos name vs s)

variable {it}

theorem poll_notes (pos : Pos) : (it.poll pos).Notes fun _ => [] := fun s => poll_tallies pos s

/-- A run notes its invocations and the calls that the functions make themselves. -/
theorem Marks.notes (hi : it.NotesFirst) {x : Run σ α} {v : RunState σ → List (Milestone σ)}
    (h : it.Marks x v) : x.Notes fun s => (v s).flatMap it.logged := by
  refine h.parts (P := fun _ x v => x.Notes fun s => (v s).flatMap it.logged) (fun hx => .nil hx.calls)
    (fun hx hf s => ?_) poll_notes (fun pos name vs s => ?_) (fun _ _ _ hx => hx) (fun _ _ _ hx => hx)
  · simp only [List.flatMap_append, Run.flatMap_after]
    exact hx.bind hf s
  · simp only [List.flatMap_singleton]
    exact (hi pos name vs).mapFailure _ s

end Interpreter

/-! ## Host functions -/

/-- Host functions that may do anything but run programs. -/
def Conduct.shallow : Conduct where
  results _ := True
  failures _ := True
  reads := True
  writes := True
  runs := False

theorem Conduct.shallow_fits : Conduct.shallow.Fits Eq fun e : Event σ => e.isPoll = false where
  runs h := h
  reads _ _ _ h := h
  assign _ _ _ := rfl
  clear _ := rfl
  update _ := rfl
  call _ _ := rfl

/-- The routine calls no function and runs no program. -/
def Routine.IsSolitary : Routine σ → Prop
  | done _ | fail _ => True
  | inspect next => ∀ env, (next env).IsSolitary
  | assign _ _ next | clear next => next.IsSolitary
  | update _ next => ∀ s, (next s).IsSolitary
  | invoke _ _ _ | run _ _ | eval _ _ => False
  | recover attempt next => attempt.IsSolitary ∧ ∀ r, (next r).IsSolitary

theorem Routine.IsSolitary.within {r : Routine σ} (h : r.IsSolitary) (p : Plan σ) :
    (r.course p).Within Eq (·.call? = none) := by
  induction r with
  | done | fail => trivial
  | inspect next ih => exact (Course.Within.environment fun _ _ h => h).bind fun env => ih env (h env)
  | assign name v next ih | clear next ih => exact .bind (.happen rfl) fun _ => ih h
  | update f next ih => exact .bind (.updateHost rfl) fun s => ih s (h s)
  | invoke | run | eval => exact h.elim
  | recover attempt next iha ih => exact (iha h.1).attempt.bind fun r => ih r (h.2 r)

theorem Routine.IsSolitary.keepsTo {r : Routine σ} (h : r.IsSolitary) : r.KeepsTo .shallow := by
  induction r with
  | done | fail => trivial
  | inspect next ih => exact ⟨trivial, fun env => ih env (h env)⟩
  | assign name v next ih | clear next ih => exact ⟨trivial, ih h⟩
  | update f next ih => exact fun s => ih s (h s)
  | invoke | run | eval => exact h.elim
  | recover attempt next iha ih => exact ⟨iha h.1, fun r => ih r (h.2 r)⟩

namespace Registry

/-- No function of the registry calls another or runs a program. -/
def IsSolitary (reg : Registry σ) : Prop := ∀ e ∈ reg.entries, ∀ args, (e.2.body args).IsSolitary

theorem IsSolitary.keepsTo {reg : Registry σ} (h : reg.IsSolitary) : reg.KeepsTo .shallow :=
  fun e he args => (h e he args).keepsTo

variable {reg : Registry σ} {o : Options} {fuel : Nat}

theorem run_invoke_state (name : Text) (vs : List Value) (s : RunState σ) :
    ((reg.invoke o fuel name vs).run s).2 =
      s.replay o ((reg.course fuel name vs).history o s) := by
  have hf : (reg.invoke o fuel name vs).run s = (reg.course fuel name vs).run o s :=
    (reg.interpreter_follows o fuel).invoke name vs s
  rw [hf, Course.run_state]

theorem KeepsTo.pollless (h : reg.KeepsTo .shallow) : (reg.interpreter o fuel).Pollless := by
  intro name vs s r s' hr
  have hw : (reg.course fuel name vs).Within Eq (·.isPoll = false) :=
    h.within Conduct.shallow_fits fuel name vs
  have hs : s' = s.replay o ((reg.course fuel name vs).history o s) := by
    rw [← run_invoke_state]
    exact (congrArg Prod.snd hr).symm
  have hnone : ((reg.course fuel name vs).history o s).countP Event.isPoll = 0 :=
    List.countP_eq_zero.mpr fun e he => Bool.not_eq_true _ ▸ hw.history o s e he
  rw [hs, RunState.replay_polls, hnone, ite_self, Nat.add_zero]

/-- A call is noted first, and by itself where no function calls another. -/
theorem exists_calls_invoke (reg : Registry σ) (o : Options) (fuel : Nat) (name : Text)
    (vs : List Value) (s : RunState σ) :
    ∃ rest, ((reg.invoke o (fuel + 1) name vs).run s).2.calls.toList =
      s.calls.toList ++ ⟨name, vs⟩ :: rest ∧ (reg.IsSolitary → rest = []) := by
  rw [run_invoke_state, RunState.replay_calls]
  unfold course
  cases hr : reg.resolve name vs with
  | error e => exact ⟨[], rfl, fun _ => rfl⟩
  | ok routine =>
    refine ⟨_, rfl, fun hs => ?_⟩
    obtain ⟨f, -, hf, rfl⟩ := resolve_eq_ok hr
    exact List.filterMap_eq_nil_iff.mpr fun e he => ((hs _ hf vs).within _).history o _ e he

/-- Where no function calls another, all that an invocation notes is itself. -/
theorem IsSolitary.eq_of_mem_noted (h : reg.IsSolitary) {name : Text} {args : List Expr}
    {vs : List Value} {s : RunState σ} {c : CallRecord}
    (hc : c ∈ (reg.interpreter o fuel).noted (.invocation name args vs s)) : c = ⟨name, vs⟩ := by
  rw [Interpreter.noted] at hc
  cases fuel with
  | zero =>
    have hsame : ((reg.interpreter o 0).invoke name vs).run s = (.error .unfinished, s) := rfl
    rw [hsame, ← Array.length_toList, List.drop_length] at hc
    cases hc
  | succ fuel =>
    obtain ⟨rest, hcalls, hrest⟩ := reg.exists_calls_invoke o fuel name vs s
    rw [hrest h] at hcalls
    change c ∈ ((reg.invoke o (fuel + 1) name vs).run s).2.calls.toList.drop s.calls.size at hc
    rw [hcalls] at hc
    simpa [List.drop_append] using hc

theorem notesFirst : (reg.interpreter o (fuel + 1)).NotesFirst := by
  intro pos name vs s
  obtain ⟨rest, h, -⟩ := reg.exists_calls_invoke o fuel name vs s
  show ((reg.invoke o (fuel + 1) name vs).run s).2.calls.toList =
    _ ++ ([_] ++ ((reg.invoke o (fuel + 1) name vs).run s).2.calls.toList.drop _)
  rw [h]
  simp [List.drop_append]

theorem IsSolitary.inner_eq_nil (h : reg.IsSolitary) (m : Milestone σ) :
    (reg.interpreter o (fuel + 1)).inner m = [] := by
  cases m with
  | loop | round => rfl
  | invocation pos name vs s =>
    obtain ⟨rest, hr, hrest⟩ := reg.exists_calls_invoke o fuel name vs s
    show ((reg.invoke o (fuel + 1) name vs).run s).2.calls.toList.drop _ = []
    rw [hr, hrest h]
    simp

end Registry

/-! ## The number of polls -/

namespace Milestone

def isInvocation : Milestone σ → Bool
  | invocation _ _ _ _ => true
  | loop _ | round _ => false

def isLoop : Milestone σ → Bool
  | loop _ => true
  | invocation _ _ _ _ | round _ => false

def isRound : Milestone σ → Bool
  | round _ => true
  | invocation _ _ _ _ | loop _ => false

theorem length_eq_counts (ms : List (Milestone σ)) :
    ms.length = ms.countP isInvocation + ms.countP isLoop + ms.countP isRound := by
  induction ms with
  | nil => rfl
  | cons m ms ih =>
    simp only [List.length_cons, List.countP_cons]
    cases m <;> simp only [isInvocation, isLoop, isRound] <;> grind

theorem length_records (ms : List (Milestone σ)) :
    (ms.filterMap record?).length = ms.countP isInvocation := by
  induction ms with
  | nil => rfl
  | cons m ms ih =>
    rw [List.filterMap_cons, List.countP_cons, ← ih]
    cases m <;> rfl

end Milestone

/-- The calls that are noted where no function calls another. -/
theorem Registry.IsSolitary.flatMap_logged {reg : Registry σ} (h : reg.IsSolitary) (o : Options)
    (fuel : Nat) (ms : List (Milestone σ)) :
    ms.flatMap (reg.interpreter o (fuel + 1)).logged = ms.filterMap Milestone.record? := by
  induction ms with
  | nil => rfl
  | cons m ms ih =>
    rw [List.flatMap_cons, ih, Interpreter.logged, h.inner_eq_nil, List.append_nil,
      List.filterMap_cons]
    cases m.record? <;> rfl

/-- A run that ends well, whose functions run no programs, asks its hook once for each invocation,
each loop and each round. -/
theorem polls_counted {reg : Registry σ} (hr : reg.KeepsTo .shallow) {hook : CancelHook} {trace : Bool}
    {fuel : Nat} {b : Block} {s : RunState σ}
    (h : (((reg.interpreter ⟨some hook, trace⟩ (fuel + 1)).execBlock b).run s).1 = .ok ()) :
    let it := reg.interpreter ⟨some hook, trace⟩ (fuel + 1)
    let final := ((it.execBlock b).run s).2
    let ms := it.blockMilestones b s
    final.polls = s.polls + ms.countP Milestone.isInvocation + ms.countP Milestone.isLoop +
      ms.countP Milestone.isRound ∧
    final.calls.toList = s.calls.toList ++ ms.flatMap it.logged ∧
    (reg.IsSolitary → final.calls.size = s.calls.size + ms.countP Milestone.isInvocation) := by
  intro it final ms
  have hm : it.Marks (it.execBlock b) fun s => it.blockMilestones b s := Interpreter.execBlock_marks b
  have hcalls : final.calls.toList = s.calls.toList ++ ms.flatMap it.logged :=
    hm.notes Registry.notesFirst s
  refine ⟨?_, hcalls, fun hs => ?_⟩
  · rw [hm.polls rfl hr.pollless (Prod.ext h rfl), Milestone.length_eq_counts, ← Nat.add_assoc,
      ← Nat.add_assoc]
  · rw [← Array.length_toList, hcalls, hs.flatMap_logged, List.length_append,
      Milestone.length_records, Array.length_toList]

/-- `while f() < 3 g() while f() > 9 endwhile endwhile`, where `f` counts: the outer loop takes one
round, in which the inner loop takes none. -/
theorem polls_counted_nested :
    let name (s : String) := Text.ascii s
    let reg : Registry Nat := ⟨[(name "f", ⟨some 0, fun _ => .update (· + 1) fun n =>
      .done (some (.number (Double.ofNat n)))⟩), (name "g", ⟨some 0, fun _ => .done none⟩)]⟩
    let pos := Pos.unset
    let f : Expr := .call pos (name "f") []
    let b : Block := .mk pos [.loop pos ⟨pos, .less, f, .number pos (Double.ofNat 3)⟩
      (.mk pos [.expr (.call pos (name "g") []),
        .loop pos ⟨pos, .greater, f, .number pos (Double.ofNat 9)⟩ (.mk pos [])])]
    let it := reg.interpreter ⟨some fun _ => false, false⟩ 3
    let s : RunState Nat := .start NameTable.empty 0
    let r := (it.execBlock b).run s
    reg.KeepsTo .shallow ∧ reg.IsSolitary ∧ r.1 = .ok () ∧ r.2.polls = s.polls + 4 + 2 + 1 ∧
      r.2.calls.size = s.calls.size + 4 := by
  intro name reg pos f b it s r
  have hs : reg.IsSolitary := by
    intro e he args
    rcases List.mem_pair.mp he with rfl | rfl
    · exact fun _ => trivial
    · trivial
  have hr := hs.keepsTo
  have hok : r.1 = .ok () := by decide +kernel
  have hcounts : (it.blockMilestones b s).countP Milestone.isInvocation = 4 ∧
      (it.blockMilestones b s).countP Milestone.isLoop = 2 ∧
      (it.blockMilestones b s).countP Milestone.isRound = 1 := by decide +kernel
  -- From here on the program is not to be carried out again.
  clear_value reg b
  obtain ⟨hpolls, -, hcalls⟩ := polls_counted hr hok
  rw [hcounts.1, hcounts.2.1, hcounts.2.2] at hpolls
  rw [hcounts.1] at hcalls
  exact ⟨hr, hs, hok, hpolls, hcalls hs⟩

/-- Where a function calls another one by itself, there are more calls than polls: `f` leads to `g`. -/
theorem polls_fewer_than_calls :
    let name (s : String) := Text.ascii s
    let reg : Registry Unit := ⟨[(name "f", ⟨none, fun _ => .invoke (name "g") [] fun v => .done v⟩),
      (name "g", ⟨none, fun _ => .done (some (.boolean true))⟩)]⟩
    let b : Block := .mk Pos.unset [.expr (.call Pos.unset (name "f") [])]
    let it := reg.interpreter ⟨some fun _ => false, false⟩ 2
    let s : RunState Unit := .start NameTable.empty ()
    let r := (it.execBlock b).run s
    let ms := it.blockMilestones b s
    reg.KeepsTo .shallow ∧ r.1 = .ok () ∧ r.2.calls.size = 2 ∧ r.2.polls = 1 ∧
    r.2.polls ≠ r.2.calls.size + ms.countP Milestone.isLoop + ms.countP Milestone.isRound := by
  intro name reg b it s r ms
  refine ⟨?_, rfl, rfl, rfl, by decide +kernel⟩
  intro e he args
  rcases List.mem_pair.mp he with rfl | rfl
  · exact fun _ => trivial
  · trivial

end ScriptEngine
