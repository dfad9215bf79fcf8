import ScriptEngine.Proofs.Run.Polls

/-!
# The order of calls

An expression makes each of its calls once: arguments from left to right before their call, and a left
operand before the right one. That is the order in which `Expr.postorder` lists a tree. An evaluation
that fails makes the first of these calls only (`calls_in_postorder`).
-/

namespace ScriptEngine

variable {σ α β : Type}

/-! ## The calls of a tree -/

mutual

/-- The parts of an expression, each after its own parts, and itself at the end. -/
def Expr.postorder : Expr → List Expr
  | .number pos x => [.number pos x]
  | .string pos s => [.string pos s]
  | .var pos name => [.var pos name]
  | .binary pos op l r => l.postorder ++ r.postorder ++ [.binary pos op l r]
  | .comparison pos op l r => l.postorder ++ r.postorder ++ [.comparison pos op l r]
  | .call pos name args => Expr.postorderAll args ++ [.call pos name args]

def Expr.postorderAll : List Expr → List Expr
  | [] => []
  | e :: es => e.postorder ++ Expr.postorderAll es

end

/-- Where a call stands, which function it names and how many arguments it has. -/
structure CallSite where
  pos : Pos
  name : Text
  arity : Nat
  deriving DecidableEq

def Milestone.site? : Milestone σ → Option CallSite
  | invocation pos name values _ => some ⟨pos, name, values.length⟩
  | loop _ | round _ => none

namespace Expr

def site? : Expr → Option CallSite
  | .call pos name args => some ⟨pos, name, args.length⟩
  | .number _ _ | .string _ _ | .var _ _ | .binary _ _ _ _ | .comparison _ _ _ _ => none

def callSites (e : Expr) : List CallSite := e.postorder.filterMap site?

def callSitesAll (es : List Expr) : List CallSite := (postorderAll es).filterMap site?

variable (pos : Pos) (l r : Expr)

theorem callSites_binary (op : TokenKind) :
    (binary pos op l r).callSites = l.callSites ++ r.callSites := by
  simp [callSites, postorder, site?]

theorem callSites_comparison (op : TokenKind) :
    (comparison pos op l r).callSites = l.callSites ++ r.callSites := by
  simp [callSites, postorder, site?]

theorem callSites_call (name : Text) (args : List Expr) :
    (call pos name args).callSites = callSitesAll args ++ [⟨pos, name, args.length⟩] := by
  simp [callSites, callSitesAll, postorder, site?]

theorem callSitesAll_cons (e : Expr) (es : List Expr) :
    callSitesAll (e :: es) = e.callSites ++ callSitesAll es := by
  simp [callSites, callSitesAll, postorderAll]

end Expr

/-! ## The calls of a run -/

/-- The milestones of the run are invocations at these sites: at all of them if the run ends well, and
at the first ones in any case. -/
structure Run.CallsAt (x : Run σ α) (v : RunState σ → List (Milestone σ)) (sites : List CallSite) :
    Prop where
  first (s : RunState σ) : (v s).map Milestone.site? <+: sites.map some
  all {s s' : RunState σ} {a : α} : x.run s = (.ok a, s') →
    (v s).map Milestone.site? = sites.map some

namespace Run.CallsAt

variable {x : Run σ α} {v : RunState σ → List (Milestone σ)} {l m : List CallSite}

theorem nil (x : Run σ α) : x.CallsAt (fun _ => []) [] := ⟨fun _ => List.prefix_rfl, fun _ => rfl⟩

theorem bind {f : α → Run σ β} {w : α → RunState σ → List (Milestone σ)} (hx : x.CallsAt v l)
    (hf : ∀ {s a t}, x.run s = (.ok a, t) → (f a).CallsAt (w a) m) :
    (x >>= f).CallsAt (fun s => v s ++ x.after s w) (l ++ m) := by
  constructor
  · intro s
    rw [List.map_append, List.map_append]
    cases hr : x.run s with
    | mk r t =>
      cases r with
      | error e =>
        rw [Run.after, hr, List.map_nil, List.append_nil]
        exact (hx.first s).trans (List.prefix_append _ _)
      | ok a =>
        rw [after_of_ok hr, hx.all hr]
        exact List.prefix_append_right_inj _ |>.mpr ((hf hr).first t)
  · intro s s' b h
    obtain ⟨a, t, hr, hrest⟩ := bind_eq_ok h
    rw [List.map_append, List.map_append, after_of_ok hr, hx.all hr, (hf hr).all hrest]

/-- What follows makes no calls. -/
theorem bind_nil (hx : x.CallsAt v l) (f : α → Run σ β) : (x >>= f).CallsAt v l := by
  have h := hx.bind fun {_ a _} _ => nil (f a)
  simpa only [after_nil, List.append_nil] using h

end Run.CallsAt

namespace Interpreter

variable {it : Interpreter σ}

theorem length_of_evalArgs {es : List Expr} {s s' : RunState σ} {vs : List Value}
    (h : (it.evalArgs es).run s = (.ok vs, s')) : vs.length = es.length := by
  induction es generalizing s vs with
  | nil =>
    unfold evalArgs at h
    cases h
    rfl
  | cons e es ih =>
    unfold evalArgs at h
    obtain ⟨v, t, -, hrest⟩ := Run.bind_eq_ok h
    obtain ⟨ws, u, hws, hpure⟩ := Run.bind_eq_ok hrest
    cases hpure
    exact congrArg (· + 1) (ih hws)

/-- A call is made once its arguments are had. -/
theorem call_callsAt (pos : Pos) (name : Text) {args : Run σ (List Value)}
    {v : RunState σ → List (Milestone σ)} {l : List CallSite} {n : Nat} (ha : args.CallsAt v l)
    (hn : ∀ {s vs s'}, args.run s = (.ok vs, s') → vs.length = n) :
    (it.call pos name args).CallsAt
      (fun s => (it.poll pos).after s fun _ s' => v s' ++ args.after s' fun vs s'' =>
        [.invocation pos name vs s'']) (l ++ [⟨pos, name, n⟩]) := by
  refine (Run.CallsAt.nil (it.poll pos)).bind fun _ => ha.bind fun hr => ?_
  cases hn hr
  exact ⟨fun _ => List.prefix_rfl, fun _ => rfl⟩

mutual

theorem eval_callsAt (e : Expr) :
    (it.eval e).CallsAt (fun s => it.exprMilestones e s) e.callSites := by
  cases e with
  | number | string | var =>
    unfold exprMilestones
    exact .nil _
  | binary pos op l r =>
    unfold eval exprMilestones
    rw [Expr.callSites_binary]
    exact (eval_callsAt l).bind fun _ => (eval_callsAt r).bind_nil _
  | comparison pos op l r =>
    unfold eval exprMilestones
    rw [Expr.callSites_comparison]
    exact (eval_callsAt l).bind fun _ => (eval_callsAt r).bind_nil _
  | call pos name args =>
    unfold eval exprMilestones
    rw [Expr.callSites_call]
    exact (call_callsAt pos name (evalArgs_callsAt args) length_of_evalArgs).bind_nil _

theorem evalArgs_callsAt (es : List Expr) :
    (it.evalArgs es).CallsAt (fun s => it.argMilestones es s) (Expr.callSitesAll es) := by
  cases es with
  | nil =>
    unfold argMilestones
    exact .nil _
  | cons e es =>
    unfold evalArgs argMilestones
    rw [Expr.callSitesAll_cons]
    exact (eval_callsAt e).bind fun _ => (evalArgs_callsAt es).bind_nil _

end

end Interpreter

theorem Milestone.filterMap_site? (ms : List (Milestone σ)) :
    ms.filterMap site? = (ms.map site?).filterMap id := by
  rw [List.filterMap_map, Function.id_comp]

/-- The calls that an evaluation makes are those of the tree in postorder, all of them if it gives a
value; then the hook has been asked once for each. -/
theorem calls_in_postorder {reg : Registry σ} (hr : reg.KeepsTo .shallow) (o : Options) (fuel : Nat)
    (e : Expr) (s : RunState σ) :
    let it := reg.interpreter o (fuel + 1)
    let made := it.exprMilestones e s
    let r := (it.eval e).run s
    made.filterMap Milestone.site? <+: e.callSites ∧
    (∀ v, r.1 = .ok v → made.filterMap Milestone.site? = e.callSites ∧
      (o.cancel.isSome = true → r.2.polls = s.polls + e.callSites.length)) ∧
    r.2.calls.toList = s.calls.toList ++ made.flatMap it.logged ∧
    (reg.IsSolitary → r.2.calls.toList = s.calls.toList ++ made.filterMap Milestone.record?) := by
  intro it made r
  have hm : it.Marks (it.eval e) fun s => it.exprMilestones e s := Interpreter.eval_marks e
  have hc : (it.eval e).CallsAt (fun s => it.exprMilestones e s) e.callSites :=
    Interpreter.eval_callsAt e
  have hsome : (e.callSites.map some).filterMap id = e.callSites := by simp
  have hcalls : r.2.calls.toList = s.calls.toList ++ made.flatMap it.logged :=
    hm.notes Registry.notesFirst s
  refine ⟨?_, fun v hv => ?_, hcalls, fun hs => ?_⟩
  · rw [Milestone.filterMap_site?, ← hsome]
    exact (hc.first s).filterMap id
  · have hrun : (it.eval e).run s = (.ok v, r.2) := Prod.ext hv rfl
    have hall := hc.all hrun
    refine ⟨?_, fun ho => ?_⟩
    · rw [Milestone.filterMap_site?, hall, hsome]
    · have hlength := congrArg List.length hall
      rw [List.length_map, List.length_map] at hlength
      rw [hm.polls ho hr.pollless hrun, hlength]
  · rw [hcalls, hs.flatMap_logged]

/-- `f(g('a'), f())` makes three calls. Of `f(g('a'), h())`, where there is no function `h`, the last
call is not made. -/
theorem calls_in_postorder_nested :
    let name (s : String) := Text.ascii s
    let reg : Registry Unit := ⟨[(name "f", ⟨none, fun _ => .done (some (.boolean true))⟩),
      (name "g", ⟨some 1, fun args => .done args.head?⟩)]⟩
    let at_ (n : Int) : Pos := ⟨1, n, []⟩
    let e (inner : Text) : Expr := .call (at_ 1) (name "f")
      [.call (at_ 3) (name "g") [.string (at_ 5) (name "a")], .call (at_ 11) inner []]
    let it := reg.interpreter ⟨some fun _ => false, false⟩ 1
    let s : RunState Unit := .start NameTable.empty ()
    let good := (it.eval (e (name "f"))).run s
    let bad := (it.eval (e (name "h"))).run s
    reg.KeepsTo .shallow ∧ reg.IsSolitary ∧
    (e (name "f")).callSites =
      [⟨at_ 3, name "g", 1⟩, ⟨at_ 11, name "f", 0⟩, ⟨at_ 1, name "f", 2⟩] ∧
    good.1 = .ok (.boolean true) ∧ good.2.polls = s.polls + 3 ∧
    good.2.calls.toList = [⟨name "g", [.text (name "a")]⟩, ⟨name "f", []⟩,
      ⟨name "f", [.text (name "a"), .boolean true]⟩] ∧
    bad.1.isOk = false ∧
    bad.2.calls.toList = [⟨name "g", [.text (name "a")]⟩, ⟨name "h", []⟩] := by
  intro name reg at_ e it s good bad
  have hs : reg.IsSolitary := by
    intro f hf args
    rcases List.mem_pair.mp hf with rfl | rfl <;> trivial
  have hr := hs.keepsTo
  obtain ⟨-, hgood, -, hcalls⟩ := calls_in_postorder hr ⟨some fun _ => false, false⟩ 0 (e (name "f")) s
  obtain ⟨-, -, -, hcalls'⟩ := calls_in_postorder hr ⟨some fun _ => false, false⟩ 0 (e (name "h")) s
  exact ⟨hr, hs, rfl, rfl, (hgood (.boolean true) rfl).2 rfl, hcalls hs, rfl, hcalls' hs⟩

/-- What a function calls by itself is noted too, though it stands nowhere in the tree: `f` leads to
`g`. -/
theorem calls_beyond_postorder :
    let name (s : String) := Text.ascii s
    let reg : Registry Unit := ⟨[(name "f", ⟨none, fun _ => .invoke (name "g") [] fun v => .done v⟩),
      (name "g", ⟨none, fun _ => .done (some (.boolean true))⟩)]⟩
    let e : Expr := .call Pos.unset (name "f") []
    let r := ((reg.interpreter Options.plain 2).eval e).run (.start NameTable.empty ())
    reg.KeepsTo .shallow ∧ r.1 = .ok (.boolean true) ∧
    r.2.calls.toList.map CallRecord.name = [name "f", name "g"] ∧
    e.callSites.map CallSite.name = [name "f"] ∧
    r.2.calls.toList.map CallRecord.name ≠ e.callSites.map CallSite.name := by
  intro name reg e r
  refine ⟨?_, rfl, rfl, rfl, by decide +kernel⟩
  intro f hf args
  rcases List.mem_pair.mp hf with rfl | rfl
  · exact fun _ => trivial
  · trivial

end ScriptEngine
