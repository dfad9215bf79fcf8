import ScriptEngine.Proofs.Run.Invariant
import ScriptEngine.Proofs.Run.Polls
import ScriptEngine.Proofs.Run.Safety
import ScriptEngine.Proofs.Run.Visits
import ScriptEngine.Proofs.Script.RoundTrip
import ScriptEngine.Tree.Sexpr

/-!
# Texts in scripts

A string can only be written as an argument of a call, and that is as far as its text goes. Unless
the host functions bring in texts of their own, no variable ever holds one, no operand is one, and
the texts that a script gives to a function are those that stand in the call (`texts_stay_in_calls`).
What functions give to each other is up to them (`texts_between_functions`).
-/

namespace ScriptEngine

variable {σ α : Type}

/-! ## Programs without texts -/

/-- No name is bound to a text. -/
def NameTable.Textless (env : Environment) : Prop := ∀ name w, env.find? name ≠ some (.text w)

theorem NameTable.Textless.insert {env : Environment} (h : env.Textless) {name : Text} {v : Value}
    (hv : ∀ w, v ≠ .text w) : NameTable.Textless (env.insert name v) := by
  intro other w hw
  by_cases ho : other = name
  · rw [ho, find?_insert_self] at hw
    exact hv w (Option.some.inj hw)
  · rw [find?_insert_of_ne ho] at hw
    exact h other w hw

/-- If the value is a text, the expression is a string with this text. -/
def Expr.Literal (e : Expr) (v : Value) : Prop := ∀ w, v = .text w → ∃ pos, e = .string pos w

theorem type_arithmetic {pos : Pos} {op : TokenKind} {a b v : Value}
    (h : arithmetic pos op a b = .ok v) : v.type = .number := by
  revert h
  fun_cases arithmetic pos op a b <;> rintro ⟨⟩ <;> rfl

namespace Plan

variable {p : Plan σ} {o : Options}

/-- Calls leave no text behind, neither as a result nor in the environment. -/
def Textless (p : Plan σ) (o : Options) : Prop :=
  ∀ name args, (p.invoke name args).Stays o NameTable.Textless fun r => ∀ w, r ≠ some (.text w)

theorem call_stays (hp : p.Textless o) (pos : Pos) (name : Text) {c : Course σ (List Value)}
    {Q : List Value → Prop} (hc : c.Stays o NameTable.Textless Q) :
    (p.call pos name c).Stays o NameTable.Textless fun r => ∀ w, r ≠ some (.text w) :=
  (Course.Stays.happen_of_isWrite rfl).bind fun _ _ =>
    hc.bind fun vs _ => (hp name vs).mapFailure _

mutual

theorem eval_stays (hp : p.Textless o) (e : Expr) :
    (p.eval e).Stays o NameTable.Textless e.Literal := by
  cases e with
  | number =>
    unfold eval
    exact .pure fun _ hw => by cases hw
  | string pos t =>
    unfold eval
    exact .pure fun _ hw => ⟨pos, by cases hw; rfl⟩
  | var pos name =>
    unfold eval
    refine (Course.Stays.find? name).bind fun v hv => ?_
    obtain ⟨env, henv, hfind⟩ := hv
    cases v with
    | none => exact .fail _
    | some v => exact .pure fun w hw => absurd (hw ▸ hfind) (henv name w)
  | binary pos op l r =>
    unfold eval
    refine (eval_stays hp l).bind fun a _ => (eval_stays hp r).bind fun b _ => ?_
    exact .done fun v hv w hw => by cases hw ▸ type_arithmetic hv
  | comparison pos op l r =>
    unfold eval
    refine (eval_stays hp l).bind fun a _ => (eval_stays hp r).bind fun b _ => ?_
    exact .done fun v hv w hw => by cases hw ▸ type_compareValues hv
  | call pos name args =>
    unfold eval
    refine (call_stays hp pos name (evalArgs_stays hp args)).bind fun v hv => ?_
    cases v with
    | none => exact .fail _
    | some v => exact .pure fun w hw => absurd (congrArg some hw) (hv w)

theorem evalArgs_stays (hp : p.Textless o) (es : List Expr) :
    (p.evalArgs es).Stays o NameTable.Textless (List.Forall₂ Expr.Literal es) := by
  cases es with
  | nil =>
    unfold evalArgs
    exact .pure .nil
  | cons e es =>
    unfold evalArgs
    exact (eval_stays hp e).bind fun v hv => (evalArgs_stays hp es).bind fun vs hvs =>
      .pure (.cons hv hvs)

end

theorem condition_stays (hp : p.Textless o) (c : Condition) :
    (p.condition c).Stays o NameTable.Textless fun _ => True :=
  (eval_stays hp c.toExpr).bind fun _ _ => .done fun _ _ => trivial

end Plan

/-- No string stands on the right of an assignment. -/
def Node.AssignsNoString (nodes : List Node) : Prop :=
  ∀ pos name v, .stmt (.assign pos name v) ∈ nodes → ∀ pos' w, v ≠ .string pos' w

namespace Plan

variable {p : Plan σ} {o : Options} {nodes : List Node}

open Node (AssignsNoString)

mutual

theorem exec_stays (hp : p.Textless o) (ha : AssignsNoString nodes) (s : Stmt) {rest : List Node}
    (hn : s.nodesOnto rest ⊆ nodes) : (p.exec s).Stays o NameTable.Textless fun _ => True := by
  cases s with
  | expr e =>
    cases e with
    | call pos name args =>
      unfold exec
      exact (call_stays hp pos name (evalArgs_stays hp args)).discard
    | _ =>
      unfold exec
      exact (eval_stays hp _).discard
  | assign pos name value =>
    unfold exec
    refine (eval_stays hp value).bind fun v hv => .happen fun s hs => hs.insert fun w hw => ?_
    obtain ⟨pos', hvalue⟩ := hv w hw
    exact ha pos name value (hn List.mem_cons_self) pos' w hvalue
  | block b =>
    unfold exec
    exact execBlock_stays hp ha b hn
  | ifThen pos c t =>
    unfold exec
    have ht := c.toExpr.subset_of_nodesOnto (List.subset_of_cons_subset hn)
    refine (condition_stays hp c).bind fun holds _ => ?_
    cases holds with
    | true => exact execBlock_stays hp ha t ht
    | false => exact .pure trivial
  | ifElse pos c t e =>
    unfold exec
    have ht := c.toExpr.subset_of_nodesOnto (List.subset_of_cons_subset hn)
    refine (condition_stays hp c).bind fun holds _ => ?_
    cases holds with
    | true => exact execBlock_stays hp ha t ht
    | false => exact execBlock_stays hp ha e (t.subset_of_nodesOnto ht)
  | loop pos c b =>
    unfold exec
    have hb := c.toExpr.subset_of_nodesOnto (List.subset_of_cons_subset hn)
    exact .repeatWhile (.bind (.happen_of_isWrite rfl) fun _ _ => condition_stays hp c)
      (execBlock_stays hp ha b hb) p.rounds

theorem execBlock_stays (hp : p.Textless o) (ha : AssignsNoString nodes) (b : Block)
    {rest : List Node} (hn : b.nodesOnto rest ⊆ nodes) :
    (p.execBlock b).Stays o NameTable.Textless fun _ => True := by
  cases b with
  | mk pos ss =>
    unfold execBlock
    exact execBody_stays hp ha ss (List.subset_of_cons_subset hn)

theorem execBody_stays (hp : p.Textless o) (ha : AssignsNoString nodes) (ss : List Stmt)
    {rest : List Node} (hn : Stmt.nodesOntoBody ss rest ⊆ nodes) :
    (p.execBody ss).Stays o NameTable.Textless fun _ => True := by
  cases ss with
  | nil =>
    unfold execBody
    exact .pure trivial
  | cons s ss =>
    unfold execBody
    have hss := s.subset_of_nodesOnto hn
    exact (Course.Stays.happen_of_isWrite rfl).bind fun _ _ => (exec_stays hp ha s hn).bind
      fun _ _ => execBody_stays hp ha ss hss

end

end Plan

/-! ## Host functions without texts -/

namespace Registry

/-- Functions that give no texts and leave the environment alone. They may look at it, call one
another and run programs that do the same. -/
structure Aloof (reg : Registry σ) (o : Options) : Prop where
  results (fuel : Nat) (name : Text) (args : List Value) (s : RunState σ) (w : Text) :
    ((reg.invoke o fuel name args).run s).1 ≠ .ok (some (.text w))
  environment (fuel : Nat) (name : Text) (args : List Value) (s : RunState σ) :
    ∀ e ∈ (reg.course fuel name args).history o s, e.isWrite = false

theorem Aloof.textless {reg : Registry σ} {o : Options} (h : reg.Aloof o) (fuel : Nat) :
    (reg.plan fuel).Textless o := by
  intro name args
  have hfollows := (reg.interpreter_follows o fuel).invoke name args
  refine ⟨fun {s es} hs he => ?_, fun {s r} _ hr w hw => ?_⟩
  · have hes : ∀ e ∈ es, e.isWrite = false := fun e hmem =>
      h.environment fuel name args s e (he.subset hmem)
    rw [RunState.env_replay_of_isWrite hes]
    exact hs
  · refine h.results fuel name args s w ?_
    rw [← hw, ← hr]
    exact congrArg Prod.fst (hfollows s)

end Registry

/-- No texts are given, the environment is not changed, and no program is run. -/
def Conduct.textless : Conduct where
  results r := ∀ w, r ≠ some (.text w)
  failures _ := True
  reads := True
  writes := False
  runs := False

theorem Conduct.textless_fits : Conduct.textless.Fits Eq fun e : Event σ => e.isWrite = false where
  runs h := h
  reads _ _ _ h := h
  assign h := h.elim
  clear h := h.elim
  update _ := rfl
  call _ _ := rfl

theorem Registry.KeepsTo.aloof {reg : Registry σ} (h : reg.KeepsTo .textless) (o : Options) :
    reg.Aloof o := by
  refine ⟨fun fuel name args s w hw => ?_, fun fuel name args =>
    (h.within Conduct.textless_fits fuel name args).history o⟩
  have hends : (reg.invoke o fuel name args).Ends Conduct.textless.results fun _ => True := by
    cases fuel with
    | zero => exact .unfinished
    | succ fuel =>
      refine (Run.Ends.modify _).bind fun _ _ => ?_
      cases hr : reg.resolve name args with
      | error e => exact .fail trivial
      | ok routine =>
        obtain ⟨f, -, hf, rfl⟩ := resolve_eq_ok hr
        refine (h _ hf args).ends (fun h => h) fun _ _ _ => ?_
        split <;> trivial
  have hs := hends s
  rw [hw] at hs
  exact hs w rfl

/-! ## Scripts -/

section Trees

open Node (AssignsNoString)

variable {ns : List Node}

theorem Expr.WellFormed.ne_string {e : Expr} {p : Place} (h : e.WellFormed p) (hp : p ≠ .argument)
    (pos : Pos) (w : Text) : e ≠ .string pos w := by
  rintro rfl
  exact hp h.1

theorem Node.AssignsNoString.cons {n : Node} (h : AssignsNoString ns)
    (hn : ∀ pos name v, n ≠ .stmt (.assign pos name v)) : AssignsNoString (n :: ns) := by
  intro pos name v hmem
  exact h pos name v ((List.mem_cons.mp hmem).resolve_left (hn pos name v).symm)

theorem Node.AssignsNoString.expr (h : AssignsNoString ns) (e : Expr) :
    AssignsNoString (e.nodesOnto ns) :=
  fun pos name v hmem => h pos name v (e.mem_of_mem_nodesOnto hmem)

mutual

theorem Stmt.assignsNoString_nodesOnto (s : Stmt) (h : s.WellFormed) {rest : List Node}
    (hs : AssignsNoString rest) : AssignsNoString (s.nodesOnto rest) := by
  cases s with
  | expr e => exact hs.expr e
  | assign pos n v =>
    intro pos' n' v' hmem
    rcases List.mem_cons.mp hmem with heq | hmem
    · cases heq
      exact h.2.ne_string (by decide)
    · exact hs.expr v pos' n' v' hmem
  | block => cases h
  | ifThen pos c b | loop pos c b =>
    exact ((b.assignsNoString_nodesOnto h.2 hs).expr c.toExpr).cons nofun
  | ifElse pos c b b' =>
    have hb := b.assignsNoString_nodesOnto h.2.1 (b'.assignsNoString_nodesOnto h.2.2 hs)
    exact (hb.expr c.toExpr).cons nofun

theorem Block.assignsNoString_nodesOnto (b : Block) (h : b.WellFormed) {rest : List Node}
    (hs : AssignsNoString rest) : AssignsNoString (b.nodesOnto rest) := by
  cases b with
  | mk pos ss => exact (Stmt.assignsNoString_nodesOntoBody ss h hs).cons nofun

theorem Stmt.assignsNoString_nodesOntoBody (ss : List Stmt) (h : Stmt.AllWellFormed ss)
    {rest : List Node} (hs : AssignsNoString rest) :
    AssignsNoString (Stmt.nodesOntoBody ss rest) := by
  cases ss with
  | nil => exact hs
  | cons s ss =>
    exact s.assignsNoString_nodesOnto h.1 (Stmt.assignsNoString_nodesOntoBody ss h.2 hs)

end

end Trees

namespace Interpreter

variable (it : Interpreter σ)

/-- Neither of two operands, evaluated in turn, is a text. -/
def OperandsTextless (l r : Expr) (s : RunState σ) : Prop :=
  ∀ a s', (it.eval l).run s = (.ok a, s') → (∀ w, a ≠ .text w) ∧
    ∀ b s'', (it.eval r).run s' = (.ok b, s'') → ∀ w, b ≠ .text w

/-- No operand is a text, and texts are passed on only where they stand as strings. -/
def PassesOnlyLiterals : Visit σ → Prop
  | .node (.expr (.binary _ _ l r)) s | .node (.expr (.comparison _ _ l r)) s =>
    it.OperandsTextless l r s
  | .node _ _ => True
  | .invocation _ args values _ => List.Forall₂ Expr.Literal args values

end Interpreter

theorem Run.Keeps.of_stays {x : Run σ α} {o : Options} {c : Course σ α} {I : Environment → Prop}
    {Q : α → Prop} (hx : x.Follows o c) (hc : c.Stays o I Q) : x.Keeps fun s => I s.env := by
  intro s hs
  rw [hx s]
  exact hc.run hs

namespace Interpreter

variable {it : Interpreter σ} {p : Plan σ} {nodes : List Node}

theorem Follows.maintains_textless (hi : it.Follows p) (hp : p.Textless it.options)
    (ha : Node.AssignsNoString nodes) : it.Maintains (fun s => s.env.Textless) nodes where
  poll pos := .of_stays (poll_follows pos) (.happen_of_isWrite rfl)
  trace st := .of_stays (traceStatement_follows st) (.happen_of_isWrite rfl)
  eval _ := .of_stays (eval_follows hi _) (Plan.eval_stays hp _)
  exec hn := .of_stays (exec_follows hi _) (Plan.exec_stays hp ha _ hn)

theorem Follows.eval_literal (hi : it.Follows p) (hp : p.Textless it.options) {e : Expr}
    {s s' : RunState σ} {v : Value} (hs : s.env.Textless)
    (h : (it.eval e).run s = (.ok v, s')) : e.Literal v ∧ s'.env.Textless := by
  have hst := Plan.eval_stays hp e
  rw [eval_follows hi e s] at h
  have hs' := hst.run hs
  rw [h] at hs'
  exact ⟨hst.result hs (congrArg Prod.fst h), hs'⟩

theorem Follows.operandsTextless (hi : it.Follows p) (hp : p.Textless it.options) {l r : Expr}
    {s : RunState σ} (hs : s.env.Textless) (hl : l.WellFormed .operand)
    (hr : r.WellFormed .operand) : it.OperandsTextless l r s := by
  intro a s' ha
  obtain ⟨hla, hs'⟩ := hi.eval_literal hp hs ha
  refine ⟨fun w hw => ?_, fun b s'' hb w hw => ?_⟩
  · obtain ⟨pos, hstring⟩ := hla w hw
    exact hl.ne_string (by decide) pos w hstring
  · obtain ⟨pos, hstring⟩ := (hi.eval_literal hp hs' hb).1 w hw
    exact hr.ne_string (by decide) pos w hstring

theorem Follows.passesOnlyLiterals (hi : it.Follows p) (hp : p.Textless it.options)
    (hw : Node.ExprsWellFormed nodes) {v : Visit σ}
    (hv : it.Arises (fun s => s.env.Textless) nodes v) : it.PassesOnlyLiterals v := by
  match v with
  | .node (.expr (.binary pos op l r)) s =>
    obtain ⟨p, -, hl, hr⟩ := hw _ hv.1
    exact hi.operandsTextless hp hv.2 hl hr
  | .node (.expr (.comparison pos op l r)) s =>
    obtain ⟨p, -, -, hl, hr⟩ := hw _ hv.1
    exact hi.operandsTextless hp hv.2 hl hr
  | .node (.stmt _) _ | .node (.expr (.number ..)) _ | .node (.expr (.string ..)) _
  | .node (.expr (.var ..)) _ | .node (.expr (.call ..)) _ => trivial
  | .invocation name args values s' =>
    obtain ⟨-, s, hs, hrun⟩ := hv
    rw [evalArgs_follows hi args s] at hrun
    exact (Plan.evalArgs_stays hp args).result hs (congrArg Prod.fst hrun)

end Interpreter

namespace Script

variable {file source : Text} {script : Script}

/-- All along every run of a script, no variable holds a text, no operand is one, and the functions
that it calls are given no texts but those that stand in the call. These are all its calls: whatever
else is noted, a function brings about, and nothing is if no function calls another. -/
theorem texts_stay_in_calls (hc : compile file source = .ok script) {reg : Registry σ} {o : Options}
    (hr : reg.Aloof o) {s : RunState σ} (hs : s.env.Textless) (fuel : Nat) :
    let it := reg.interpreter o fuel
    let visits := it.blockVisits script.root s
    (∀ es, es <+: ((reg.executing script.root).course fuel).history o s →
      NameTable.Textless (s.replay o es).env) ∧
    (∀ v ∈ visits, it.PassesOnlyLiterals v) ∧
    ((it.execBlock script.root).run s).2.calls.toList =
      s.calls.toList ++ visits.flatMap it.noted ∧
    (reg.IsSolitary → ∀ c ∈ visits.flatMap it.noted, ∃ pos args,
      .expr (.call pos c.name args) ∈ script.root.toNode.preorder ∧
        List.Forall₂ Expr.Literal args c.args) := by
  intro it visits
  have hp := hr.textless fuel
  have hi := reg.interpreter_follows o fuel
  have hw : script.root.WellFormed := by
    obtain ⟨root, file'⟩ := script
    obtain rfl : file' = file := file_of_compile hc
    exact wellFormed_of_compile hc
  have ha : Node.AssignsNoString script.root.toNode.preorder :=
    script.root.assignsNoString_nodesOnto hw fun _ _ _ h => by cases h
  have harises : ∀ v ∈ visits, it.Arises (fun s => s.env.Textless) script.root.toNode.preorder v :=
    Interpreter.blockVisits_forall (hi.maintains_textless hp ha) script.root (List.Subset.refl _) hs
  have hpasses : ∀ v ∈ visits, it.PassesOnlyLiterals v := fun v hv =>
    hi.passesOnlyLiterals hp hw.exprs (harises v hv)
  refine ⟨fun es he => ?_, hpasses, Interpreter.execBlock_tallies hi script.root s,
    fun hsol c hc => ?_⟩
  · exact (Plan.execBlock_stays hp ha script.root (List.Subset.refl _)).env hs he
  · obtain ⟨v, hv, hcv⟩ := List.mem_flatMap.mp hc
    cases v with
    | node => cases hcv
    | invocation name args values s' =>
      obtain rfl := hsol.eq_of_mem_noted hcv
      obtain ⟨pos, hnode⟩ := (harises _ hv).1
      exact ⟨pos, args, hnode, hpasses _ hv⟩

/-- A text is passed on, and then what came of it. -/
theorem texts_stay_in_calls_nested :
    ∃ (script : Script) (reg : Registry Unit),
      compile [] (Text.ascii "x=f('a') f(x,f('b'))") = .ok script ∧
      reg.Aloof ⟨none, true⟩ ∧ NameTable.Textless NameTable.empty ∧
      ∀ v ∈ (reg.interpreter ⟨none, true⟩ 2).blockVisits script.root (.start NameTable.empty ()),
        (reg.interpreter ⟨none, true⟩ 2).PassesOnlyLiterals v := by
  let reg : Registry Unit :=
    ⟨[(Text.ascii "f", ⟨none, fun vs => .done (some (.boolean vs.isEmpty))⟩)]⟩
  have hr : reg.KeepsTo .textless := by
    intro e he args
    cases List.mem_singleton.mp he
    exact nofun
  have hs : NameTable.Textless NameTable.empty := fun _ _ h => by cases h
  have hok : (compile [] (Text.ascii "x=f('a') f(x,f('b'))")).isOk = true := by decide +kernel
  cases hc : compile [] (Text.ascii "x=f('a') f(x,f('b'))") with
  | error r =>
    rw [hc] at hok
    cases hok
  | ok script =>
    have h := texts_stay_in_calls hc (hr.aloof ⟨none, true⟩) (s := .start NameTable.empty ()) hs 2
    exact ⟨script, reg, rfl, hr.aloof _, hs, h.2.1⟩

/-- A function that calls another may pass on a text that stands nowhere in the script. -/
theorem texts_between_functions :
    let f := Text.ascii "f"
    let g := Text.ascii "g"
    let secret := Value.text (Text.ascii "secret")
    let reg : Registry Unit := ⟨[(f, ⟨none, fun _ => .invoke g [secret] fun _ => .done none⟩),
      (g, ⟨none, fun _ => .done none⟩)]⟩
    reg.Aloof Options.plain ∧
    ∃ script, compile [] (Text.ascii "f()") = .ok script ∧
      script.root.toNode.sexpr = Text.ascii "(block (call f))" ∧
      (((reg.interpreter Options.plain 3).execBlock script.root).run
        (.start NameTable.empty ())).2.calls.toList = [⟨f, []⟩, ⟨g, [secret]⟩] := by
  intro f g secret reg
  have hr : reg.KeepsTo .textless := by
    intro e he args
    rcases List.mem_pair.mp he with rfl | rfl
    · exact fun _ => nofun
    · exact nofun
  have hrun : (compile [] (Text.ascii "f()")).toOption.map (fun script =>
      (script.root.toNode.sexpr, (((reg.interpreter Options.plain 3).execBlock script.root).run
        (.start NameTable.empty ())).2.calls.toList)) =
      some (Text.ascii "(block (call f))", [⟨f, []⟩, ⟨g, [secret]⟩]) := by decide +kernel
  refine ⟨hr.aloof _, ?_⟩
  cases hc : compile [] (Text.ascii "f()") with
  | error r =>
    rw [hc] at hrun
    cases hrun
  | ok script =>
    rw [hc] at hrun
    have h := Option.some.inj hrun
    exact ⟨script, rfl, congrArg Prod.fst h, congrArg Prod.snd h⟩

end Script

end ScriptEngine
