import ScriptEngine.Proofs.Script.Compile
import ScriptEngine.Proofs.Tree.Height
import ScriptEngine.Run.Interpreter
import ScriptEngine.Tree.Sexpr

/-!
# How deep scripts make their visitors go

The limit on nesting bounds the trees of scripts and not only the parser: no path through a tree has
more than twice as many nodes as there are levels, whatever the source (`compile_bounds_recursion`).
So a recursion over the tree that is cut off there is the same as one that is not.

Writing a tree and carrying it out are such recursions: what they make of a node depends on what they
make of the nodes below it (`Node.sexprOnto_eq_write`, `Interpreter.sense_eq_combine`).
-/

namespace ScriptEngine

/-! ## Writing -/

namespace Node

/-- The text of the tree under a node in front of what follows. -/
def sexprOnto : Node → Text → Text
  | expr e => e.sexprOnto
  | stmt s => s.sexprOnto

/-- Each after a space. -/
def writeEach (ws : List (Text → Text)) (rest : Text) : Text :=
  ws.foldr (fun w rest => Byte.space :: w rest) rest

/-- How a node is written, by how the nodes below it are. -/
def write : Node → List (Text → Text) → Text → Text
  | expr (.number _ x), _, rest => x.decimal 17 ++ rest
  | expr (.string _ s), _, rest => Byte.doubleQuote :: s ++ Byte.doubleQuote :: rest
  | expr (.var _ n), _, rest => n ++ rest
  | expr (.binary _ op _ _), [l, r], rest | expr (.comparison _ op _ _), [l, r], rest =>
    Byte.openParen :: op.symbol ++ Byte.space :: l (Byte.space :: r (Byte.closeParen :: rest))
  | expr (.call _ n _), args, rest =>
    Text.ascii "(call " ++ n ++ writeEach args (Byte.closeParen :: rest)
  | stmt (.expr _), [e], rest => e rest
  | stmt (.assign _ n _), [v], rest =>
    Text.ascii "(assign " ++ n ++ Byte.space :: v (Byte.closeParen :: rest)
  | stmt (.block _), ss, rest => Text.ascii "(block" ++ writeEach ss (Byte.closeParen :: rest)
  | stmt (.ifThen _ _ _), [c, t], rest =>
    Text.ascii "(if " ++ c (Byte.space :: t (Byte.closeParen :: rest))
  | stmt (.ifElse _ _ _ _), [c, t, e], rest =>
    Text.ascii "(if " ++ c (Byte.space :: t (Byte.space :: e (Byte.closeParen :: rest)))
  | stmt (.loop _ _ _), [c, b], rest =>
    Text.ascii "(while " ++ c (Byte.space :: b (Byte.closeParen :: rest))
  | _, _, rest => rest

theorem writeEach_args (es : List Expr) (rest : Text) :
    writeEach ((es.map expr).map sexprOnto) rest = Expr.sexprOntoArgs es rest := by
  induction es with
  | nil => rfl
  | cons e es ih => exact congrArg (fun r => Byte.space :: e.sexprOnto r) ih

theorem sexprOnto_toNode (s : Stmt) : s.toNode.sexprOnto = s.sexprOnto := by
  cases s <;> rfl

theorem writeEach_body (ss : List Stmt) (rest : Text) :
    writeEach ((ss.map Stmt.toNode).map sexprOnto) rest = Stmt.sexprOntoBody ss rest := by
  induction ss with
  | nil => rfl
  | cons s ss ih =>
    show Byte.space :: s.toNode.sexprOnto _ = Byte.space :: s.sexprOnto _
    rw [sexprOnto_toNode]
    exact congrArg (fun r => Byte.space :: s.sexprOnto r) ih

theorem sexprOnto_eq_write (n : Node) : n.sexprOnto = n.write (n.children.map sexprOnto) := by
  funext rest
  cases n with
  | expr e =>
    cases e with
    | call p n args =>
      exact congrArg (Text.ascii "(call " ++ n ++ ·) (writeEach_args args _).symm
    | _ => rfl
  | stmt s =>
    cases s with
    | block b =>
      obtain ⟨p, ss⟩ := b
      exact congrArg (Text.ascii "(block" ++ ·) (writeEach_body ss _).symm
    | _ => rfl

end Node

/-! ## Carrying out -/

/-- What a node does where a value is wanted of it, and where it is carried out. -/
structure Sense (σ : Type) where
  value : Run σ Value
  effect : Run σ Unit

variable {σ : Type}

namespace Sense

def ofValue (value : Run σ Value) : Sense σ := ⟨value, discard value⟩

/-- There is no value. -/
def ofEffect (effect : Run σ Unit) : Sense σ := ⟨Run.fail .noValue, effect⟩

/-- The values in turn. -/
def values : List (Sense σ) → Run σ (List Value)
  | [] => return []
  | x :: xs => do
    let v ← x.value
    let vs ← values xs
    return v :: vs

def test (c : Condition) (x : Sense σ) : Run σ Bool := do
  let v ← x.value
  Run.ofExcept (asCondition c.pos v)

end Sense

namespace Interpreter

variable (it : Interpreter σ)

def sense : Node → Sense σ
  | .expr e => ⟨it.eval e, it.exec (.expr e)⟩
  | .stmt s => .ofEffect (it.exec s)

/-- The statements in turn, each after its line in the trace. -/
def effects : List Stmt → List (Sense σ) → Run σ Unit
  | s :: ss, x :: xs => do
    it.traceStatement s
    x.effect
    effects ss xs
  | _, _ => return

/-- What a node does, by what the nodes below it do. -/
def combine : Node → List (Sense σ) → Sense σ
  | .expr (.number _ x), _ => .ofValue (return .number x)
  | .expr (.string _ s), _ => .ofValue (return .text s)
  | .expr (.var pos name), _ => .ofValue do
    match ← Run.find? name with
    | some v => return v
    | none => Run.fail (.error (.of (.undefinedVariable name) pos))
  | .expr (.binary pos op _ _), [l, r] => .ofValue do
    let a ← l.value
    let b ← r.value
    Run.ofExcept (arithmetic pos op a b)
  | .expr (.comparison pos op _ _), [l, r] => .ofValue do
    let a ← l.value
    let b ← r.value
    Run.ofExcept (compareValues pos op a b)
  | .expr (.call pos name _), args =>
    let result := it.call pos name (Sense.values args)
    ⟨do
      match ← result with
      | some v => return v
      | none => Run.fail (.error (.of (.typeMismatch (.noResult name)) pos)), discard result⟩
  | .stmt (.expr _), [e] => .ofEffect e.effect
  | .stmt (.assign _ name _), [v] => .ofEffect do
    let v ← v.value
    Run.assign name v
  | .stmt (.block b), ss => .ofEffect (it.effects b.body ss)
  | .stmt (.ifThen _ c _), [x, t] => .ofEffect do
    if ← x.test c then t.effect
  | .stmt (.ifElse _ c _ _), [x, t, e] => .ofEffect do
    if ← x.test c then t.effect else e.effect
  | .stmt (.loop pos c _), [x, b] => .ofEffect <|
    Run.repeatWhile (do it.poll pos; x.test c) b.effect it.rounds
  | _, _ => .ofEffect (return)

theorem values_args (es : List Expr) :
    Sense.values ((es.map Node.expr).map it.sense) = it.evalArgs es := by
  induction es with
  | nil => rfl
  | cons e es ih =>
    rw [evalArgs, ← ih]
    rfl

theorem effects_body (ss : List Stmt) :
    it.effects ss ((ss.map Stmt.toNode).map it.sense) = it.execBody ss := by
  induction ss with
  | nil => rfl
  | cons s ss ih =>
    have hs : (it.sense s.toNode).effect = it.exec s := by cases s <;> rfl
    rw [execBody, ← ih, ← hs]
    rfl

theorem sense_eq_combine (n : Node) : it.sense n = it.combine n (n.children.map it.sense) := by
  cases n with
  | expr e =>
    cases e with
    | call pos name args =>
      have hargs := it.values_args args
      rw [Node.children, combine, hargs]
      refine congr (congrArg Sense.mk ?_) ?_
      · unfold eval
        exact congrArg (it.call pos name _ >>= ·) (funext fun v => by cases v <;> rfl)
      · unfold exec
        rfl
    | number | string | var | binary | comparison =>
      rw [sense, eval, exec, eval]
      · rfl
      · rintro _ _ _ ⟨⟩
  | stmt s =>
    cases s with
    | block b =>
      obtain ⟨pos, ss⟩ := b
      rw [Node.children, combine, Block.body, effects_body, sense, exec, execBlock]
    | expr e => rfl
    | assign | ifThen | ifElse | loop =>
      rw [sense, exec]
      rfl

end Interpreter

/-! ## Scripts -/

namespace Script

variable {file source : Text} {script : Script}

theorem height_of_compile (h : compile file source = .ok script) :
    script.root.height < 2 * Parser.nestingLimit := by
  obtain ⟨root, file'⟩ := script
  obtain rfl : file' = file := file_of_compile h
  obtain ⟨ts, last, hl⟩ := exists_lexesTo h
  obtain ⟨D, -, rfl, hd⟩ := compile_eq_ok h hl
  exact D.height_tree_lt last.pos hd (by decide)

/-- Whatever the source, a path from the root of its tree has at most twice as many nodes as the
limit has levels. A recursion over the tree that is cut off there, whatever it would do then, is what
it is with more levels, and for writing and for carrying out the tree it is the whole of them. -/
theorem compile_bounds_recursion (h : compile file source = .ok script) :
    let root := script.root.toNode
    let levels := 2 * Parser.nestingLimit
    (∀ path n, root.descend? path = some n → path.length + 1 ≤ levels) ∧
    (∀ (α : Type) (f : Node → List α → α) (cut cut' : α) (more : Nat), levels ≤ more →
      root.visit f cut levels = root.visit f cut' more) ∧
    (∀ cut, root.visit Node.write cut levels [] = root.sexpr) ∧
    ∀ (σ : Type) (it : Interpreter σ) (cut : Sense σ),
      (root.visit it.combine cut levels).effect = it.execBlock script.root := by
  intro root levels
  have hroot : root.height < levels := by
    rw [Node.height_toNode_block]
    exact height_of_compile h
  refine ⟨fun path n hn => ?_, fun α f cut cut' more hm => ?_, fun cut => ?_, fun σ it cut => ?_⟩
  · exact Nat.le_trans (Node.length_lt_height hn) (Nat.le_of_lt hroot)
  · exact Node.visit_congr (Nat.le_of_lt hroot) hm
  · rw [Node.visit_eq Node.sexprOnto_eq_write (Nat.le_of_lt hroot)]
    rfl
  · rw [Node.visit_eq it.sense_eq_combine (Nat.le_of_lt hroot)]
    show it.exec (.block script.root) = _
    rw [Interpreter.exec]

/-- A path down to an argument of a call in the condition of a loop. -/
theorem compile_bounds_recursion_loop :
    ∃ script n, compile [] (Text.ascii "while f(x)<y g('a') endwhile") = .ok script ∧
      script.root.toNode.descend? [0, 0, 0, 0] = some n ∧ n.kind = .var ∧
      [0, 0, 0, 0].length + 1 ≤ 2 * Parser.nestingLimit ∧
      ∀ cut, script.root.toNode.visit Node.write cut (2 * Parser.nestingLimit) [] =
        script.root.toNode.sexpr := by
  let source := Text.ascii "while f(x)<y g('a') endwhile"
  have hkind : (compile [] source).toOption.bind (fun script =>
      (script.root.toNode.descend? [0, 0, 0, 0]).map Node.kind) = some .var := by decide +kernel
  cases hc : compile [] source with
  | error r =>
    rw [hc] at hkind
    cases hkind
  | ok script =>
    rw [hc] at hkind
    obtain ⟨n, hn, hk⟩ := Option.map_eq_some_iff.mp hkind
    obtain ⟨hpaths, -, hwrite, -⟩ := compile_bounds_recursion hc
    exact ⟨script, n, rfl, hn, hk, hpaths _ n hn, hwrite⟩

end Script

end ScriptEngine
