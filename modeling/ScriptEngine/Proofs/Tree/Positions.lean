import ScriptEngine.Token.Basic
import ScriptEngine.Tree.Basic

/-!
# Positions

Tokens and trees up to positions. `mapPos` changes the positions of a tree and nothing else; `erase`
unsets them all, so that two trees are the same up to positions if they are erased to the same tree.
-/

namespace ScriptEngine

/-- The same token, at whatever place. -/
structure Token.Same (t u : Token) : Prop where
  kind : t.kind = u.kind
  lexeme : t.lexeme = u.lexeme
  value : t.kind = .number → t.value = u.value

/-- The same token, at places that `f` and `f'` make one. -/
structure Token.Aligned (f f' : Pos → Pos) (t u : Token) : Prop where
  same : t.Same u
  pos : f t.pos = f' u.pos

mutual

@[simp] def Expr.mapPos (f : Pos → Pos) : Expr → Expr
  | .number p x => .number (f p) x
  | .string p s => .string (f p) s
  | .var p n => .var (f p) n
  | .binary p op l r => .binary (f p) op (l.mapPos f) (r.mapPos f)
  | .comparison p op l r => .comparison (f p) op (l.mapPos f) (r.mapPos f)
  | .call p n args => .call (f p) n (Expr.mapPosAll f args)

@[simp] def Expr.mapPosAll (f : Pos → Pos) : List Expr → List Expr
  | [] => []
  | e :: es => e.mapPos f :: Expr.mapPosAll f es

end

@[simp] def Condition.mapPos (f : Pos → Pos) (c : Condition) : Condition :=
  ⟨f c.pos, c.op, c.lhs.mapPos f, c.rhs.mapPos f⟩

mutual

@[simp] def Stmt.mapPos (f : Pos → Pos) : Stmt → Stmt
  | .expr e => .expr (e.mapPos f)
  | .assign p n v => .assign (f p) n (v.mapPos f)
  | .block b => .block (b.mapPos f)
  | .ifThen p c b => .ifThen (f p) (c.mapPos f) (b.mapPos f)
  | .ifElse p c b b' => .ifElse (f p) (c.mapPos f) (b.mapPos f) (b'.mapPos f)
  | .loop p c b => .loop (f p) (c.mapPos f) (b.mapPos f)

@[simp] def Block.mapPos (f : Pos → Pos) : Block → Block
  | .mk p ss => .mk (f p) (Stmt.mapPosAll f ss)

@[simp] def Stmt.mapPosAll (f : Pos → Pos) : List Stmt → List Stmt
  | [] => []
  | s :: ss => s.mapPos f :: Stmt.mapPosAll f ss

end

abbrev Expr.erase (e : Expr) : Expr := e.mapPos fun _ => Pos.unset

abbrev Expr.eraseAll (es : List Expr) : List Expr := Expr.mapPosAll (fun _ => Pos.unset) es

abbrev Condition.erase (c : Condition) : Condition := c.mapPos fun _ => Pos.unset

abbrev Stmt.erase (s : Stmt) : Stmt := s.mapPos fun _ => Pos.unset

abbrev Stmt.eraseAll (ss : List Stmt) : List Stmt := Stmt.mapPosAll (fun _ => Pos.unset) ss

abbrev Block.erase (b : Block) : Block := b.mapPos fun _ => Pos.unset

/-! ## Positions left as they are -/

mutual

@[simp] theorem Expr.mapPos_id (e : Expr) : e.mapPos id = e := by
  cases e with
  | number | string | var => simp
  | binary _ _ l r | comparison _ _ l r => simp [l.mapPos_id, r.mapPos_id]
  | call _ _ args => simp [Expr.mapPosAll_id args]

@[simp] theorem Expr.mapPosAll_id (es : List Expr) : Expr.mapPosAll id es = es := by
  cases es with
  | nil => simp
  | cons e es => simp [e.mapPos_id, Expr.mapPosAll_id es]

end

mutual

@[simp] theorem Stmt.mapPos_id (s : Stmt) : s.mapPos id = s := by
  cases s with
  | expr | assign => simp
  | block b => simp [b.mapPos_id]
  | ifThen _ _ b | loop _ _ b => simp [b.mapPos_id]
  | ifElse _ _ b b' => simp [b.mapPos_id, b'.mapPos_id]

@[simp] theorem Block.mapPos_id (b : Block) : b.mapPos id = b := by
  cases b with
  | mk _ ss => simp [Stmt.mapPosAll_id ss]

@[simp] theorem Stmt.mapPosAll_id (ss : List Stmt) : Stmt.mapPosAll id ss = ss := by
  cases ss with
  | nil => simp
  | cons s ss => simp [s.mapPos_id, Stmt.mapPosAll_id ss]

end

end ScriptEngine
