import ScriptEngine.Proofs.Tree.Positions
import ScriptEngine.Tree.Sexpr

/-!
# Shapes of trees

A `Shape` is what a tree is apart from positions: kinds of nodes, names, operators, values and
children. It does not tell expressions from statements, so that any node may stand below any other.

A tree is found again in its shape but for its positions (`Node.toNode_shape`), and its S-expression is
that of its shape (`Node.sexpr_eq`).
-/

namespace ScriptEngine

inductive Shape where
  | number (value : Double)
  | string (value : Text)
  | var (name : Text)
  | binary (op : TokenKind) (lhs rhs : Shape)
  | comparison (op : TokenKind) (lhs rhs : Shape)
  | call (name : Text) (args : List Shape)
  | assign (name : Text) (value : Shape)
  | block (body : List Shape)
  | ifThen (cond thenBlock : Shape)
  | ifElse (cond thenBlock elseBlock : Shape)
  | loop (cond body : Shape)

/-! ## The shape of a tree -/

mutual

@[simp] def Expr.shape : Expr → Shape
  | .number _ x => .number x
  | .string _ s => .string s
  | .var _ n => .var n
  | .binary _ op l r => .binary op l.shape r.shape
  | .comparison _ op l r => .comparison op l.shape r.shape
  | .call _ n args => .call n (Expr.shapes args)

@[simp] def Expr.shapes : List Expr → List Shape
  | [] => []
  | e :: es => e.shape :: Expr.shapes es

end

mutual

@[simp] def Stmt.shape : Stmt → Shape
  | .expr e => e.shape
  | .assign _ n v => .assign n v.shape
  | .block b => b.shape
  | .ifThen _ c t => .ifThen c.toExpr.shape t.shape
  | .ifElse _ c t e => .ifElse c.toExpr.shape t.shape e.shape
  | .loop _ c b => .loop c.toExpr.shape b.shape

@[simp] def Block.shape : Block → Shape
  | .mk _ ss => .block (Stmt.shapes ss)

@[simp] def Stmt.shapes : List Stmt → List Shape
  | [] => []
  | s :: ss => s.shape :: Stmt.shapes ss

end

def Node.shape : Node → Shape
  | .expr e => e.shape
  | .stmt s => s.shape

/-! ## The tree of a shape -/

namespace Shape

mutual

/-- The expression of the shape, at no place; of no account if there is none. -/
@[simp] def toExpr : Shape → Expr
  | number x => .number Pos.unset x
  | string s => .string Pos.unset s
  | var n => .var Pos.unset n
  | binary op l r => .binary Pos.unset op l.toExpr r.toExpr
  | comparison op l r => .comparison Pos.unset op l.toExpr r.toExpr
  | call n args => .call Pos.unset n (toExprs args)
  | _ => .number Pos.unset Double.zero

@[simp] def toExprs : List Shape → List Expr
  | [] => []
  | t :: ts => t.toExpr :: toExprs ts

end

def toCondition : Shape → Condition
  | comparison op l r => ⟨Pos.unset, op, l.toExpr, r.toExpr⟩
  | t => ⟨Pos.unset, .less, t.toExpr, t.toExpr⟩

mutual

/-- The statement of the shape, at no place. -/
@[simp] def toStmt : Shape → Stmt
  | assign n v => .assign Pos.unset n v.toExpr
  | block ss => .block (.mk Pos.unset (toStmts ss))
  | ifThen c t => .ifThen Pos.unset c.toCondition t.toBlock
  | ifElse c t e => .ifElse Pos.unset c.toCondition t.toBlock e.toBlock
  | loop c b => .loop Pos.unset c.toCondition b.toBlock
  | t => .expr t.toExpr

@[simp] def toBlock : Shape → Block
  | block ss => .mk Pos.unset (toStmts ss)
  | _ => .mk Pos.unset []

@[simp] def toStmts : List Shape → List Stmt
  | [] => []
  | t :: ts => t.toStmt :: toStmts ts

end

def toNode (t : Shape) : Node := t.toStmt.toNode

end Shape

/-- Without positions. An expression that stands as a statement is the expression. -/
def Node.erase : Node → Node
  | .expr e => .expr e.erase
  | .stmt s => s.erase.toNode

mutual

theorem Expr.toExpr_shape (e : Expr) : e.shape.toExpr = e.erase := by
  cases e with
  | number | string | var => simp
  | binary _ _ l r | comparison _ _ l r => simp [l.toExpr_shape, r.toExpr_shape]
  | call _ _ args => simp [Expr.toExprs_shapes args]

theorem Expr.toExprs_shapes (es : List Expr) : Shape.toExprs (Expr.shapes es) = Expr.eraseAll es := by
  cases es with
  | nil => simp
  | cons e es => simp [e.toExpr_shape, Expr.toExprs_shapes es]

end

theorem Expr.toStmt_shape (e : Expr) : e.shape.toStmt = .expr e.erase := by
  rw [← e.toExpr_shape]
  cases e <;> simp

theorem Condition.toCondition_shape (c : Condition) : c.toExpr.shape.toCondition = c.erase := by
  simp [Condition.toExpr, Shape.toCondition, Expr.toExpr_shape]

mutual

theorem Stmt.toStmt_shape (s : Stmt) : s.shape.toStmt = s.erase := by
  cases s with
  | expr e => simp [Expr.toStmt_shape]
  | assign _ _ v => simp [v.toExpr_shape]
  | block b =>
    have hb := b.toBlock_shape
    cases b with
    | mk p ss => simpa using hb
  | ifThen _ c t | loop _ c t => simp [c.toCondition_shape, t.toBlock_shape]
  | ifElse _ c t e => simp [c.toCondition_shape, t.toBlock_shape, e.toBlock_shape]

theorem Block.toBlock_shape (b : Block) : b.shape.toBlock = b.erase := by
  cases b with
  | mk _ ss => simp [Stmt.toStmts_shapes ss]

theorem Stmt.toStmts_shapes (ss : List Stmt) :
    Shape.toStmts (Stmt.shapes ss) = Stmt.eraseAll ss := by
  cases ss with
  | nil => simp
  | cons s ss => simp [s.toStmt_shape, Stmt.toStmts_shapes ss]

end

/-- A tree is found again in its shape, but for its positions. -/
theorem Node.toNode_shape (n : Node) : n.shape.toNode = n.erase := by
  cases n with
  | expr e => simp [Node.shape, Shape.toNode, Node.erase, e.toStmt_shape, Stmt.toNode]
  | stmt s => simp [Node.shape, Shape.toNode, Node.erase, s.toStmt_shape]

/-! ## Positions do not matter -/

mutual

theorem Expr.shape_mapPos (f : Pos → Pos) (e : Expr) : (e.mapPos f).shape = e.shape := by
  cases e with
  | number | string | var => simp
  | binary _ _ l r | comparison _ _ l r => simp [l.shape_mapPos f, r.shape_mapPos f]
  | call _ _ args => simp [Expr.shapes_mapPosAll f args]

theorem Expr.shapes_mapPosAll (f : Pos → Pos) (es : List Expr) :
    Expr.shapes (Expr.mapPosAll f es) = Expr.shapes es := by
  cases es with
  | nil => simp
  | cons e es => simp [e.shape_mapPos f, Expr.shapes_mapPosAll f es]

end

mutual

theorem Stmt.shape_mapPos (f : Pos → Pos) (s : Stmt) : (s.mapPos f).shape = s.shape := by
  cases s with
  | expr e => simp [Expr.shape_mapPos]
  | assign _ _ v => simp [Expr.shape_mapPos]
  | block b => simp [b.shape_mapPos f]
  | ifThen _ c t | loop _ c t => simp [Condition.toExpr, Expr.shape_mapPos, t.shape_mapPos f]
  | ifElse _ c t e =>
    simp [Condition.toExpr, Expr.shape_mapPos, t.shape_mapPos f, e.shape_mapPos f]

theorem Block.shape_mapPos (f : Pos → Pos) (b : Block) : (b.mapPos f).shape = b.shape := by
  cases b with
  | mk _ ss => simp [Stmt.shapes_mapPosAll f ss]

theorem Stmt.shapes_mapPosAll (f : Pos → Pos) (ss : List Stmt) :
    Stmt.shapes (Stmt.mapPosAll f ss) = Stmt.shapes ss := by
  cases ss with
  | nil => simp
  | cons s ss => simp [s.shape_mapPos f, Stmt.shapes_mapPosAll f ss]

end

/-- Trees have the same shape if they are the same up to positions. -/
theorem Block.shape_eq_iff {b b' : Block} : b.shape = b'.shape ↔ b.erase = b'.erase := by
  constructor
  · intro h
    rw [← b.toBlock_shape, ← b'.toBlock_shape, h]
  · intro h
    rw [← b.shape_mapPos fun _ => Pos.unset, ← b'.shape_mapPos fun _ => Pos.unset]
    exact congrArg Block.shape h

/-! ## S-expressions -/

namespace Shape

/-- A list in parentheses, from its head and the rest. -/
def form (head body : Text) : Text := Byte.openParen :: (head ++ (body ++ [Byte.closeParen]))

mutual

@[simp] def text : Shape → Text
  | number x => x.decimal 17
  | string s => Byte.doubleQuote :: (s ++ [Byte.doubleQuote])
  | var n => n
  | binary op l r | comparison op l r =>
    form op.symbol (Byte.space :: (l.text ++ Byte.space :: r.text))
  | call n args => form (Text.ascii "call " ++ n) (textAll args)
  | assign n v => form (Text.ascii "assign " ++ n) (Byte.space :: v.text)
  | block ss => form (Text.ascii "block") (textAll ss)
  | ifThen c t => form (Text.ascii "if") (Byte.space :: (c.text ++ Byte.space :: t.text))
  | ifElse c t e =>
    form (Text.ascii "if")
      (Byte.space :: (c.text ++ Byte.space :: (t.text ++ Byte.space :: e.text)))
  | loop c b => form (Text.ascii "while") (Byte.space :: (c.text ++ Byte.space :: b.text))

/-- Each text after a space. -/
@[simp] def textAll : List Shape → Text
  | [] => []
  | t :: ts => Byte.space :: (t.text ++ textAll ts)

end

end Shape

mutual

theorem Expr.sexprOnto_shape (e : Expr) (rest : Text) :
    e.sexprOnto rest = e.shape.text ++ rest := by
  cases e with
  | number | string | var => simp [Expr.sexprOnto]
  | binary _ _ l r | comparison _ _ l r =>
    simp [Expr.sexprOnto, Shape.form, l.sexprOnto_shape, r.sexprOnto_shape]
  | call _ _ args =>
    have h : Text.ascii "(call " = Byte.openParen :: Text.ascii "call " := rfl
    simp [Expr.sexprOnto, Shape.form, h, Expr.sexprOntoArgs_shapes args]

theorem Expr.sexprOntoArgs_shapes (es : List Expr) (rest : Text) :
    Expr.sexprOntoArgs es rest = Shape.textAll (Expr.shapes es) ++ rest := by
  cases es with
  | nil => simp [Expr.sexprOntoArgs]
  | cons e es => simp [Expr.sexprOntoArgs, e.sexprOnto_shape, Expr.sexprOntoArgs_shapes es]

end

mutual

theorem Stmt.sexprOnto_shape (s : Stmt) (rest : Text) :
    s.sexprOnto rest = s.shape.text ++ rest := by
  cases s with
  | expr e => simp [Stmt.sexprOnto, e.sexprOnto_shape]
  | assign _ _ v =>
    have h : Text.ascii "(assign " = Byte.openParen :: Text.ascii "assign " := rfl
    simp [Stmt.sexprOnto, Shape.form, h, v.sexprOnto_shape]
  | block b => simp [Stmt.sexprOnto, b.sexprOnto_shape]
  | ifThen _ c t =>
    have h : Text.ascii "(if " = Byte.openParen :: (Text.ascii "if" ++ [Byte.space]) := rfl
    simp [Stmt.sexprOnto, Shape.form, h, Expr.sexprOnto_shape, t.sexprOnto_shape]
  | ifElse _ c t e =>
    have h : Text.ascii "(if " = Byte.openParen :: (Text.ascii "if" ++ [Byte.space]) := rfl
    simp [Stmt.sexprOnto, Shape.form, h, Expr.sexprOnto_shape, t.sexprOnto_shape, e.sexprOnto_shape]
  | loop _ c t =>
    have h : Text.ascii "(while " = Byte.openParen :: (Text.ascii "while" ++ [Byte.space]) := rfl
    simp [Stmt.sexprOnto, Shape.form, h, Expr.sexprOnto_shape, t.sexprOnto_shape]

theorem Block.sexprOnto_shape (b : Block) (rest : Text) :
    b.sexprOnto rest = b.shape.text ++ rest := by
  cases b with
  | mk _ ss =>
    have h : Text.ascii "(block" = Byte.openParen :: Text.ascii "block" := rfl
    simp [Block.sexprOnto, Shape.form, h, Stmt.sexprOntoBody_shapes ss]

theorem Stmt.sexprOntoBody_shapes (ss : List Stmt) (rest : Text) :
    Stmt.sexprOntoBody ss rest = Shape.textAll (Stmt.shapes ss) ++ rest := by
  cases ss with
  | nil => simp [Stmt.sexprOntoBody]
  | cons s ss => simp [Stmt.sexprOntoBody, s.sexprOnto_shape, Stmt.sexprOntoBody_shapes ss]

end

/-- The S-expression of a tree is that of its shape. -/
theorem Node.sexpr_eq (n : Node) : n.sexpr = n.shape.text := by
  cases n with
  | expr e => rw [Node.sexpr, e.sexprOnto_shape, List.append_nil]; rfl
  | stmt s => rw [Node.sexpr, s.sexprOnto_shape, List.append_nil]; rfl

end ScriptEngine
