import ScriptEngine.Double.Basic
import ScriptEngine.Position
import ScriptEngine.Token.Kind

/-!
# Program trees

Expressions give values, statements are carried out. Every node has the position of the token it
came from. Trees may be built by hand, and are then freer than those of a source: an operator may be
any kind of token, and any expression or block may stand as a statement.
-/

namespace ScriptEngine

inductive Expr where
  | number (pos : Pos) (value : Double)
  | string (pos : Pos) (value : Text)
  | var (pos : Pos) (name : Text)
  | binary (pos : Pos) (op : TokenKind) (lhs rhs : Expr)
  | comparison (pos : Pos) (op : TokenKind) (lhs rhs : Expr)
  | call (pos : Pos) (name : Text) (args : List Expr)

/-- The comparison that an `if` or a `while` turns on. -/
structure Condition where
  pos : Pos
  op : TokenKind
  lhs : Expr
  rhs : Expr

mutual

inductive Stmt where
  | expr (e : Expr)
  | assign (pos : Pos) (name : Text) (value : Expr)
  | block (b : Block)
  | ifThen (pos : Pos) (cond : Condition) (thenBlock : Block)
  | ifElse (pos : Pos) (cond : Condition) (thenBlock elseBlock : Block)
  | loop (pos : Pos) (cond : Condition) (body : Block)

inductive Block where
  | mk (pos : Pos) (body : List Stmt)

end

def Expr.pos : Expr → Pos
  | number p _ | string p _ | var p _ | binary p _ _ _ | comparison p _ _ _ | call p _ _ => p

def Condition.toExpr (c : Condition) : Expr := .comparison c.pos c.op c.lhs c.rhs

namespace Block

def pos : Block → Pos
  | mk p _ => p

def body : Block → List Stmt
  | mk _ ss => ss

end Block

def Stmt.pos : Stmt → Pos
  | expr e => e.pos
  | block b => b.pos
  | assign p _ _ | ifThen p _ _ | ifElse p _ _ _ | loop p _ _ => p

end ScriptEngine
