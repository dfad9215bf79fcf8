import ScriptEngine.Double.Decimal
import ScriptEngine.Tree.Node

/-!
# S-expressions

A tree is written in parentheses, the operator or the name of the construct first. Numbers that are
not small integers show seventeen significant digits, strings stand in double quotes as they are.
Each writer puts its text in front of what follows, so that a tree takes time linear in its text.
-/

namespace ScriptEngine

mutual

def Expr.sexprOnto : Expr → Text → Text
  | .number _ x, rest => x.decimal 17 ++ rest
  | .string _ s, rest => Byte.doubleQuote :: s ++ Byte.doubleQuote :: rest
  | .var _ n, rest => n ++ rest
  | .binary _ op l r, rest =>
    Byte.openParen :: op.symbol ++ Byte.space :: l.sexprOnto
      (Byte.space :: r.sexprOnto (Byte.closeParen :: rest))
  | .comparison _ op l r, rest =>
    Byte.openParen :: op.symbol ++ Byte.space :: l.sexprOnto
      (Byte.space :: r.sexprOnto (Byte.closeParen :: rest))
  | .call _ n args, rest =>
    Text.ascii "(call " ++ n ++ sexprOntoArgs args (Byte.closeParen :: rest)

/-- Each argument after a space. -/
def Expr.sexprOntoArgs : List Expr → Text → Text
  | [], rest => rest
  | e :: es, rest => Byte.space :: e.sexprOnto (sexprOntoArgs es rest)

end

mutual

def Stmt.sexprOnto : Stmt → Text → Text
  | .expr e, rest => e.sexprOnto rest
  | .assign _ n v, rest =>
    Text.ascii "(assign " ++ n ++ Byte.space :: v.sexprOnto (Byte.closeParen :: rest)
  | .block b, rest => b.sexprOnto rest
  | .ifThen _ c t, rest =>
    Text.ascii "(if " ++ c.toExpr.sexprOnto (Byte.space :: t.sexprOnto (Byte.closeParen :: rest))
  | .ifElse _ c t e, rest =>
    Text.ascii "(if " ++ c.toExpr.sexprOnto
      (Byte.space :: t.sexprOnto (Byte.space :: e.sexprOnto (Byte.closeParen :: rest)))
  | .loop _ c b, rest =>
    Text.ascii "(while " ++ c.toExpr.sexprOnto (Byte.space :: b.sexprOnto (Byte.closeParen :: rest))

def Block.sexprOnto : Block → Text → Text
  | .mk _ ss, rest => Text.ascii "(block" ++ Stmt.sexprOntoBody ss (Byte.closeParen :: rest)

/-- Each statement after a space. -/
def Stmt.sexprOntoBody : List Stmt → Text → Text
  | [], rest => rest
  | s :: ss, rest => Byte.space :: s.sexprOnto (Stmt.sexprOntoBody ss rest)

end

/-! ## Writing in front of a text is putting the written text in front -/

mutual

theorem Expr.sexprOnto_eq (e : Expr) (rest : Text) : e.sexprOnto rest = e.sexprOnto [] ++ rest := by
  cases e with
  | number p x => simp [Expr.sexprOnto]
  | string p s => simp [Expr.sexprOnto]
  | var p n => simp [Expr.sexprOnto]
  | binary p op l r =>
    simp only [Expr.sexprOnto]
    rw [l.sexprOnto_eq (_ :: r.sexprOnto _), l.sexprOnto_eq (_ :: r.sexprOnto [_]),
      r.sexprOnto_eq (_ :: rest), r.sexprOnto_eq [_]]
    simp
  | comparison p op l r =>
    simp only [Expr.sexprOnto]
    rw [l.sexprOnto_eq (_ :: r.sexprOnto _), l.sexprOnto_eq (_ :: r.sexprOnto [_]),
      r.sexprOnto_eq (_ :: rest), r.sexprOnto_eq [_]]
    simp
  | call p n args =>
    simp only [Expr.sexprOnto]
    rw [Expr.sexprOntoArgs_eq args (_ :: rest), Expr.sexprOntoArgs_eq args [_]]
    simp

theorem Expr.sexprOntoArgs_eq (es : List Expr) (rest : Text) :
    sexprOntoArgs es rest = sexprOntoArgs es [] ++ rest := by
  cases es with
  | nil => simp [Expr.sexprOntoArgs]
  | cons e es =>
    simp only [Expr.sexprOntoArgs]
    rw [e.sexprOnto_eq (sexprOntoArgs es rest), e.sexprOnto_eq (sexprOntoArgs es []),
      Expr.sexprOntoArgs_eq es rest]
    simp

end

/-- The S-expression of the tree under a node. -/
def Node.sexpr : Node → Text
  | .expr e => e.sexprOnto []
  | .stmt s => s.sexprOnto []

end ScriptEngine
