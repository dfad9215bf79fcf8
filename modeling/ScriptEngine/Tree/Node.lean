import ScriptEngine.Tree.Basic

/-!
# Nodes

A node of a tree is one of its expressions or statements. `Node.children` lists what stands directly
below a node, `Node.descend?` follows a path of child indices, and `Node.preorder` lists a whole
tree, each node before what is below it.
-/

namespace ScriptEngine

inductive NodeKind where
  | number
  | string
  | var
  | binary
  | comparison
  | call
  | assign
  | block
  | branch
  | loop
  deriving DecidableEq

def NodeKind.all : List NodeKind :=
  [number, string, var, binary, comparison, call, assign, block, branch, loop]

inductive Node where
  | expr (e : Expr)
  | stmt (s : Stmt)

def Expr.kind : Expr → NodeKind
  | number _ _ => .number
  | string _ _ => .string
  | var _ _ => .var
  | binary _ _ _ _ => .binary
  | comparison _ _ _ _ => .comparison
  | call _ _ _ => .call

def Stmt.kind : Stmt → NodeKind
  | expr e => e.kind
  | assign _ _ _ => .assign
  | block _ => .block
  | ifThen _ _ _ | ifElse _ _ _ _ => .branch
  | loop _ _ _ => .loop

/-- An expression that stands as a statement is the expression. -/
def Stmt.toNode : Stmt → Node
  | expr e => .expr e
  | s => .stmt s

def Block.toNode (b : Block) : Node := .stmt (.block b)

def Condition.toNode (c : Condition) : Node := .expr c.toExpr

/-! ## Every node of a tree, parents first -/

mutual

def Expr.nodesOnto : Expr → List Node → List Node
  | .number p x, rest => .expr (.number p x) :: rest
  | .string p s, rest => .expr (.string p s) :: rest
  | .var p n, rest => .expr (.var p n) :: rest
  | .binary p op l r, rest => .expr (.binary p op l r) :: l.nodesOnto (r.nodesOnto rest)
  | .comparison p op l r, rest => .expr (.comparison p op l r) :: l.nodesOnto (r.nodesOnto rest)
  | .call p n args, rest => .expr (.call p n args) :: nodesOntoArgs args rest

def Expr.nodesOntoArgs : List Expr → List Node → List Node
  | [], rest => rest
  | e :: es, rest => e.nodesOnto (nodesOntoArgs es rest)

end

mutual

def Stmt.nodesOnto : Stmt → List Node → List Node
  | .expr e, rest => e.nodesOnto rest
  | .assign p n v, rest => .stmt (.assign p n v) :: v.nodesOnto rest
  | .block b, rest => b.nodesOnto rest
  | .ifThen p c t, rest => .stmt (.ifThen p c t) :: c.toExpr.nodesOnto (t.nodesOnto rest)
  | .ifElse p c t e, rest =>
    .stmt (.ifElse p c t e) :: c.toExpr.nodesOnto (t.nodesOnto (e.nodesOnto rest))
  | .loop p c b, rest => .stmt (.loop p c b) :: c.toExpr.nodesOnto (b.nodesOnto rest)

def Block.nodesOnto : Block → List Node → List Node
  | .mk p ss, rest => (Block.mk p ss).toNode :: Stmt.nodesOntoBody ss rest

def Stmt.nodesOntoBody : List Stmt → List Node → List Node
  | [], rest => rest
  | s :: ss, rest => s.nodesOnto (Stmt.nodesOntoBody ss rest)

end

namespace Node

def kind : Node → NodeKind
  | expr e => e.kind
  | stmt s => s.kind

def pos : Node → Pos
  | expr e => e.pos
  | stmt s => s.pos

def children : Node → List Node
  | expr (.binary _ _ l r) | expr (.comparison _ _ l r) => [.expr l, .expr r]
  | expr (.call _ _ args) => args.map .expr
  | expr _ => []
  | stmt (.expr e) => [.expr e]
  | stmt (.assign _ _ v) => [.expr v]
  | stmt (.block b) => b.body.map Stmt.toNode
  | stmt (.ifThen _ c t) => [c.toNode, t.toNode]
  | stmt (.ifElse _ c t e) => [c.toNode, t.toNode, e.toNode]
  | stmt (.loop _ c b) => [c.toNode, b.toNode]

/-- The node reached by going down to the given children in turn. -/
def descend? (n : Node) : List Nat → Option Node
  | [] => some n
  | i :: path => (n.children[i]?).bind (descend? · path)

def preorder : Node → List Node
  | expr e => e.nodesOnto []
  | stmt s => s.nodesOnto []

/-- How many nodes of each kind a tree has, in the order of `NodeKind.all`. -/
def census (n : Node) : List Nat :=
  NodeKind.all.map fun k => n.preorder.countP (·.kind == k)

end Node

end ScriptEngine
