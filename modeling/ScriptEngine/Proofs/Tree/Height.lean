import ScriptEngine.Proofs.Grammar.Derivation
import ScriptEngine.Tree.Node

/-!
# The height of trees

The height of a tree is the number of nodes on its longest path. So it bounds every path
(`Node.length_lt_height`), and how deep a recursion over the nodes goes: what such a recursion would
do further down makes no difference (`Node.visit_eq`).

The height of a program is bounded by how deep its derivation is nested (`Derivation.isShallow`),
though not every node is paid for by a level of its own. A block pays for the statement around it as
well. From an expression to the next one inside it there are three levels for four nodes at most: a
sum, a product, a call and a comparison.
-/

namespace ScriptEngine

variable {α : Type}

/-! ## Heights -/

mutual

def Expr.height : Expr → Nat
  | .number _ _ | .string _ _ | .var _ _ => 1
  | .binary _ _ l r | .comparison _ _ l r => max l.height r.height + 1
  | .call _ _ args => heightAll args + 1

/-- The greatest height of the expressions. -/
def Expr.heightAll : List Expr → Nat
  | [] => 0
  | e :: es => max e.height (heightAll es)

end

def Condition.height (c : Condition) : Nat := max c.lhs.height c.rhs.height + 1

mutual

def Stmt.height : Stmt → Nat
  | .expr e => e.height
  | .assign _ _ v => v.height + 1
  | .block b => b.height
  | .ifThen _ c t => max c.height t.height + 1
  | .ifElse _ c t e => max c.height (max t.height e.height) + 1
  | .loop _ c b => max c.height b.height + 1

def Block.height : Block → Nat
  | .mk _ ss => Stmt.heightAll ss + 1

/-- The greatest height of the statements. -/
def Stmt.heightAll : List Stmt → Nat
  | [] => 0
  | s :: ss => max s.height (Stmt.heightAll ss)

end

namespace Node

def height : Node → Nat
  | expr e => e.height
  -- An expression made a node as a statement has the expression below it.
  | stmt (.expr e) => e.height + 1
  | stmt s => s.height

theorem height_toNode (s : Stmt) : s.toNode.height = s.height := by
  cases s <;> rfl

theorem height_toNode_block (b : Block) : b.toNode.height = b.height := by
  rw [Block.toNode, height, Stmt.height]
  nofun

theorem height_toNode_condition (c : Condition) : c.toNode.height = c.height := by
  rw [Condition.toNode, Condition.toExpr, height, Expr.height, Condition.height]

end Node

theorem Expr.height_le_heightAll {e : Expr} {es : List Expr} (h : e ∈ es) :
    e.height ≤ heightAll es := by
  induction es with
  | nil => cases h
  | cons e' es ih =>
    rw [heightAll]
    rcases List.mem_cons.mp h with rfl | h
    · exact Nat.le_max_left _ _
    · exact Nat.le_trans (ih h) (Nat.le_max_right _ _)

theorem Stmt.height_le_heightAll {s : Stmt} {ss : List Stmt} (h : s ∈ ss) :
    s.height ≤ heightAll ss := by
  induction ss with
  | nil => cases h
  | cons s' ss ih =>
    rw [heightAll]
    rcases List.mem_cons.mp h with rfl | h
    · exact Nat.le_max_left _ _
    · exact Nat.le_trans (ih h) (Nat.le_max_right _ _)

/-! ## Paths and recursion -/

namespace Node

theorem height_lt_of_mem_children {n c : Node} (h : c ∈ n.children) : c.height < n.height := by
  cases n with
  | expr e =>
    cases e with
    | number | string | var => cases h
    | binary _ _ l r | comparison _ _ l r =>
      rw [height, Expr.height]
      simp only [children, List.mem_cons, List.not_mem_nil, or_false] at h
      rcases h with rfl | rfl <;> simp only [height] <;> omega
    | call _ _ args =>
      obtain ⟨e, he, rfl⟩ := List.mem_map.mp h
      rw [height, height, Expr.height]
      exact Nat.lt_succ_of_le (Expr.height_le_heightAll he)
  | stmt s =>
    cases s with
    | expr e =>
      cases List.mem_singleton.mp h
      exact Nat.lt_succ_self _
    | assign _ _ v =>
      cases List.mem_singleton.mp h
      exact Nat.lt_succ_self _
    | block b =>
      obtain ⟨pos, ss⟩ := b
      obtain ⟨s, hs, rfl⟩ := List.mem_map.mp h
      rw [height_toNode, height, Stmt.height, Block.height]
      · exact Nat.lt_succ_of_le (Stmt.height_le_heightAll hs)
      · nofun
    | ifThen _ c b | loop _ c b =>
      show _ < max c.height b.height + 1
      simp only [children, List.mem_cons, List.not_mem_nil, or_false] at h
      rcases h with rfl | rfl
      · rw [height_toNode_condition]
        omega
      · rw [height_toNode_block]
        omega
    | ifElse _ c t e =>
      show _ < max c.height (max t.height e.height) + 1
      simp only [children, List.mem_cons, List.not_mem_nil, or_false] at h
      rcases h with rfl | rfl | rfl
      · rw [height_toNode_condition]
        omega
      · rw [height_toNode_block]
        omega
      · rw [height_toNode_block]
        omega

theorem height_pos (n : Node) : 0 < n.height := by
  cases n with
  | expr e => cases e <;> simp [height, Expr.height]
  | stmt s =>
    cases s with
    | expr e => exact Nat.succ_pos _
    | block b =>
      obtain ⟨pos, ss⟩ := b
      simp [height, Stmt.height, Block.height]
    | _ => simp [height, Stmt.height]

/-- A path has one step less than it has nodes. -/
theorem length_lt_height {n m : Node} {path : List Nat} (h : n.descend? path = some m) :
    path.length < n.height := by
  induction path generalizing n with
  | nil => exact n.height_pos
  | cons i path ih =>
    obtain ⟨c, hc, hm⟩ := Option.bind_eq_some_iff.mp h
    exact Nat.lt_of_le_of_lt (ih hm) (height_lt_of_mem_children (List.mem_of_getElem? hc))

/-- A recursion over a tree: `f` makes something of a node and of what comes of the nodes below it.
The recursion may go through so many levels of nodes, and `cut` is what it makes of a node beyond. -/
def visit (f : Node → List α → α) (cut : α) : Nat → Node → α
  | 0, _ => cut
  | levels + 1, n => f n (n.children.map (visit f cut levels))

variable {f : Node → List α → α} {n : Node}

/-- Where the levels are enough, the recursion gives what a function gives that it computes. -/
theorem visit_eq {g : Node → α} (hg : ∀ n, g n = f n (n.children.map g)) {cut : α} {levels : Nat}
    (h : n.height ≤ levels) : n.visit f cut levels = g n := by
  induction levels generalizing n with
  | zero => exact absurd n.height_pos (Nat.not_lt.mpr h)
  | succ levels ih =>
    rw [visit, hg n]
    refine congrArg (f n) (List.map_congr_left fun c hc => ih ?_)
    exact Nat.le_of_lt_succ (Nat.lt_of_lt_of_le (height_lt_of_mem_children hc) h)

/-- More levels than the tree is high make no difference. -/
theorem visit_congr {cut cut' : α} {levels levels' : Nat} (h : n.height ≤ levels)
    (hl : levels ≤ levels') : n.visit f cut levels = n.visit f cut' levels' := by
  induction levels generalizing n levels' with
  | zero => exact absurd n.height_pos (Nat.not_lt.mpr h)
  | succ levels ih =>
    obtain ⟨levels', rfl⟩ : ∃ k, levels' = k + 1 := ⟨levels' - 1, by omega⟩
    rw [visit, visit]
    refine congrArg (f n) (List.map_congr_left fun c hc => ih ?_ (Nat.le_of_succ_le_succ hl))
    exact Nat.le_of_lt_succ (Nat.lt_of_lt_of_le (height_lt_of_mem_children hc) h)

end Node

/-! ## Derivations -/

/-- How high the trees of a class are, when they are nested `d` deep. Three levels are the least for
an expression; arguments that need fewer need none, they are strings. -/
@[simp] def Nonterminal.IsShallow (d : Nat) : (s : Nonterminal) → s.Tree → Prop
  | block, b => ∀ p, (b p).height ≤ max 3 (2 * d - 1)
  | statements, ss => Stmt.heightAll ss ≤ max 2 (2 * d)
  | statement, s => s.height ≤ max 2 (2 * d)
  | conditional, c => 3 ≤ d ∧ 3 * c.height ≤ 4 * d + 3
  | rootExpr, e => 3 ≤ d ∧ 3 * e.height ≤ 4 * d + 3
  | expr, e => 3 ≤ d ∧ 3 * e.height ≤ 4 * d
  | term, e => 2 ≤ d ∧ 3 * e.height ≤ 4 * d + 1
  | factor, e => 1 ≤ d ∧ 3 * e.height ≤ 4 * d + 2
  | call, e => (d = 0 ∨ 3 ≤ d) ∧ 3 * e.height ≤ 4 * d + 6
  | arguments, es | moreArguments, es => (d = 0 ∨ 3 ≤ d) ∧ 3 * Expr.heightAll es ≤ 4 * d + 3
  | argument, e => (d = 0 ∨ 3 ≤ d) ∧ 3 * e.height ≤ 4 * d + 3

theorem Derivation.isShallow {s : Nonterminal} (D : Derivation s) : s.IsShallow D.depth D.tree := by
  induction D with
  | block ss ih =>
    intro p
    simp only [Nonterminal.IsShallow, depth, tree, Block.height] at ih ⊢
    omega
  | noStatement => exact Nat.zero_le _
  | noArgument | endArguments => exact ⟨.inl rfl, Nat.zero_le _⟩
  | string => exact ⟨.inl rfl, Nat.le_refl 3⟩
  | ifThen i c t b e ihc ihb =>
    have hb := ihb e.1.pos
    simp only [Nonterminal.IsShallow, depth, tree, Stmt.height] at ihc ⊢
    omega
  | ifElse i c t b o b' e ihc ihb ihb' =>
    have hb := ihb o.1.pos
    have hb' := ihb' e.1.pos
    simp only [Nonterminal.IsShallow, depth, tree, Stmt.height] at ihc ⊢
    omega
  | loop w c b e ihc ihb =>
    have hb := ihb e.1.pos
    simp only [Nonterminal.IsShallow, depth, tree, Stmt.height] at ihc ⊢
    omega
  | _ =>
    simp only [Nonterminal.IsShallow, depth, tree, Expr.height, Expr.heightAll, Stmt.height,
      Stmt.heightAll, Condition.height, Condition.toExpr] at *
    omega

/-- A block that is nested deep enough to hold an expression is less than twice as high. -/
theorem Derivation.height_tree_lt (D : Derivation .block) (p : Pos) {limit : Nat}
    (hd : D.depth ≤ limit) (hl : 2 ≤ limit) : (D.tree p).height < 2 * limit := by
  have h := D.isShallow p
  omega

end ScriptEngine
