import ScriptEngine.Proofs.Grammar.Derivation
import ScriptEngine.Tree.Node

/-!
# Trees and their tokens

A tree can be listed in the order of its source: an operator between its operands, every other node
before what is below it, and no blocks (`Block.inorder`). Token by token, the source says the same
(`entries`): a token that is more than punctuation is one node of the tree, with the same name,
value or operator, at the same position (`Derivation.entries_tokens`).
-/

namespace ScriptEngine

/-! ## Nodes in the order of the source -/

mutual

@[simp] def Expr.inorder : Expr → List Node
  | .number p x => [.expr (.number p x)]
  | .string p s => [.expr (.string p s)]
  | .var p n => [.expr (.var p n)]
  | .binary p op l r => l.inorder ++ .expr (.binary p op l r) :: r.inorder
  | .comparison p op l r => l.inorder ++ .expr (.comparison p op l r) :: r.inorder
  | .call p n args => .expr (.call p n args) :: Expr.inorderArgs args

@[simp] def Expr.inorderArgs : List Expr → List Node
  | [] => []
  | e :: es => e.inorder ++ Expr.inorderArgs es

end

mutual

@[simp] def Stmt.inorder : Stmt → List Node
  | .expr e => e.inorder
  | .assign p n v => .stmt (.assign p n v) :: v.inorder
  | .block b => b.inorder
  | .ifThen p c t => .stmt (.ifThen p c t) :: (c.toExpr.inorder ++ t.inorder)
  | .ifElse p c t e => .stmt (.ifElse p c t e) :: (c.toExpr.inorder ++ (t.inorder ++ e.inorder))
  | .loop p c b => .stmt (.loop p c b) :: (c.toExpr.inorder ++ b.inorder)

@[simp] def Block.inorder : Block → List Node
  | .mk _ ss => Stmt.inorderBody ss

@[simp] def Stmt.inorderBody : List Stmt → List Node
  | [] => []
  | s :: ss => s.inorder ++ Stmt.inorderBody ss

end

/-! ## No node is left out -/

/-- Whether a node is listed. -/
def Node.isListed (n : Node) : Bool := n.kind != .block

theorem Expr.isListed_node (e : Expr) : (Node.expr e).isListed = true := by
  cases e <;> rfl

mutual

theorem Expr.filter_nodesOnto (e : Expr) (ns : List Node) :
    ((e.nodesOnto ns).filter Node.isListed).Perm (e.inorder ++ ns.filter Node.isListed) := by
  cases e with
  | number | string | var =>
    simp only [nodesOnto, List.filter_cons, isListed_node, if_true, inorder]
    exact .refl _
  | binary p op l r | comparison p op l r =>
    simp only [nodesOnto, List.filter_cons, isListed_node, if_true, inorder, List.append_assoc,
      List.cons_append]
    have hl := l.filter_nodesOnto (r.nodesOnto ns)
    have hr := (r.filter_nodesOnto ns).append_left l.inorder
    exact ((hl.trans hr).cons _).trans List.perm_middle.symm
  | call p n args =>
    simp only [nodesOnto, List.filter_cons, isListed_node, if_true, inorder]
    exact (Expr.filter_nodesOntoArgs args ns).cons _

theorem Expr.filter_nodesOntoArgs (es : List Expr) (ns : List Node) :
    ((Expr.nodesOntoArgs es ns).filter Node.isListed).Perm
      (Expr.inorderArgs es ++ ns.filter Node.isListed) := by
  cases es with
  | nil => exact .refl _
  | cons e es =>
    rw [nodesOntoArgs, inorderArgs, List.append_assoc]
    exact (e.filter_nodesOnto _).trans ((Expr.filter_nodesOntoArgs es ns).append_left _)

end

mutual

theorem Stmt.filter_nodesOnto (s : Stmt) (ns : List Node) :
    ((s.nodesOnto ns).filter Node.isListed).Perm (s.inorder ++ ns.filter Node.isListed) := by
  cases s with
  | expr e => exact e.filter_nodesOnto ns
  | assign p n v => exact (v.filter_nodesOnto ns).cons _
  | block b => exact b.filter_nodesOnto ns
  | ifThen p c t | loop p c t =>
    rw [Stmt.inorder, List.cons_append, List.append_assoc]
    exact ((c.toExpr.filter_nodesOnto _).trans ((t.filter_nodesOnto ns).append_left _)).cons _
  | ifElse p c t e =>
    rw [Stmt.inorder, List.cons_append, List.append_assoc, List.append_assoc]
    have ht := (t.filter_nodesOnto _).trans ((e.filter_nodesOnto ns).append_left _)
    exact ((c.toExpr.filter_nodesOnto _).trans (ht.append_left _)).cons _

theorem Block.filter_nodesOnto (b : Block) (ns : List Node) :
    ((b.nodesOnto ns).filter Node.isListed).Perm (b.inorder ++ ns.filter Node.isListed) := by
  cases b with
  | mk p ss => exact Stmt.filter_nodesOntoBody ss ns

theorem Stmt.filter_nodesOntoBody (ss : List Stmt) (ns : List Node) :
    ((Stmt.nodesOntoBody ss ns).filter Node.isListed).Perm
      (Stmt.inorderBody ss ++ ns.filter Node.isListed) := by
  cases ss with
  | nil => exact .refl _
  | cons s ss =>
    rw [Stmt.nodesOntoBody, Stmt.inorderBody, List.append_assoc]
    exact (s.filter_nodesOnto _).trans ((Stmt.filter_nodesOntoBody ss ns).append_left _)

end

/-- All nodes but the blocks are listed, each once. -/
theorem Block.inorder_perm (b : Block) :
    b.inorder.Perm (b.toNode.preorder.filter Node.isListed) := by
  have h := b.filter_nodesOnto []
  rw [List.filter_nil, List.append_nil] at h
  exact h.symm

/-! ## What a node and a token say -/

inductive Content where
  | name (n : Text)
  | string (s : Text)
  | number (x : Double)
  | operator (op : TokenKind)
  | none
  deriving DecidableEq

/-- What stands somewhere in a source. -/
structure Entry where
  kind : NodeKind
  content : Content
  pos : Pos
  deriving DecidableEq

@[simp] def Expr.entry : Expr → Entry
  | number p x => ⟨.number, .number x, p⟩
  | string p s => ⟨.string, .string s, p⟩
  | var p n => ⟨.var, .name n, p⟩
  | binary p op _ _ => ⟨.binary, .operator op, p⟩
  | comparison p op _ _ => ⟨.comparison, .operator op, p⟩
  | call p n _ => ⟨.call, .name n, p⟩

@[simp] def Stmt.entry : Stmt → Entry
  | expr e => e.entry
  | assign p n _ => ⟨.assign, .name n, p⟩
  | block b => ⟨.block, .none, b.pos⟩
  | ifThen p _ _ | ifElse p _ _ _ => ⟨.branch, .none, p⟩
  | loop p _ _ => ⟨.loop, .none, p⟩

@[simp] def Node.entry : Node → Entry
  | expr e => e.entry
  | stmt s => s.entry

theorem Node.pos_entry (n : Node) : n.entry.pos = n.pos := by
  cases n with
  | expr e => cases e <;> rfl
  | stmt s =>
    cases s with
    | expr e => cases e <;> rfl
    | _ => rfl

/-- What a name is, by the kind of the token after it. -/
def nameKind : Option TokenKind → NodeKind
  | some .openParen => .call
  | some .equals => .assign
  | _ => .var

/-- The node that a token is, if it is one. -/
def Token.entry? (t : Token) (next : Option TokenKind) : Option Entry :=
  match t.kind with
  | .ident => some ⟨nameKind next, .name t.lexeme, t.pos⟩
  | .number => some ⟨.number, .number t.value, t.pos⟩
  | .string => some ⟨.string, .string t.lexeme, t.pos⟩
  | .plus | .minus | .star | .slash => some ⟨.binary, .operator t.kind, t.pos⟩
  | .greater | .greaterEq | .less | .lessEq => some ⟨.comparison, .operator t.kind, t.pos⟩
  | .ifWord => some ⟨.branch, .none, t.pos⟩
  | .whileWord => some ⟨.loop, .none, t.pos⟩
  | .openParen | .closeParen | .comma | .equals | .thenWord | .elseWord | .endifWord
  | .endwhileWord | .endOfInput => none

/-- The nodes that the tokens of a source are. -/
def entries : List Token → List Entry
  | [] => []
  | t :: ts => (t.entry? (ts.head?.map Token.kind)).toList ++ entries ts

/-! ## Token by token -/

section Entries

variable {k : TokenKind} {t : Token} {ts : List Token}

@[simp] theorem entries_nil : entries [] = [] := rfl

theorem entries_cons (t : TokenOf k) :
    entries (t.1 :: ts) =
      (Token.entry? { t.1 with kind := k } (ts.head?.map Token.kind)).toList ++ entries ts := by
  obtain ⟨t, rfl⟩ := t
  rfl

theorem entries_arithmetic (h : t.kind.isAdditive = true ∨ t.kind.isMultiplicative = true) :
    entries (t :: ts) = ⟨.binary, .operator t.kind, t.pos⟩ :: entries ts := by
  rw [entries, Token.entry?]
  revert h
  cases t.kind <;> simp [TokenKind.isAdditive, TokenKind.isMultiplicative]

theorem entries_comparison (h : t.kind.isComparison = true) :
    entries (t :: ts) = ⟨.comparison, .operator t.kind, t.pos⟩ :: entries ts := by
  rw [entries, Token.entry?]
  revert h
  cases t.kind <;> simp [TokenKind.isComparison]

/-- A name in front of these tokens is neither called nor assigned to. -/
def Plain (ts : List Token) : Prop := nameKind (ts.head?.map Token.kind) = .var

theorem plain_cons (ho : t.kind ≠ .openParen) (he : t.kind ≠ .equals) : Plain (t :: ts) := by
  rw [Plain, List.head?_cons, Option.map_some]
  unfold nameKind
  split
  · next h => exact absurd (Option.some.inj h) ho
  · next h => exact absurd (Option.some.inj h) he
  · rfl

theorem TokenOf.plain (t : TokenOf k) (ho : k ≠ .openParen) (he : k ≠ .equals) :
    Plain (t.1 :: ts) :=
  plain_cons (by rw [t.2]; exact ho) (by rw [t.2]; exact he)

theorem TokenIn.plain {p : TokenKind → Bool} (t : TokenIn p) (ho : p .openParen = false)
    (he : p .equals = false) : Plain (t.1 :: ts) := by
  refine plain_cons (fun e => ?_) (fun e => ?_)
  · have h := t.2
    rw [e, ho] at h
    cases h
  · have h := t.2
    rw [e, he] at h
    cases h

end Entries

/-! ## Derivations -/

namespace Derivation

open Nonterminal

theorem plain_statements (ss : Derivation .statements) {rest : List Token} (hr : Plain rest) :
    Plain (ss.tokens ++ rest) := by
  cases ss with
  | noStatement => exact hr
  | moreStatements s ss =>
    obtain ⟨t, ts, e, h⟩ := s.exists_first rfl
    simp only [tokens, e, List.cons_append]
    refine plain_cons (fun he => ?_) (fun he => ?_)
    · rw [he] at h
      cases h
    · rw [he] at h
      cases h

theorem plain_block (b : Derivation .block) {rest : List Token} (hr : Plain rest) :
    Plain (b.tokens ++ rest) := by
  cases b with
  | block ss => exact ss.plain_statements hr

theorem plain_moreArguments (as : Derivation .moreArguments) {rest : List Token} (hr : Plain rest) :
    Plain (as.tokens ++ rest) := by
  cases as with
  | endArguments => exact hr
  | nextArgument comma a as => exact comma.plain (by decide) (by decide)

end Derivation

/-- The nodes of what a phrase stands for. -/
@[simp] def Nonterminal.inorder : (s : Nonterminal) → s.Tree → List Node
  | block, b => (b Pos.unset).inorder
  | statements, ss => Stmt.inorderBody ss
  | statement, s => s.inorder
  | conditional, c => c.toExpr.inorder
  | rootExpr, e | expr, e | term, e | factor, e | call, e | argument, e => e.inorder
  | arguments, es | moreArguments, es => Expr.inorderArgs es

theorem Derivation.inorder_tree (b : Derivation .block) (p : Pos) :
    (b.tree p).inorder = (b.tree Pos.unset).inorder := by
  cases b with
  | block ss => rfl

/-- A phrase says, token by token, what its tree says node by node. -/
theorem Derivation.entries_tokens {s : Nonterminal} (D : Derivation s) {rest : List Token}
    (hr : Plain rest) :
    entries (D.tokens ++ rest) = (s.inorder D.tree).map Node.entry ++ entries rest := by
  induction D generalizing rest with
  | block ss ih => exact ih hr
  | noStatement | noArgument | endArguments => rfl
  | moreStatements s ss ihs ihss =>
    simp only [tokens, List.append_assoc]
    rw [ihs (ss.plain_statements hr), ihss hr]
    simp
  | assign name eq v ih =>
    simp only [tokens, List.cons_append]
    rw [entries_cons name, entries_cons eq, ih hr]
    simp [Token.entry?, eq.2, nameKind]
  | callStatement c ih | callFactor c ih | ofExpr c ih | ofTerm c ih | ofFactor c ih
  | ofRootExpr c ih | ofConditional c ih => exact ih hr
  | ifThen i c t b e ihc ihb =>
    simp only [tokens, List.cons_append, List.append_assoc, List.nil_append]
    rw [entries_cons i, ihc (t.plain (by decide) (by decide)), entries_cons t,
      ihb (e.plain (by decide) (by decide)), entries_cons e]
    simp [Token.entry?, b.inorder_tree e.1.pos]
  | ifElse i c t b o b' e ihc ihb ihb' =>
    simp only [tokens, List.cons_append, List.append_assoc, List.nil_append]
    rw [entries_cons i, ihc (t.plain (by decide) (by decide)), entries_cons t,
      ihb (o.plain (by decide) (by decide)), entries_cons o,
      ihb' (e.plain (by decide) (by decide)), entries_cons e]
    simp [Token.entry?, b.inorder_tree o.1.pos, b'.inorder_tree e.1.pos]
  | loop w c b e ihc ihb =>
    simp only [tokens, List.cons_append, List.append_assoc, List.nil_append]
    have he : Plain (e.1 :: rest) := e.plain (by decide) (by decide)
    rw [entries_cons w, ihc (b.plain_block he), ihb he, entries_cons e]
    simp [Token.entry?, b.inorder_tree e.1.pos]
  | comparison l op r ihl ihr =>
    simp only [tokens, List.cons_append, List.append_assoc]
    rw [ihl (op.plain rfl rfl), entries_comparison op.2, ihr hr]
    simp [Condition.toExpr]
  | sum l op r ihl ihr =>
    simp only [tokens, List.cons_append, List.append_assoc]
    rw [ihl (op.plain rfl rfl), entries_arithmetic (.inl op.2), ihr hr]
    simp
  | product l op r ihl ihr =>
    simp only [tokens, List.cons_append, List.append_assoc]
    rw [ihl (op.plain rfl rfl), entries_arithmetic (.inr op.2), ihr hr]
    simp
  | number n => exact entries_cons n
  | string s => exact entries_cons s
  | var name =>
    simp only [tokens, List.cons_append, List.nil_append]
    rw [entries_cons name]
    have : nameKind (rest.head?.map Token.kind) = .var := hr
    simp [Token.entry?, this]
  | paren o e c ih =>
    simp only [tokens, List.cons_append, List.append_assoc, List.nil_append]
    rw [entries_cons o, ih (c.plain (by decide) (by decide)), entries_cons c]
    simp [Token.entry?]
  | call name o as c ih =>
    simp only [tokens, List.cons_append, List.append_assoc, List.nil_append]
    rw [entries_cons name, entries_cons o, ih (c.plain (by decide) (by decide)), entries_cons c]
    simp [Token.entry?, o.2, nameKind]
  | someArguments a as iha ihas =>
    simp only [tokens, List.append_assoc]
    rw [iha (as.plain_moreArguments hr), ihas hr]
    simp
  | nextArgument comma a as iha ihas =>
    simp only [tokens, List.cons_append, List.append_assoc]
    rw [entries_cons comma, iha (as.plain_moreArguments hr), ihas hr]
    simp [Token.entry?]

/-! ## Positions -/

/-- The positions of all the nodes have `P`. -/
def Node.AllAt (P : Pos → Prop) (ns : List Node) : Prop := ∀ n ∈ ns, P n.pos

/-- The positions in what a phrase stands for have `P`, if that of a following token has. -/
@[simp] def Nonterminal.AllAt (P : Pos → Prop) : (s : Nonterminal) → s.Tree → Prop
  | block, b => ∀ p, P p → ∀ ns, Node.AllAt P ns → Node.AllAt P ((b p).nodesOnto ns)
  | statements, ss => ∀ ns, Node.AllAt P ns → Node.AllAt P (Stmt.nodesOntoBody ss ns)
  | statement, s => ∀ ns, Node.AllAt P ns → Node.AllAt P (s.nodesOnto ns)
  | conditional, c => ∀ ns, Node.AllAt P ns → Node.AllAt P (c.toExpr.nodesOnto ns)
  | rootExpr, e | expr, e | term, e | factor, e | call, e | argument, e =>
    ∀ ns, Node.AllAt P ns → Node.AllAt P (e.nodesOnto ns)
  | arguments, es | moreArguments, es =>
    ∀ ns, Node.AllAt P ns → Node.AllAt P (Expr.nodesOntoArgs es ns)

theorem Node.AllAt.cons {P : Pos → Prop} {n : Node} {ns : List Node} (hn : P n.pos)
    (hs : AllAt P ns) : AllAt P (n :: ns) :=
  List.forall_mem_cons.mpr ⟨hn, hs⟩

theorem firstPos_mem {P : Pos → Prop} {ts : List Token} {next : Pos} (hn : P next)
    (h : ∀ t ∈ ts, P t.pos) : P (firstPos ts next) := by
  cases ts with
  | nil => exact hn
  | cons t ts => exact h t List.mem_cons_self

/-- Every node stands where a token does. -/
theorem Derivation.allAt_tree {P : Pos → Prop} {s : Nonterminal} (D : Derivation s)
    (h : ∀ t ∈ D.tokens, P t.pos) : s.AllAt P D.tree := by
  induction D with
  | block ss ih =>
    exact fun p hp ns hs => (ih h ns hs).cons (firstPos_mem hp h)
  | noStatement | noArgument | endArguments => exact fun ns hs => hs
  | moreStatements s ss ihs ihss =>
    rw [tokens, List.forall_mem_append] at h
    exact fun ns hs => ihs h.1 _ (ihss h.2 ns hs)
  | assign name eq v ih =>
    simp only [tokens, List.forall_mem_cons] at h
    exact fun ns hs => (ih h.2.2 ns hs).cons h.1
  | callStatement c ih | callFactor c ih | ofExpr c ih | ofTerm c ih | ofFactor c ih
  | ofRootExpr c ih | ofConditional c ih => exact ih h
  | ifThen i c t b e ihc ihb =>
    simp only [tokens, List.forall_mem_cons, List.forall_mem_append] at h
    obtain ⟨hi, hc, -, hb, he, -⟩ := h
    exact fun ns hs => (ihc hc _ (ihb hb _ he ns hs)).cons hi
  | ifElse i c t b o b' e ihc ihb ihb' =>
    simp only [tokens, List.forall_mem_cons, List.forall_mem_append] at h
    obtain ⟨hi, hc, -, hb, ho, hb', he, -⟩ := h
    exact fun ns hs => (ihc hc _ (ihb hb _ ho _ (ihb' hb' _ he ns hs))).cons hi
  | loop w c b e ihc ihb =>
    simp only [tokens, List.forall_mem_cons, List.forall_mem_append] at h
    obtain ⟨hw, hc, hb, he, -⟩ := h
    exact fun ns hs => (ihc hc _ (ihb hb _ he ns hs)).cons hw
  | comparison l op r ihl ihr | sum l op r ihl ihr | product l op r ihl ihr =>
    simp only [tokens, List.forall_mem_cons, List.forall_mem_append] at h
    obtain ⟨hl, ho, hr⟩ := h
    exact fun ns hs => (ihl hl _ (ihr hr ns hs)).cons ho
  | number n | var n | string n => exact fun ns hs => hs.cons (h n.1 List.mem_cons_self)
  | paren o e c ih =>
    simp only [tokens, List.forall_mem_cons, List.forall_mem_append] at h
    exact ih h.2.1
  | call name o as c ih =>
    simp only [tokens, List.forall_mem_cons, List.forall_mem_append] at h
    exact fun ns hs => (ih h.2.2.1 ns hs).cons h.1
  | someArguments a as iha ihas =>
    rw [tokens, List.forall_mem_append] at h
    exact fun ns hs => iha h.1 _ (ihas h.2 ns hs)
  | nextArgument comma a as iha ihas =>
    simp only [tokens, List.forall_mem_cons, List.forall_mem_append] at h
    exact fun ns hs => iha h.2.1 _ (ihas h.2.2 ns hs)

/-- Only tokens have entries, at their positions and in their order. -/
theorem sublist_entries (ts : List Token) :
    ((entries ts).map Entry.pos).Sublist (ts.map Token.pos) := by
  induction ts with
  | nil => exact .refl _
  | cons t ts ih =>
    have hp : ∀ e ∈ t.entry? (ts.head?.map Token.kind), e.pos = t.pos := by
      intro e he
      unfold Token.entry? at he
      split at he <;> cases he <;> rfl
    rw [entries, List.map_append, List.map_cons]
    cases he : t.entry? (ts.head?.map Token.kind) with
    | none => exact ih.cons _
    | some e =>
      rw [← hp e he]
      exact ih.cons_cons _

end ScriptEngine
