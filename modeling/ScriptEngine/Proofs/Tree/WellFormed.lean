import ScriptEngine.Proofs.Double.Expansion
import ScriptEngine.Proofs.Grammar.Derivation
import ScriptEngine.Proofs.Lexer.Lexeme
import ScriptEngine.Proofs.Tree.Positions
import ScriptEngine.Tree.Node

/-!
# Well-formed trees

The trees that a source can have: operators of the right class, names and values that can be written,
strings only as arguments, comparisons only on the right of an assignment, as an argument or as a
condition. The tree of a derivation is well formed if its tokens can be written
(`Derivation.wellFormed`).
-/

namespace ScriptEngine

/-! ## Values that can be written -/

namespace Double

variable {m : Nat} {x : Double}

/-- Finite and not below zero; there is only one zero then. -/
def IsLiteral (x : Double) : Prop := x.isFinite = true ∧ x.isNegative = false

theorem isLiteral_ofMagnitude (hm : m < infinity) : (ofMagnitude m).IsLiteral := by
  have hlt : m < signBit := Nat.lt_of_lt_of_le hm (by decide)
  have hbits : (ofMagnitude m).bits.toNat = m := by
    simp only [ofMagnitude, UInt64.toNat_ofNat']
    exact Nat.mod_eq_of_lt (Nat.lt_of_lt_of_le hlt (by decide))
  constructor
  · simp [isFinite, magnitude, hbits, Nat.mod_eq_of_lt hlt, hm]
  · simp [isNegative, hbits, hlt]

theorem ofMagnitude_magnitude (h : x.IsLiteral) : ofMagnitude x.magnitude = x := by
  have hlt : x.bits.toNat < signBit := by simpa [isNegative] using h.2
  rw [magnitude, Nat.mod_eq_of_lt hlt, ofMagnitude, UInt64.ofNat_toNat]

theorem magnitude_lt (h : x.IsLiteral) : x.magnitude < infinity := by
  simpa [isFinite] using h.1

end Double

/-- Free of one of the two quotes, so that it can stand between two of them. -/
def Text.IsQuotable (s : Text) : Prop := Byte.doubleQuote ∉ s ∨ Byte.singleQuote ∉ s

namespace Spells

variable {raw : Text} {t : Token}

theorem isName (h : Spells raw t) (hk : t.kind = .ident) : t.lexeme.IsName := by
  cases h with
  | fixed h => rw [hk] at h; cases h
  | name _ h => exact h
  | number h => rw [hk] at h; cases h
  | string h => rw [hk] at h; cases h

theorem isLiteral (h : Spells raw t) (hk : t.kind = .number) : t.value.IsLiteral := by
  cases h with
  | fixed h => rw [hk] at h; cases h
  | name h => rw [hk] at h; cases h
  | number _ _ _ hv =>
    obtain ⟨m, hm, e⟩ := Numeral.value?_eq_some hv
    rw [e]
    exact Double.isLiteral_ofMagnitude hm
  | string h => rw [hk] at h; cases h

theorem isQuotable (h : Spells raw t) (hk : t.kind = .string) : t.lexeme.IsQuotable := by
  cases h with
  | fixed h => rw [hk] at h; cases h
  | name h => rw [hk] at h; cases h
  | number h => rw [hk] at h; cases h
  | string _ hq hmem =>
    simp only [Byte.isQuote, Bool.or_eq_true, beq_iff_eq] at hq
    rcases hq with rfl | rfl
    · exact .inl hmem
    · exact .inr hmem

end Spells

/-! ## Well-formed trees -/

/-- Where an expression stands: beside an operator, on the right of an assignment, or in a call. -/
inductive Place where
  | operand
  | root
  | argument
  deriving DecidableEq

mutual

@[simp] def Expr.WellFormed (p : Place) : Expr → Prop
  | .number _ x => x.IsLiteral
  | .string _ s => p = .argument ∧ s.IsQuotable
  | .var _ n => n.IsName
  | .binary _ op l r =>
    (op.isAdditive = true ∨ op.isMultiplicative = true) ∧ l.WellFormed .operand ∧
      r.WellFormed .operand
  | .comparison _ op l r =>
    p ≠ .operand ∧ op.isComparison = true ∧ l.WellFormed .operand ∧ r.WellFormed .operand
  | .call _ n args => n.IsName ∧ Expr.AllWellFormed args

@[simp] def Expr.AllWellFormed : List Expr → Prop
  | [] => True
  | e :: es => e.WellFormed .argument ∧ Expr.AllWellFormed es

end

@[simp] def Condition.WellFormed (c : Condition) : Prop :=
  c.op.isComparison = true ∧ c.lhs.WellFormed .operand ∧ c.rhs.WellFormed .operand

mutual

@[simp] def Stmt.WellFormed : Stmt → Prop
  | .expr e => e.kind = .call ∧ e.WellFormed .operand
  | .assign _ n v => n.IsName ∧ v.WellFormed .root
  | .block _ => False
  | .ifThen _ c b => c.WellFormed ∧ b.WellFormed
  | .ifElse _ c b b' => c.WellFormed ∧ b.WellFormed ∧ b'.WellFormed
  | .loop _ c b => c.WellFormed ∧ b.WellFormed

@[simp] def Block.WellFormed : Block → Prop
  | .mk _ ss => Stmt.AllWellFormed ss

@[simp] def Stmt.AllWellFormed : List Stmt → Prop
  | [] => True
  | s :: ss => s.WellFormed ∧ Stmt.AllWellFormed ss

end

/-! ## Positions do not matter -/

theorem Expr.kind_mapPos (f : Pos → Pos) (e : Expr) : (e.mapPos f).kind = e.kind := by
  cases e <;> simp [Expr.kind]

mutual

theorem Expr.wellFormed_mapPos (f : Pos → Pos) (e : Expr) (p : Place) :
    (e.mapPos f).WellFormed p ↔ e.WellFormed p := by
  cases e with
  | number | string | var => simp
  | binary _ op l r | comparison _ op l r =>
    simp [l.wellFormed_mapPos f, r.wellFormed_mapPos f]
  | call _ n args => simp [Expr.allWellFormed_mapPosAll f args]

theorem Expr.allWellFormed_mapPosAll (f : Pos → Pos) (es : List Expr) :
    Expr.AllWellFormed (Expr.mapPosAll f es) ↔ Expr.AllWellFormed es := by
  cases es with
  | nil => simp
  | cons e es => simp [e.wellFormed_mapPos f, Expr.allWellFormed_mapPosAll f es]

end

mutual

theorem Stmt.wellFormed_mapPos (f : Pos → Pos) (s : Stmt) :
    (s.mapPos f).WellFormed ↔ s.WellFormed := by
  cases s with
  | expr e => simp [Expr.kind_mapPos, Expr.wellFormed_mapPos]
  | assign => simp [Expr.wellFormed_mapPos]
  | block => simp
  | ifThen _ c b => simp [Expr.wellFormed_mapPos, b.wellFormed_mapPos f]
  | ifElse _ c b b' => simp [Expr.wellFormed_mapPos, b.wellFormed_mapPos f, b'.wellFormed_mapPos f]
  | loop _ c b => simp [Expr.wellFormed_mapPos, b.wellFormed_mapPos f]

theorem Block.wellFormed_mapPos (f : Pos → Pos) (b : Block) :
    (b.mapPos f).WellFormed ↔ b.WellFormed := by
  cases b with
  | mk _ ss => simp [Stmt.allWellFormed_mapPosAll f ss]

theorem Stmt.allWellFormed_mapPosAll (f : Pos → Pos) (ss : List Stmt) :
    Stmt.AllWellFormed (Stmt.mapPosAll f ss) ↔ Stmt.AllWellFormed ss := by
  cases ss with
  | nil => simp
  | cons s ss => simp [s.wellFormed_mapPos f, Stmt.allWellFormed_mapPosAll f ss]

end

theorem Block.WellFormed.of_erase {b b' : Block} (h : b.erase = b'.erase) (hw : b.WellFormed) :
    b'.WellFormed := by
  have he : b.erase.WellFormed := (b.wellFormed_mapPos _).mpr hw
  rw [h] at he
  exact (b'.wellFormed_mapPos _).mp he

/-! ## Nodes -/

/-- Every expression among the nodes is well formed in some place. -/
def Node.ExprsWellFormed (ns : List Node) : Prop :=
  ∀ e, Node.expr e ∈ ns → ∃ p : Place, e.WellFormed p

section Nodes

open Node (ExprsWellFormed)

variable {ns : List Node}

theorem Node.ExprsWellFormed.cons_expr {e : Expr} {p : Place} (hs : ExprsWellFormed ns)
    (h : e.WellFormed p) : ExprsWellFormed (.expr e :: ns) := by
  intro e' he'
  rcases List.mem_cons.mp he' with heq | hmem
  · cases heq
    exact ⟨p, h⟩
  · exact hs e' hmem

theorem Node.ExprsWellFormed.cons_stmt {s : Stmt} (hs : ExprsWellFormed ns) :
    ExprsWellFormed (.stmt s :: ns) := by
  intro e he
  rcases List.mem_cons.mp he with heq | hmem
  · cases heq
  · exact hs e hmem

mutual

theorem Expr.exprsWellFormed_nodesOnto (e : Expr) {p : Place} (h : e.WellFormed p)
    {rest : List Node} (hs : ExprsWellFormed rest) : ExprsWellFormed (e.nodesOnto rest) := by
  cases e with
  | number | string | var => exact hs.cons_expr h
  | binary pos op l r =>
    have hr := r.exprsWellFormed_nodesOnto h.2.2 hs
    exact (l.exprsWellFormed_nodesOnto h.2.1 hr).cons_expr h
  | comparison pos op l r =>
    have hr := r.exprsWellFormed_nodesOnto h.2.2.2 hs
    exact (l.exprsWellFormed_nodesOnto h.2.2.1 hr).cons_expr h
  | call pos name args => exact (Expr.exprsWellFormed_nodesOntoArgs args h.2 hs).cons_expr h

theorem Expr.exprsWellFormed_nodesOntoArgs (es : List Expr) (h : Expr.AllWellFormed es)
    {rest : List Node} (hs : ExprsWellFormed rest) :
    ExprsWellFormed (Expr.nodesOntoArgs es rest) := by
  cases es with
  | nil => exact hs
  | cons e es =>
    exact e.exprsWellFormed_nodesOnto h.1 (Expr.exprsWellFormed_nodesOntoArgs es h.2 hs)

end

theorem Condition.exprsWellFormed_nodesOnto {c : Condition} (h : c.WellFormed)
    (hs : ExprsWellFormed ns) : ExprsWellFormed (c.toExpr.nodesOnto ns) :=
  have hc : c.toExpr.WellFormed .root := ⟨by decide, h⟩
  c.toExpr.exprsWellFormed_nodesOnto hc hs

mutual

theorem Stmt.exprsWellFormed_nodesOnto (s : Stmt) (h : s.WellFormed) {rest : List Node}
    (hs : ExprsWellFormed rest) : ExprsWellFormed (s.nodesOnto rest) := by
  cases s with
  | expr e => exact e.exprsWellFormed_nodesOnto h.2 hs
  | assign pos n v => exact (v.exprsWellFormed_nodesOnto h.2 hs).cons_stmt
  | block => cases h
  | ifThen pos c b | loop pos c b =>
    have hb := b.exprsWellFormed_nodesOnto h.2 hs
    exact (Condition.exprsWellFormed_nodesOnto h.1 hb).cons_stmt
  | ifElse pos c b b' =>
    have hb := b.exprsWellFormed_nodesOnto h.2.1 (b'.exprsWellFormed_nodesOnto h.2.2 hs)
    exact (Condition.exprsWellFormed_nodesOnto h.1 hb).cons_stmt

theorem Block.exprsWellFormed_nodesOnto (b : Block) (h : b.WellFormed) {rest : List Node}
    (hs : ExprsWellFormed rest) : ExprsWellFormed (b.nodesOnto rest) := by
  cases b with
  | mk pos ss => exact (Stmt.exprsWellFormed_nodesOntoBody ss h hs).cons_stmt

theorem Stmt.exprsWellFormed_nodesOntoBody (ss : List Stmt) (h : Stmt.AllWellFormed ss)
    {rest : List Node} (hs : ExprsWellFormed rest) :
    ExprsWellFormed (Stmt.nodesOntoBody ss rest) := by
  cases ss with
  | nil => exact hs
  | cons s ss =>
    exact s.exprsWellFormed_nodesOnto h.1 (Stmt.exprsWellFormed_nodesOntoBody ss h.2 hs)

end

theorem Block.WellFormed.exprs {b : Block} (h : b.WellFormed) :
    ExprsWellFormed b.toNode.preorder :=
  b.exprsWellFormed_nodesOnto h fun _ he => by cases he

end Nodes

/-! ## Trees of derivations -/

/-- An operand may stand anywhere. -/
theorem Expr.WellFormed.of_operand {e : Expr} (h : e.WellFormed .operand) (p : Place) :
    e.WellFormed p := by
  cases e <;> simp_all

theorem Expr.WellFormed.of_root {e : Expr} (h : e.WellFormed .root) : e.WellFormed .argument := by
  cases e <;> simp_all

@[simp] def Nonterminal.WellFormed : (s : Nonterminal) → s.Tree → Prop
  | block, b => ∀ p, (b p).WellFormed
  | statements, ss => Stmt.AllWellFormed ss
  | statement, s => s.WellFormed
  | conditional, c => c.WellFormed
  | rootExpr, e => e.WellFormed .root
  | expr, e | term, e | factor, e => e.WellFormed .operand
  | call, e => e.kind = .call ∧ e.WellFormed .operand
  | argument, e => e.WellFormed .argument
  | arguments, es | moreArguments, es => Expr.AllWellFormed es

theorem Derivation.wellFormed {s : Nonterminal} (D : Derivation s)
    (h : ∀ t ∈ D.tokens, ∃ raw, Spells raw t) : s.WellFormed D.tree := by
  induction D with
  | block ss ih => exact fun _ => ih h
  | noStatement | noArgument | endArguments => trivial
  | moreStatements s ss ihs ihss =>
    rw [tokens, List.forall_mem_append] at h
    exact ⟨ihs h.1, ihss h.2⟩
  | assign name eq v ih =>
    simp only [tokens, List.forall_mem_cons] at h
    obtain ⟨⟨_, hn⟩, -, hv⟩ := h
    exact ⟨hn.isName name.2, ih hv⟩
  | callStatement c ih | ofTerm c ih | ofFactor c ih => exact ih h
  | ofExpr e ih => exact Expr.WellFormed.of_operand (ih h) .root
  | ifThen i c t b e ihc ihb =>
    simp only [tokens, List.forall_mem_cons, List.forall_mem_append] at h
    obtain ⟨-, hc, -, hb, -⟩ := h
    exact ⟨ihc hc, ihb hb _⟩
  | ifElse i c t b o b' e ihc ihb ihb' =>
    simp only [tokens, List.forall_mem_cons, List.forall_mem_append] at h
    obtain ⟨-, hc, -, hb, -, hb', -⟩ := h
    exact ⟨ihc hc, ihb hb _, ihb' hb' _⟩
  | loop w c b e ihc ihb =>
    simp only [tokens, List.forall_mem_cons, List.forall_mem_append] at h
    obtain ⟨-, hc, hb, -⟩ := h
    exact ⟨ihc hc, ihb hb _⟩
  | comparison l op r ihl ihr =>
    simp only [tokens, List.forall_mem_cons, List.forall_mem_append] at h
    obtain ⟨hl, -, hr⟩ := h
    exact ⟨op.2, ihl hl, ihr hr⟩
  | ofConditional c ih =>
    obtain ⟨hop, hl, hr⟩ := ih h
    exact ⟨by decide, hop, hl, hr⟩
  | sum l op r ihl ihr =>
    simp only [tokens, List.forall_mem_cons, List.forall_mem_append] at h
    obtain ⟨hl, -, hr⟩ := h
    exact ⟨.inl op.2, ihl hl, ihr hr⟩
  | product l op r ihl ihr =>
    simp only [tokens, List.forall_mem_cons, List.forall_mem_append] at h
    obtain ⟨hl, -, hr⟩ := h
    exact ⟨.inr op.2, ihl hl, ihr hr⟩
  | number n =>
    obtain ⟨_, hn⟩ := h n.1 List.mem_cons_self
    exact hn.isLiteral n.2
  | var name =>
    obtain ⟨_, hn⟩ := h name.1 List.mem_cons_self
    exact hn.isName name.2
  | paren o e c ih =>
    simp only [tokens, List.forall_mem_cons, List.forall_mem_append] at h
    exact ih h.2.1
  | callFactor c ih => exact (ih h).2
  | call name o as c ih =>
    simp only [tokens, List.forall_mem_cons, List.forall_mem_append] at h
    obtain ⟨⟨_, hn⟩, -, has, -⟩ := h
    exact ⟨rfl, hn.isName name.2, ih has⟩
  | someArguments a as iha ihas =>
    rw [tokens, List.forall_mem_append] at h
    exact ⟨iha h.1, ihas h.2⟩
  | nextArgument comma a as iha ihas =>
    simp only [tokens, List.forall_mem_cons, List.forall_mem_append] at h
    exact ⟨iha h.2.1, ihas h.2.2⟩
  | ofRootExpr e ih => exact (ih h).of_root
  | string s =>
    obtain ⟨_, hs⟩ := h s.1 List.mem_cons_self
    exact ⟨rfl, hs.isQuotable s.2⟩

end ScriptEngine
