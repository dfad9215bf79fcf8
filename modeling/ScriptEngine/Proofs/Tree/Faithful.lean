import ScriptEngine.Proofs.Tree.Rendering

/-!
# Renderings are faithful

The rendering of a well-formed tree has this tree, up to positions, and all of its tokens can be
written (`Block.renders_rendering`).
-/

namespace ScriptEngine

/-- `D` can be written, and its tree is `t` up to positions. -/
def Derivation.Renders {s : Nonterminal} (D : Derivation s) (t : s.Tree) : Prop :=
  (∀ u ∈ D.tokens, Spells u.raw u) ∧ s.SameTree D.tree t

namespace Phrase

variable {p : Phrase} {e : Expr}

/-- The phrase, taken for what it is, renders the expression. -/
def Renders (e : Expr) : Phrase → Prop
  | factor f => f.Renders (s := .factor) e
  | term t => t.Renders (s := .term) e
  | expr d => d.Renders (s := .expr) e
  | conditional c => (Derivation.ofConditional c).Renders (s := .rootExpr) e
  | string s => (Derivation.string s).Renders (s := .argument) e

theorem renders_parenthesized {d : Derivation .expr} (h : d.Renders (s := .expr) e) :
    (parenthesized d).Renders (s := .factor) e := by
  refine ⟨?_, h.2⟩
  simp only [parenthesized, Derivation.tokens, List.forall_mem_cons, List.forall_mem_append]
  exact ⟨spells_token rfl, h.1, spells_token rfl, by simp⟩

/-! ## The phrase as part of a larger one -/

theorem Renders.toExpr (h : p.Renders e) (hp : p.isOperand = true) :
    p.toExpr.Renders (s := .expr) e := by
  cases p with
  | factor | term | expr => exact h
  | conditional | string => cases hp

theorem Renders.toTerm (h : p.Renders e) (hp : p.isOperand = true) :
    p.toTerm.Renders (s := .term) e := by
  cases p with
  | factor | term => exact h
  | expr d => exact renders_parenthesized (d := d) h
  | conditional | string => cases hp

theorem Renders.toFactor (h : p.Renders e) (hp : p.isOperand = true) :
    p.toFactor.Renders (s := .factor) e := by
  cases p with
  | factor => exact h
  | term t => exact renders_parenthesized (d := .ofTerm t) h
  | expr d => exact renders_parenthesized (d := d) h
  | conditional | string => cases hp

theorem Renders.toRoot (h : p.Renders e) (hp : p.isRoot = true) :
    p.toRoot.Renders (s := .rootExpr) e := by
  cases p with
  | factor | term | expr | conditional => exact h
  | string => cases hp

theorem Renders.toArgument (h : p.Renders e) : p.toArgument.Renders (s := .argument) e := by
  cases p <;> exact h

end Phrase

/-! ## Expressions -/

theorem TokenKind.isSome_fixedText? {k : TokenKind}
    (h : k.isAdditive = true ∨ k.isMultiplicative = true ∨ k.isComparison = true) :
    k.fixedText?.isSome = true := by
  revert h
  cases k <;> decide

section

variable {op : TokenKind} {q : Pos} {a b : Expr}

theorem renders_sum {l : Derivation .term} {r : Derivation .expr} (h : op.isAdditive = true)
    (hl : l.Renders (s := .term) a) (hr : r.Renders (s := .expr) b) :
    (Derivation.sum l (op.operator h) r).Renders (s := .expr) (.binary q op a b) := by
  constructor
  · simp only [Derivation.tokens, List.forall_mem_append, List.forall_mem_cons]
    exact ⟨hl.1, spells_token (TokenKind.isSome_fixedText? (.inl h)), hr.1⟩
  · exact congrArg₂ (Expr.binary Pos.unset op) hl.2 hr.2

theorem renders_product {l : Derivation .factor} {r : Derivation .term}
    (h : op.isMultiplicative = true) (hl : l.Renders (s := .factor) a)
    (hr : r.Renders (s := .term) b) :
    (Derivation.product l (op.operator h) r).Renders (s := .term) (.binary q op a b) := by
  constructor
  · simp only [Derivation.tokens, List.forall_mem_append, List.forall_mem_cons]
    exact ⟨hl.1, spells_token (TokenKind.isSome_fixedText? (.inr (.inl h))), hr.1⟩
  · exact congrArg₂ (Expr.binary Pos.unset op) hl.2 hr.2

theorem renders_comparison {l r : Derivation .expr} (h : op.isComparison = true)
    (hl : l.Renders (s := .expr) a) (hr : r.Renders (s := .expr) b) :
    (Derivation.comparison l (op.operator h) r).Renders (s := .conditional) ⟨q, op, a, b⟩ := by
  constructor
  · simp only [Derivation.tokens, List.forall_mem_append, List.forall_mem_cons]
    exact ⟨hl.1, spells_token (TokenKind.isSome_fixedText? (.inr (.inr h))), hr.1⟩
  · exact congrArg₂ (Condition.mk Pos.unset op) hl.2 hr.2

theorem renders_callOf {n : Text} {as : Derivation .arguments} {args : List Expr} (hn : n.IsName)
    (has : as.Renders (s := .arguments) args) :
    (callOf n as).Renders (s := .call) (.call q n args) := by
  constructor
  · simp only [callOf, Derivation.tokens, List.forall_mem_append, List.forall_mem_cons]
    exact ⟨spells_name hn, spells_token rfl, has.1, spells_token rfl, by simp⟩
  · exact congrArg (Expr.call Pos.unset n) has.2

end

mutual

/-- The phrase of an expression renders it, and is of a class that may stand in its place. -/
theorem Expr.renders_phrase (e : Expr) {p : Place} (h : e.WellFormed p) :
    e.phrase.Renders e ∧ (p = .operand → e.phrase.isOperand = true) ∧
      (p ≠ .argument → e.phrase.isRoot = true) := by
  cases e with
  | number _ x => exact ⟨⟨by simpa using spells_number h, rfl⟩, fun _ => rfl, fun _ => rfl⟩
  | string _ s =>
    obtain ⟨rfl, hs⟩ := h
    exact ⟨⟨by simpa using spells_string hs, rfl⟩, by simp, by simp⟩
  | var _ n => exact ⟨⟨by simpa using spells_name h, rfl⟩, fun _ => rfl, fun _ => rfl⟩
  | binary _ op l r =>
    obtain ⟨hop, hl, hr⟩ := h
    obtain ⟨hl', ol, -⟩ := l.renders_phrase hl
    obtain ⟨hr', or, -⟩ := r.renders_phrase hr
    rcases hop with ha | hm
    · rw [Expr.phrase_sum _ l r ha]
      exact ⟨renders_sum ha (hl'.toTerm (ol rfl)) (hr'.toExpr (or rfl)), fun _ => rfl, fun _ => rfl⟩
    · rw [Expr.phrase_product _ l r hm]
      exact ⟨renders_product hm (hl'.toFactor (ol rfl)) (hr'.toTerm (or rfl)), fun _ => rfl,
        fun _ => rfl⟩
  | comparison _ op l r =>
    obtain ⟨hp, hop, hl, hr⟩ := h
    obtain ⟨hl', ol, -⟩ := l.renders_phrase hl
    obtain ⟨hr', or, -⟩ := r.renders_phrase hr
    have hc := renders_comparison (q := Pos.unset) hop (hl'.toExpr (ol rfl)) (hr'.toExpr (or rfl))
    rw [Expr.phrase_comparison _ l r hop]
    exact ⟨⟨hc.1, congrArg Condition.toExpr hc.2⟩, fun e => absurd e hp, fun _ => rfl⟩
  | call _ n args =>
    exact ⟨renders_callOf h.1 (Expr.renders_arguments args h.2).1, fun _ => rfl, fun _ => rfl⟩

theorem Expr.renders_arguments (es : List Expr) (h : Expr.AllWellFormed es) :
    (Expr.arguments es).Renders (s := .arguments) es ∧
      (Expr.moreArguments es).Renders (s := .moreArguments) es := by
  cases es with
  | nil => exact ⟨⟨by simp, rfl⟩, by simp, rfl⟩
  | cons e es =>
    have he := (e.renders_phrase h.1).1.toArgument
    have hes := (Expr.renders_arguments es h.2).2
    refine ⟨⟨?_, congrArg₂ List.cons he.2 hes.2⟩, ?_, congrArg₂ List.cons he.2 hes.2⟩
    · simp only [Expr.arguments, Derivation.tokens, List.forall_mem_append]
      exact ⟨he.1, hes.1⟩
    · simp only [Expr.moreArguments, Derivation.tokens, List.forall_mem_append, List.forall_mem_cons]
      exact ⟨spells_token rfl, he.1, hes.1⟩

end

/-! ## Statements -/

theorem Expr.renders_asCall {e : Expr} (hk : e.kind = .call) (h : e.WellFormed .operand) :
    e.asCall.Renders (s := .call) e := by
  cases e with
  | call _ n args => exact renders_callOf h.1 (Expr.renders_arguments args h.2).1
  | _ => cases hk

theorem Condition.renders_rendering {c : Condition} (h : c.WellFormed) :
    c.rendering.Renders (s := .conditional) c := by
  obtain ⟨hop, hl, hr⟩ := h
  obtain ⟨hl', ol, -⟩ := c.lhs.renders_phrase hl
  obtain ⟨hr', or, -⟩ := c.rhs.renders_phrase hr
  rw [Condition.rendering_of hop]
  exact renders_comparison hop (hl'.toExpr (ol rfl)) (hr'.toExpr (or rfl))

mutual

theorem Stmt.renders_rendering (s : Stmt) (h : s.WellFormed) :
    s.rendering.Renders (s := .statement) s := by
  cases s with
  | expr e =>
    have he := Expr.renders_asCall h.1 h.2
    exact ⟨he.1, congrArg Stmt.expr he.2⟩
  | assign _ n v =>
    obtain ⟨hv, -, hroot⟩ := v.renders_phrase h.2
    have hv' := hv.toRoot (hroot (by decide))
    refine ⟨?_, congrArg (Stmt.assign Pos.unset n) hv'.2⟩
    simp only [Stmt.rendering, Derivation.tokens, List.forall_mem_cons]
    exact ⟨spells_name h.1, spells_token rfl, hv'.1⟩
  | block => cases h
  | ifThen _ c b =>
    have hc := Condition.renders_rendering h.1
    have hb := b.renders_rendering h.2
    refine ⟨?_, congrArg₂ (Stmt.ifThen Pos.unset) hc.2 (hb.2 _ Pos.unset)⟩
    simp only [Stmt.rendering, Derivation.tokens, List.forall_mem_cons, List.forall_mem_append]
    exact ⟨spells_token rfl, hc.1, spells_token rfl, hb.1, spells_token rfl, by simp⟩
  | ifElse _ c b b' =>
    have hc := Condition.renders_rendering h.1
    have hb := b.renders_rendering h.2.1
    have hb' := b'.renders_rendering h.2.2
    have htree := congr (congrArg₂ (Stmt.ifElse Pos.unset) hc.2 (hb.2 Pos.unset Pos.unset))
      (hb'.2 Pos.unset Pos.unset)
    refine ⟨?_, htree⟩
    simp only [Stmt.rendering, Derivation.tokens, List.forall_mem_cons, List.forall_mem_append]
    exact ⟨spells_token rfl, hc.1, spells_token rfl, hb.1, spells_token rfl, hb'.1,
      spells_token rfl, by simp⟩
  | loop _ c b =>
    have hc := Condition.renders_rendering h.1
    have hb := b.renders_rendering h.2
    refine ⟨?_, congrArg₂ (Stmt.loop Pos.unset) hc.2 (hb.2 _ Pos.unset)⟩
    simp only [Stmt.rendering, Derivation.tokens, List.forall_mem_cons, List.forall_mem_append]
    exact ⟨spells_token rfl, hc.1, hb.1, spells_token rfl, by simp⟩

theorem Block.renders_rendering (b : Block) (h : b.WellFormed) :
    b.rendering.Renders (s := .block) fun _ => b := by
  cases b with
  | mk _ ss =>
    have hss := Stmt.renders_renderings ss h
    exact ⟨hss.1, fun _ _ => congrArg (Block.mk Pos.unset) hss.2⟩

theorem Stmt.renders_renderings (ss : List Stmt) (h : Stmt.AllWellFormed ss) :
    (Stmt.renderings ss).Renders (s := .statements) ss := by
  cases ss with
  | nil => exact ⟨by simp, rfl⟩
  | cons s ss =>
    have hs := s.renders_rendering h.1
    have hss := Stmt.renders_renderings ss h.2
    refine ⟨?_, congrArg₂ List.cons hs.2 hss.2⟩
    simp only [Stmt.renderings, Derivation.tokens, List.forall_mem_append]
    exact ⟨hs.1, hss.1⟩

end

end ScriptEngine
