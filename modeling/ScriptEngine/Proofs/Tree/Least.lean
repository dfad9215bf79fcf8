import ScriptEngine.Proofs.Tree.Rendering

/-!
# Renderings are least

Of all the derivations with a given tree the rendering has the fewest parentheses and is the least
deep (`Derivation.render_atMost`). It does not depend on positions.
-/

namespace ScriptEngine

/-- The rendering of a tree as a phrase of the given class. -/
@[simp] def Nonterminal.render : (s : Nonterminal) → s.Tree → Derivation s
  | block, b => (b Pos.unset).rendering
  | statements, ss => Stmt.renderings ss
  | statement, s => s.rendering
  | conditional, c => c.rendering
  | rootExpr, e => e.phrase.toRoot
  | expr, e => e.phrase.toExpr
  | term, e => e.phrase.toTerm
  | factor, e => e.phrase.toFactor
  | call, e => e.asCall
  | argument, e => e.phrase.toArgument
  | arguments, es => Expr.arguments es
  | moreArguments, es => Expr.moreArguments es

namespace Derivation

/-- The number of pairs of parentheses around expressions. -/
@[simp] def parens {s : Nonterminal} : Derivation s → Nat
  | noStatement | noArgument | endArguments | string _ | number _ | var _ => 0
  | block ss => ss.parens
  | moreStatements s ss => s.parens + ss.parens
  | assign _ _ v => v.parens
  | callStatement c | callFactor c => c.parens
  | ifThen _ c _ b _ => c.parens + b.parens
  | ifElse _ c _ b _ b' _ => c.parens + (b.parens + b'.parens)
  | loop _ c b _ => c.parens + b.parens
  | comparison l _ r => l.parens + r.parens
  | ofExpr e | ofRootExpr e => e.parens
  | ofConditional c => c.parens
  | ofTerm t => t.parens
  | sum t _ e => t.parens + e.parens
  | ofFactor f => f.parens
  | product f _ t => f.parens + t.parens
  | paren _ e _ => e.parens + 1
  | call _ _ as _ => as.parens
  | someArguments a as => a.parens + as.parens
  | nextArgument _ a as => a.parens + as.parens

/-- No deeper, and with no more parentheses. -/
def AtMost {s : Nonterminal} (D D' : Derivation s) : Prop :=
  D.depth ≤ D'.depth ∧ D.parens ≤ D'.parens

end Derivation

/-! ## The class of a tree -/

namespace Phrase

theorem isRoot_of_isOperand {p : Phrase} (h : p.isOperand = true) : p.isRoot = true := by
  cases p with
  | conditional | string => cases h
  | _ => rfl

end Phrase

/-- The tree, taken by itself, is of a class that may stand for `s`. -/
def Nonterminal.Suits : (s : Nonterminal) → s.Tree → Prop
  | expr, e | term, e | factor, e => e.phrase.isOperand = true
  | rootExpr, e => e.phrase.isRoot = true
  | _, _ => True

theorem Derivation.suits {s : Nonterminal} (D : Derivation s) : s.Suits D.tree := by
  induction D with
  | ofExpr e ih => exact Phrase.isRoot_of_isOperand ih
  | ofConditional c =>
    cases c with
    | comparison l op r => exact congrArg Phrase.isRoot (Expr.phrase_comparison _ _ _ op.2)
  | ofTerm t ih | ofFactor t ih | paren _ t _ ih => exact ih
  | sum l op r => exact congrArg Phrase.isOperand (Expr.phrase_sum _ _ _ op.2)
  | product l op r => exact congrArg Phrase.isOperand (Expr.phrase_product _ _ _ op.2)
  | number | var => rfl
  | callFactor c =>
    cases c with
    | call => rfl
  | _ => trivial

/-! ## Least derivations -/

namespace Phrase

variable {p : Phrase}

theorem toExpr_le (h : p.isOperand = true) :
    p.toExpr.depth ≤ p.toTerm.depth + 1 ∧ p.toExpr.parens ≤ p.toTerm.parens := by
  cases p with
  | factor | term => exact ⟨Nat.le_refl _, Nat.le_refl _⟩
  | expr e =>
    simp only [toExpr, toTerm, parenthesized, Derivation.depth, Derivation.parens]
    omega
  | conditional | string => cases h

theorem toTerm_le (h : p.isOperand = true) :
    p.toTerm.depth ≤ p.toFactor.depth + 1 ∧ p.toTerm.parens ≤ p.toFactor.parens := by
  cases p with
  | factor | expr => exact ⟨Nat.le_refl _, Nat.le_refl _⟩
  | term e =>
    simp only [toTerm, toFactor, parenthesized, Derivation.depth, Derivation.parens]
    omega
  | conditional | string => cases h

theorem toFactor_le (h : p.isOperand = true) :
    p.toFactor.depth ≤ p.toExpr.depth + 1 ∧ p.toFactor.parens ≤ p.toExpr.parens + 1 := by
  cases p with
  | factor e =>
    simp only [toFactor, toExpr, Derivation.depth, Derivation.parens]
    omega
  | term | expr => exact ⟨Nat.le_refl _, Nat.le_refl _⟩
  | conditional | string => cases h

theorem toRoot_of_isOperand (h : p.isOperand = true) : p.toRoot = .ofExpr p.toExpr := by
  cases p with
  | conditional | string => cases h
  | _ => rfl

theorem toArgument_of_isRoot (h : p.isRoot = true) : p.toArgument = .ofRootExpr p.toRoot := by
  cases p with
  | string => cases h
  | _ => rfl

end Phrase

theorem Derivation.rendering_tree (D : Derivation .block) (p q : Pos) :
    Block.rendering (D.tree p) = Block.rendering (D.tree q) := by
  cases D
  rfl

/-- No derivation of a tree is less deep, or has fewer parentheses, than its rendering. -/
theorem Derivation.render_atMost {s : Nonterminal} (D : Derivation s) :
    (s.render D.tree).AtMost D := by
  unfold AtMost
  induction D with
  | noStatement | noArgument | endArguments | number | var | string =>
    exact ⟨Nat.le_refl _, Nat.le_refl _⟩
  | block ss ih =>
    simp only [Nonterminal.render, tree, Block.rendering, depth, parens] at ih ⊢
    omega
  | callStatement c ih => exact ih
  | moreStatements s ss ihs ihss =>
    simp only [Nonterminal.render, tree, Stmt.renderings, depth, parens] at ihs ihss ⊢
    omega
  | assign name eq v ih => exact ih
  -- The position in a block's tree may be that of the next token, which its rendering ignores.
  | ifThen i c t b e ihc ihb | loop i c b e ihc ihb =>
    have hb := b.rendering_tree e.1.pos Pos.unset
    simp only [Nonterminal.render, tree, Stmt.rendering, depth, parens, hb] at ihc ihb ⊢
    omega
  | ifElse i c t b o b' e ihc ihb ihb' =>
    have hb := b.rendering_tree o.1.pos Pos.unset
    have hb' := b'.rendering_tree e.1.pos Pos.unset
    simp only [Nonterminal.render, tree, Stmt.rendering, depth, parens, hb, hb'] at ihc ihb ihb' ⊢
    omega
  | comparison l op r ihl ihr =>
    have hc : Condition.rendering (comparison l op r).tree =
        .comparison (Expr.phrase l.tree).toExpr (op.1.kind.operator op.2)
          (Expr.phrase r.tree).toExpr := Condition.rendering_of op.2
    simp only [Nonterminal.render, hc, depth, parens] at ihl ihr ⊢
    omega
  | ofExpr e ih =>
    have he : (Expr.phrase e.tree).toRoot = _ := Phrase.toRoot_of_isOperand e.suits
    simp only [Nonterminal.render, tree, he]
    exact ih
  | ofConditional c ih =>
    cases c with
    | comparison l op r =>
      have hc : Condition.rendering (comparison l op r).tree = _ := Condition.rendering_of op.2
      have he : (Expr.phrase (ofConditional (comparison l op r)).tree).toRoot = _ :=
        congrArg Phrase.toRoot (Expr.phrase_comparison _ _ _ op.2)
      simp only [Nonterminal.render, hc, he] at ih ⊢
      exact ih
  -- By its class a tree is rendered without steps down that the derivation comes back from.
  | ofTerm t ih =>
    have hle := Phrase.toExpr_le (p := Expr.phrase t.tree) t.suits
    simp only [Nonterminal.render, tree, depth, parens] at ih ⊢
    omega
  | sum l op r ihl ihr =>
    have he : (Expr.phrase (sum l op r).tree).toExpr =
        .sum (Expr.phrase l.tree).toTerm (op.1.kind.operator op.2) (Expr.phrase r.tree).toExpr :=
      congrArg Phrase.toExpr (Expr.phrase_sum _ _ _ op.2)
    simp only [Nonterminal.render, he, depth, parens] at ihl ihr ⊢
    omega
  | ofFactor f ih =>
    have hle := Phrase.toTerm_le (p := Expr.phrase f.tree) f.suits
    simp only [Nonterminal.render, tree, depth, parens] at ih ⊢
    omega
  | product l op r ihl ihr =>
    have he : (Expr.phrase (product l op r).tree).toTerm =
        .product (Expr.phrase l.tree).toFactor (op.1.kind.operator op.2)
          (Expr.phrase r.tree).toTerm :=
      congrArg Phrase.toTerm (Expr.phrase_product _ _ _ op.2)
    simp only [Nonterminal.render, he, depth, parens] at ihl ihr ⊢
    omega
  | paren o e c ih =>
    have hle := Phrase.toFactor_le (p := Expr.phrase e.tree) e.suits
    simp only [Nonterminal.render, tree, depth, parens] at ih ⊢
    omega
  | callFactor c ih =>
    cases c with
    | call name o as c =>
      simp only [Nonterminal.render, tree, Expr.asCall, Expr.phrase, Phrase.toFactor, depth, parens]
        at ih ⊢
      omega
  | call name o as c ih => exact ih
  | someArguments a as iha ihas =>
    simp only [Nonterminal.render, tree, Expr.arguments, depth, parens] at iha ihas ⊢
    omega
  | nextArgument comma a as iha ihas =>
    simp only [Nonterminal.render, tree, Expr.moreArguments, depth, parens] at iha ihas ⊢
    omega
  | ofRootExpr e ih =>
    have he : (Expr.phrase e.tree).toArgument = _ := Phrase.toArgument_of_isRoot e.suits
    simp only [Nonterminal.render, tree, he]
    exact ih

/-! ## Positions -/

mutual

theorem Expr.phrase_mapPos (f : Pos → Pos) (e : Expr) : (e.mapPos f).phrase = e.phrase := by
  cases e with
  | number | string | var => rfl
  | binary p op l r | comparison p op l r => simp [l.phrase_mapPos f, r.phrase_mapPos f]
  | call p n args => simp [Expr.arguments_mapPos f args]

theorem Expr.arguments_mapPos (f : Pos → Pos) (es : List Expr) :
    Expr.arguments (Expr.mapPosAll f es) = Expr.arguments es := by
  cases es with
  | nil => rfl
  | cons e es => simp [e.phrase_mapPos f, Expr.moreArguments_mapPos f es]

theorem Expr.moreArguments_mapPos (f : Pos → Pos) (es : List Expr) :
    Expr.moreArguments (Expr.mapPosAll f es) = Expr.moreArguments es := by
  cases es with
  | nil => rfl
  | cons e es => simp [e.phrase_mapPos f, Expr.moreArguments_mapPos f es]

end

theorem Expr.asCall_mapPos (f : Pos → Pos) (e : Expr) : (e.mapPos f).asCall = e.asCall := by
  cases e with
  | call p n args => simp [Expr.asCall, Expr.arguments_mapPos f args]
  | _ => rfl

theorem Condition.rendering_mapPos (f : Pos → Pos) (c : Condition) :
    (c.mapPos f).rendering = c.rendering := by
  simp [Condition.rendering, Expr.phrase_mapPos]

mutual

theorem Stmt.rendering_mapPos (f : Pos → Pos) (s : Stmt) : (s.mapPos f).rendering = s.rendering := by
  cases s with
  | expr e => simp [e.asCall_mapPos f]
  | assign p n v => simp [v.phrase_mapPos f]
  | block b => rfl
  | ifThen p c b | loop p c b =>
    simp only [Stmt.mapPos, Stmt.rendering, c.rendering_mapPos f, b.rendering_mapPos f]
  | ifElse p c b b' =>
    simp only [Stmt.mapPos, Stmt.rendering, c.rendering_mapPos f, b.rendering_mapPos f,
      b'.rendering_mapPos f]

theorem Block.rendering_mapPos (f : Pos → Pos) (b : Block) :
    (b.mapPos f).rendering = b.rendering := by
  cases b with
  | mk p ss => simp [Stmt.renderings_mapPos f ss]

theorem Stmt.renderings_mapPos (f : Pos → Pos) (ss : List Stmt) :
    Stmt.renderings (Stmt.mapPosAll f ss) = Stmt.renderings ss := by
  cases ss with
  | nil => rfl
  | cons s ss => simp [s.rendering_mapPos f, Stmt.renderings_mapPos f ss]

end

/-- Trees that are the same up to positions are rendered alike. -/
theorem Block.rendering_of_erase {b b' : Block} (h : b.erase = b'.erase) :
    b.rendering = b'.rendering := by
  rw [← b.rendering_mapPos fun _ => Pos.unset, ← b'.rendering_mapPos fun _ => Pos.unset]
  exact congrArg Block.rendering h

end ScriptEngine
