import ScriptEngine.Proofs.Grammar.Relabel
import ScriptEngine.Proofs.Lexer.Layout
import ScriptEngine.Proofs.Tree.WellFormed

/-!
# Rendering trees

`Block.rendering` gives a derivation for a tree and `Block.render` the text of it. Parentheses are put
around a left operand, and around a right operand of `*` and `/`, where the grammar would group the
operators in another way without them, and nowhere else (`Phrase.toTerm`, `Phrase.toFactor`). Numbers
are written as their decimal expansions, strings in a quote they do not contain, and blanks only
between tokens that would run together. For a tree that is not well formed some derivation is given.
-/

namespace ScriptEngine

/-! ## Tokens -/

/-- The token of a kind that is written in one way. -/
def TokenKind.token (k : TokenKind) : TokenOf k :=
  ⟨⟨k, k.fixedText?.getD [], Double.zero, Pos.unset⟩, rfl⟩

def TokenKind.operator (k : TokenKind) {p : TokenKind → Bool} (h : p k = true) : TokenIn p :=
  ⟨k.token.1, h⟩

def nameToken (n : Text) : TokenOf .ident := ⟨⟨.ident, n, Double.zero, Pos.unset⟩, rfl⟩

def numberToken (x : Double) : TokenOf .number :=
  ⟨⟨.number, (Double.expansion x.magnitude).text, x, Pos.unset⟩, rfl⟩

def stringToken (s : Text) : TokenOf .string := ⟨⟨.string, s, Double.zero, Pos.unset⟩, rfl⟩

/-! ## Derivations of trees -/

/-- An expression as the class of phrases it is of by itself. -/
inductive Phrase where
  | factor (f : Derivation .factor)
  | term (t : Derivation .term)
  | expr (e : Derivation .expr)
  | conditional (c : Derivation .conditional)
  | string (s : TokenOf .string)

namespace Phrase

instance : Inhabited Phrase := ⟨factor default⟩

/-- Whether the phrase may stand beside an operator. -/
def isOperand : Phrase → Bool
  | factor _ | term _ | expr _ => true
  | conditional _ | string _ => false

/-- Whether the phrase may stand on the right of an assignment. -/
def isRoot : Phrase → Bool
  | string _ => false
  | _ => true

def parenthesized (e : Derivation .expr) : Derivation .factor :=
  .paren TokenKind.openParen.token e TokenKind.closeParen.token

def toExpr : Phrase → Derivation .expr
  | factor f => .ofTerm (.ofFactor f)
  | term t => .ofTerm t
  | expr e => e
  | conditional _ | string _ => default

def toTerm : Phrase → Derivation .term
  | factor f => .ofFactor f
  | term t => t
  | expr e => .ofFactor (parenthesized e)
  | conditional _ | string _ => .ofFactor default

def toFactor : Phrase → Derivation .factor
  | factor f => f
  | term t => parenthesized (.ofTerm t)
  | expr e => parenthesized e
  | conditional _ | string _ => default

def toRoot : Phrase → Derivation .rootExpr
  | conditional c => .ofConditional c
  | p => .ofExpr p.toExpr

def toArgument : Phrase → Derivation .argument
  | string s => .string s
  | p => .ofRootExpr p.toRoot

end Phrase

def callOf (n : Text) (as : Derivation .arguments) : Derivation .call :=
  .call (nameToken n) TokenKind.openParen.token as TokenKind.closeParen.token

mutual

@[simp] def Expr.phrase : Expr → Phrase
  | .number _ x => .factor (.number (numberToken x))
  | .string _ s => .string (stringToken s)
  | .var _ n => .factor (.var (nameToken n))
  | .binary _ op l r =>
    if h : op.isAdditive = true then .expr (.sum l.phrase.toTerm (op.operator h) r.phrase.toExpr)
    else if h : op.isMultiplicative = true then
      .term (.product l.phrase.toFactor (op.operator h) r.phrase.toTerm)
    else default
  | .comparison _ op l r =>
    if h : op.isComparison = true then
      .conditional (.comparison l.phrase.toExpr (op.operator h) r.phrase.toExpr)
    else default
  | .call _ n args => .factor (.callFactor (callOf n (Expr.arguments args)))

@[simp] def Expr.arguments : List Expr → Derivation .arguments
  | [] => .noArgument
  | e :: es => .someArguments e.phrase.toArgument (Expr.moreArguments es)

@[simp] def Expr.moreArguments : List Expr → Derivation .moreArguments
  | [] => .endArguments
  | e :: es => .nextArgument TokenKind.comma.token e.phrase.toArgument (Expr.moreArguments es)

end

def Expr.asCall : Expr → Derivation .call
  | .call _ n args => callOf n (Expr.arguments args)
  | _ => callOf [] .noArgument

def Condition.rendering (c : Condition) : Derivation .conditional :=
  if h : c.op.isComparison = true then
    .comparison c.lhs.phrase.toExpr (c.op.operator h) c.rhs.phrase.toExpr
  else default

mutual

@[simp] def Stmt.rendering : Stmt → Derivation .statement
  | .expr e => .callStatement e.asCall
  | .assign _ n v => .assign (nameToken n) TokenKind.equals.token v.phrase.toRoot
  | .block _ => .callStatement (callOf [] .noArgument)
  | .ifThen _ c b =>
    .ifThen TokenKind.ifWord.token c.rendering TokenKind.thenWord.token b.rendering
      TokenKind.endifWord.token
  | .ifElse _ c b b' =>
    .ifElse TokenKind.ifWord.token c.rendering TokenKind.thenWord.token b.rendering
      TokenKind.elseWord.token b'.rendering TokenKind.endifWord.token
  | .loop _ c b =>
    .loop TokenKind.whileWord.token c.rendering b.rendering TokenKind.endwhileWord.token

@[simp] def Block.rendering : Block → Derivation .block
  | .mk _ ss => .block (Stmt.renderings ss)

@[simp] def Stmt.renderings : List Stmt → Derivation .statements
  | [] => .noStatement
  | s :: ss => .moreStatements s.rendering (Stmt.renderings ss)

end

section Classes

variable {op : TokenKind} (pos : Pos) (l r : Expr)

theorem Expr.phrase_sum (h : op.isAdditive = true) : (Expr.binary pos op l r).phrase =
    .expr (.sum l.phrase.toTerm (op.operator h) r.phrase.toExpr) := dif_pos h

theorem Expr.phrase_product (h : op.isMultiplicative = true) : (Expr.binary pos op l r).phrase =
    .term (.product l.phrase.toFactor (op.operator h) r.phrase.toTerm) := by
  have hadd : ¬ op.isAdditive = true := by
    revert h
    cases op <;> decide
  rw [Expr.phrase, dif_neg hadd, dif_pos h]

theorem Expr.phrase_comparison (h : op.isComparison = true) : (Expr.comparison pos op l r).phrase =
    .conditional (.comparison l.phrase.toExpr (op.operator h) r.phrase.toExpr) := dif_pos h

theorem Condition.rendering_of {c : Condition} (h : c.op.isComparison = true) : c.rendering =
    .comparison c.lhs.phrase.toExpr (c.op.operator h) c.rhs.phrase.toExpr := dif_pos h

end Classes

/-! ## Texts -/

/-- The double quote, unless the text contains one. -/
def Text.quote (s : Text) : UInt8 :=
  if Byte.doubleQuote ∈ s then Byte.singleQuote else Byte.doubleQuote

namespace Token

/-- How a token is written. -/
def raw (t : Token) : Text :=
  if t.kind = .string then t.lexeme.quote :: (t.lexeme ++ [t.lexeme.quote]) else t.lexeme

/-- A blank where the token and the next one would run together. -/
def gap (t : Token) (ts : List Token) : Text :=
  if ts.head?.any (t.kind.clashes ·.kind) then [Byte.space] else []

def render : List Token → Text
  | [] => []
  | t :: ts => t.raw ++ (t.gap ts ++ render ts)

end Token

def Block.render (b : Block) : Text := Token.render b.rendering.tokens

/-! ## Tokens can be written -/

theorem Layout.indent {ts : List Token} {gap s : Text} (hg : gap.IsBlank) (h : Layout ts s) :
    Layout ts (gap ++ s) := by
  cases h with
  | nil hg' => exact .nil fun b hb => (List.mem_append.mp hb).elim (hg b) (hg' b)
  | cons hg' hs hc hl =>
    rw [← List.append_assoc]
    exact .cons (fun b hb => (List.mem_append.mp hb).elim (hg b) (hg' b)) hs hc hl

theorem Token.isBlank_gap (t : Token) (ts : List Token) : (t.gap ts).IsBlank := by
  unfold gap
  split
  · intro b hb
    rw [List.mem_singleton.mp hb]
    rfl
  · exact fun b hb => by cases hb

theorem layout_render {ts : List Token} (h : ∀ t ∈ ts, Spells t.raw t) :
    Layout ts (Token.render ts) := by
  induction ts with
  | nil => exact .nil fun b hb => by cases hb
  | cons t ts ih =>
    have hl := (ih fun u hu => h u (List.mem_cons_of_mem _ hu)).indent (t.isBlank_gap ts)
    show Layout (t :: ts) ([] ++ (t.raw ++ (t.gap ts ++ Token.render ts)))
    refine .cons (fun b hb => by cases hb) (h t List.mem_cons_self) ?_ hl
    intro u hu hc
    have : t.gap ts = [Byte.space] := if_pos (by rw [hu]; exact hc)
    exact ⟨Byte.space, by rw [this]; rfl, rfl⟩

theorem spells_token {k : TokenKind} (h : k.fixedText?.isSome = true) :
    Spells k.token.1.raw k.token.1 := by
  obtain ⟨s, hs⟩ := Option.isSome_iff_exists.mp h
  have hk : k ≠ .string := by
    rintro rfl
    cases hs
  have hraw : k.token.1.raw = k.token.1.lexeme := if_neg hk
  rw [hraw]
  refine .fixed ?_
  show k.fixedText? = some (k.fixedText?.getD [])
  rw [hs]
  rfl

theorem spells_name {n : Text} (h : n.IsName) : Spells (nameToken n).1.raw (nameToken n).1 :=
  .name rfl h

theorem spells_number {x : Double} (h : x.IsLiteral) :
    Spells (numberToken x).1.raw (numberToken x).1 := by
  refine .number (n := Double.expansion x.magnitude) rfl (Double.isLiteral_expansion _) rfl ?_
  rw [Double.value?_expansion (Double.magnitude_lt h), Double.ofMagnitude_magnitude h]
  rfl

theorem isQuote_quote (s : Text) : Byte.isQuote s.quote = true := by
  unfold Text.quote
  split <;> rfl

theorem quote_notMem {s : Text} (h : s.IsQuotable) : s.quote ∉ s := by
  unfold Text.quote
  split
  · next hd => exact h.resolve_left (not_not_intro hd)
  · next hd => exact hd

theorem spells_string {s : Text} (h : s.IsQuotable) :
    Spells (stringToken s).1.raw (stringToken s).1 :=
  .string rfl (isQuote_quote s) (quote_notMem h)

end ScriptEngine
