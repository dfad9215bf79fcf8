import ScriptEngine.Token.Basic
import ScriptEngine.Tree.Basic

/-!
# The grammar

`Derivation s` is the type of derivations of phrases of the class `s`, one constructor a production:

    block       = { assign | call | if | while }
    assign      = ident "=" root
    root        = expr | conditional
    conditional = expr (">" | ">=" | "<" | "<=") expr
    expr        = term | term ("+" | "-") expr
    term        = factor | factor ("*" | "/") term
    factor      = number | ident | "(" expr ")" | call
    call        = ident "(" [ arg { "," arg } ] ")"
    arg         = root | string
    if          = "if" conditional "then" block [ "else" block ] "endif"
    while       = "while" conditional block "endwhile"

A derivation holds its tokens, so it has a text (`tokens`), a tree (`tree`) and a number of levels it
nests to (`depth`). Tokens of a wrong kind cannot be put into one.

`startsWith` and `endsAt` say with which tokens a phrase begins and before which it is over; one token
is enough to tell.
-/

namespace ScriptEngine

/-- A token of the kind `k`. -/
abbrev TokenOf (k : TokenKind) := {t : Token // t.kind = k}

/-- A token of a kind in the class `p`. -/
abbrev TokenIn (p : TokenKind → Bool) := {t : Token // p t.kind = true}

/-- The classes of phrases. -/
inductive Nonterminal where
  | block
  | statements
  | statement
  | conditional
  | rootExpr
  | expr
  | term
  | factor
  | call
  | arguments
  | moreArguments
  | argument

inductive Derivation : Nonterminal → Type where
  | block (ss : Derivation .statements) : Derivation .block
  | noStatement : Derivation .statements
  | moreStatements (s : Derivation .statement) (ss : Derivation .statements) :
      Derivation .statements
  | assign (name : TokenOf .ident) (eq : TokenOf .equals) (v : Derivation .rootExpr) :
      Derivation .statement
  | callStatement (c : Derivation .call) : Derivation .statement
  | ifThen (i : TokenOf .ifWord) (c : Derivation .conditional) (t : TokenOf .thenWord)
      (b : Derivation .block) (e : TokenOf .endifWord) : Derivation .statement
  | ifElse (i : TokenOf .ifWord) (c : Derivation .conditional) (t : TokenOf .thenWord)
      (b : Derivation .block) (o : TokenOf .elseWord) (b' : Derivation .block)
      (e : TokenOf .endifWord) : Derivation .statement
  | loop (w : TokenOf .whileWord) (c : Derivation .conditional) (b : Derivation .block)
      (e : TokenOf .endwhileWord) : Derivation .statement
  | comparison (l : Derivation .expr) (op : TokenIn TokenKind.isComparison)
      (r : Derivation .expr) : Derivation .conditional
  | ofExpr (e : Derivation .expr) : Derivation .rootExpr
  | ofConditional (c : Derivation .conditional) : Derivation .rootExpr
  | ofTerm (t : Derivation .term) : Derivation .expr
  | sum (t : Derivation .term) (op : TokenIn TokenKind.isAdditive) (e : Derivation .expr) :
      Derivation .expr
  | ofFactor (f : Derivation .factor) : Derivation .term
  | product (f : Derivation .factor) (op : TokenIn TokenKind.isMultiplicative)
      (t : Derivation .term) : Derivation .term
  | number (n : TokenOf .number) : Derivation .factor
  | var (name : TokenOf .ident) : Derivation .factor
  | paren (o : TokenOf .openParen) (e : Derivation .expr) (c : TokenOf .closeParen) :
      Derivation .factor
  | callFactor (c : Derivation .call) : Derivation .factor
  | call (name : TokenOf .ident) (o : TokenOf .openParen) (as : Derivation .arguments)
      (c : TokenOf .closeParen) : Derivation .call
  | noArgument : Derivation .arguments
  | someArguments (a : Derivation .argument) (as : Derivation .moreArguments) :
      Derivation .arguments
  | endArguments : Derivation .moreArguments
  | nextArgument (comma : TokenOf .comma) (a : Derivation .argument)
      (as : Derivation .moreArguments) : Derivation .moreArguments
  | ofRootExpr (e : Derivation .rootExpr) : Derivation .argument
  | string (s : TokenOf .string) : Derivation .argument

instance (k : TokenKind) : Inhabited (TokenOf k) := ⟨⟨k, [], Double.zero, Pos.unset⟩, rfl⟩

instance : Inhabited (TokenIn TokenKind.isComparison) := ⟨⟨.less, [], Double.zero, Pos.unset⟩, rfl⟩

instance : Inhabited (Derivation .factor) := ⟨.number default⟩

instance : Inhabited (Derivation .expr) := ⟨.ofTerm (.ofFactor default)⟩

instance : Inhabited (Derivation .conditional) := ⟨.comparison default default default⟩

instance : Inhabited (Derivation .block) := ⟨.block .noStatement⟩

/-- What a phrase stands for. A block stands at its first token, so an empty one has to be told the
position of what follows it. -/
abbrev Nonterminal.Tree : Nonterminal → Type
  | block => Pos → Block
  | statements => List Stmt
  | statement => Stmt
  | conditional => Condition
  | rootExpr | expr | term | factor | call | argument => Expr
  | arguments | moreArguments => List Expr

/-- The position of the first of `ts`, or the one given. -/
def firstPos (ts : List Token) (next : Pos) : Pos := (ts.head?.map Token.pos).getD next

namespace Derivation

/-! ## Text, depth and tree -/

@[simp] def tokens {s : Nonterminal} : Derivation s → List Token
  | block ss => ss.tokens
  | noStatement | noArgument | endArguments => []
  | moreStatements s ss => s.tokens ++ ss.tokens
  | assign name eq v => name.1 :: eq.1 :: v.tokens
  | callStatement c | callFactor c => c.tokens
  | ifThen i c t b e => i.1 :: (c.tokens ++ t.1 :: (b.tokens ++ [e.1]))
  | ifElse i c t b o b' e =>
    i.1 :: (c.tokens ++ t.1 :: (b.tokens ++ o.1 :: (b'.tokens ++ [e.1])))
  | loop w c b e => w.1 :: (c.tokens ++ (b.tokens ++ [e.1]))
  | comparison l op r => l.tokens ++ op.1 :: r.tokens
  | ofExpr e | ofRootExpr e => e.tokens
  | ofConditional c => c.tokens
  | ofTerm t => t.tokens
  | sum t op e => t.tokens ++ op.1 :: e.tokens
  | ofFactor f => f.tokens
  | product f op t => f.tokens ++ op.1 :: t.tokens
  | number n => [n.1]
  | var name => [name.1]
  | paren o e c => o.1 :: (e.tokens ++ [c.1])
  | call name o as c => name.1 :: o.1 :: (as.tokens ++ [c.1])
  | someArguments a as => a.tokens ++ as.tokens
  | nextArgument comma a as => comma.1 :: (a.tokens ++ as.tokens)
  | string s => [s.1]

/-- How many blocks, expressions, terms and factors are nested in one another. -/
@[simp] def depth {s : Nonterminal} : Derivation s → Nat
  | block ss => ss.depth + 1
  | noStatement | noArgument | endArguments | string _ => 0
  | moreStatements s ss => max s.depth ss.depth
  | assign _ _ v => v.depth
  | callStatement c => c.depth
  | ifThen _ c _ b _ => max c.depth b.depth
  | ifElse _ c _ b _ b' _ => max c.depth (max b.depth b'.depth)
  | loop _ c b _ => max c.depth b.depth
  | comparison l _ r => max l.depth r.depth
  | ofExpr e | ofRootExpr e => e.depth
  | ofConditional c => c.depth
  | ofTerm t => t.depth + 1
  | sum t _ e => max t.depth e.depth + 1
  | ofFactor f => f.depth + 1
  | product f _ t => max f.depth t.depth + 1
  | number _ | var _ => 1
  | paren _ e _ => e.depth + 1
  | callFactor c => c.depth + 1
  | call _ _ as _ => as.depth
  | someArguments a as => max a.depth as.depth
  | nextArgument _ a as => max a.depth as.depth

@[simp] def tree : {s : Nonterminal} → Derivation s → s.Tree
  | _, block ss => fun next => .mk (firstPos ss.tokens next) ss.tree
  | _, noStatement => ([] : List Stmt)
  | _, moreStatements s ss => s.tree :: ss.tree
  | _, assign name _ v => Stmt.assign name.1.pos name.1.lexeme v.tree
  | _, callStatement c => Stmt.expr c.tree
  | _, ifThen i c _ b e => Stmt.ifThen i.1.pos c.tree (b.tree e.1.pos)
  | _, ifElse i c _ b o b' e => Stmt.ifElse i.1.pos c.tree (b.tree o.1.pos) (b'.tree e.1.pos)
  | _, loop w c b e => Stmt.loop w.1.pos c.tree (b.tree e.1.pos)
  | _, comparison l op r => (⟨op.1.pos, op.1.kind, l.tree, r.tree⟩ : Condition)
  | _, ofExpr e => e.tree
  | _, ofConditional c => Condition.toExpr c.tree
  | _, ofTerm t => t.tree
  | _, sum t op e => Expr.binary op.1.pos op.1.kind t.tree e.tree
  | _, ofFactor f => f.tree
  | _, product f op t => Expr.binary op.1.pos op.1.kind f.tree t.tree
  | _, number n => Expr.number n.1.pos n.1.value
  | _, var name => Expr.var name.1.pos name.1.lexeme
  | _, paren _ e _ => e.tree
  | _, callFactor c => c.tree
  | _, call name _ as _ => Expr.call name.1.pos name.1.lexeme as.tree
  | _, noArgument => ([] : List Expr)
  | _, someArguments a as => a.tree :: as.tree
  | _, endArguments => ([] : List Expr)
  | _, nextArgument _ a as => a.tree :: as.tree
  | _, ofRootExpr e => e.tree
  | _, string s => Expr.string s.1.pos s.1.lexeme

end Derivation

/-! ## First tokens -/

def TokenKind.startsStatement : TokenKind → Bool
  | ident | ifWord | whileWord => true
  | _ => false

def TokenKind.startsExpr : TokenKind → Bool
  | ident | number | openParen => true
  | _ => false

namespace Nonterminal

/-- The classes whose phrases may be empty. -/
def nullable : Nonterminal → Bool
  | block | statements | arguments | moreArguments => true
  | _ => false

/-- The kinds of token a phrase can begin with. -/
def startsWith : Nonterminal → TokenKind → Bool
  | block, k | statements, k | statement, k => k.startsStatement
  | conditional, k | rootExpr, k | expr, k | term, k | factor, k => k.startsExpr
  | call, k => k == .ident
  | arguments, k | argument, k => k == .string || k.startsExpr
  | moreArguments, k => k == .comma

/-- Whether a phrase is over before a token of kind `k`: none of its class goes on with it. -/
def endsAt : Nonterminal → TokenKind → Bool
  | block, k | statements, k => k.endsBlock
  | statement, k | rootExpr, k | argument, k =>
    !(k == .openParen || k.isMultiplicative || k.isAdditive || k.isComparison)
  | conditional, k | expr, k => !(k == .openParen || k.isMultiplicative || k.isAdditive)
  | term, k => !(k == .openParen || k.isMultiplicative)
  | factor, k => !(k == .openParen)
  | call, _ => true
  | arguments, k | moreArguments, k => k == .closeParen

end Nonterminal

theorem TokenKind.ne_end {p : TokenKind → Bool} {k : TokenKind} (h : p k = true)
    (hp : p .endOfInput = false) : k ≠ .endOfInput := by
  rintro rfl
  rw [hp] at h
  cases h

namespace Derivation

theorem exists_first {s : Nonterminal} (D : Derivation s) (hs : s.nullable = false) :
    ∃ t ts, D.tokens = t :: ts ∧ s.startsWith t.kind = true := by
  induction D with
  | block | noStatement | moreStatements | noArgument | someArguments | endArguments | nextArgument =>
    cases hs
  | comparison l op r ihl =>
    obtain ⟨t, ts, e, h⟩ := ihl rfl
    exact ⟨t, ts ++ op.1 :: r.tokens, by simp [tokens, e], h⟩
  | sum l op r ihl =>
    obtain ⟨t, ts, e, h⟩ := ihl rfl
    exact ⟨t, ts ++ op.1 :: r.tokens, by simp [tokens, e], h⟩
  | product l op r ihl =>
    obtain ⟨t, ts, e, h⟩ := ihl rfl
    exact ⟨t, ts ++ op.1 :: r.tokens, by simp [tokens, e], h⟩
  | callStatement c ih | callFactor c ih =>
    obtain ⟨t, ts, e, h⟩ := ih rfl
    have hk : t.kind = .ident := by simpa [Nonterminal.startsWith] using h
    exact ⟨t, ts, e, by rw [hk]; rfl⟩
  | ofRootExpr r ih =>
    obtain ⟨t, ts, e, h⟩ := ih rfl
    exact ⟨t, ts, e, by rw [Nonterminal.startsWith, Bool.or_eq_true]; exact .inr h⟩
  | ofExpr e ih | ofConditional c ih | ofTerm t ih | ofFactor f ih => exact ih rfl
  | assign name | var name | call name => exact ⟨name.1, _, rfl, by rw [name.2]; rfl⟩
  | ifThen i | ifElse i => exact ⟨i.1, _, rfl, by rw [i.2]; rfl⟩
  | loop w => exact ⟨w.1, _, rfl, by rw [w.2]; rfl⟩
  | number n => exact ⟨n.1, _, rfl, by rw [n.2]; rfl⟩
  | paren o => exact ⟨o.1, _, rfl, by rw [o.2]; rfl⟩
  | string s => exact ⟨s.1, _, rfl, by rw [s.2]; rfl⟩

theorem length_tokens_pos {s : Nonterminal} (D : Derivation s) (hs : s.nullable = false) :
    0 < D.tokens.length := by
  obtain ⟨t, ts, e, -⟩ := D.exists_first hs
  simp [e]

/-- The end of the input is no part of a phrase. -/
theorem kind_ne_end {s : Nonterminal} (D : Derivation s) :
    ∀ t ∈ D.tokens, t.kind ≠ .endOfInput := by
  induction D with
  | comparison l op r | sum l op r | product l op r =>
    have := TokenKind.ne_end op.2 rfl
    simp only [tokens, List.mem_append, List.mem_cons]
    grind
  | _ =>
    simp only [tokens, List.mem_append, List.mem_cons, List.not_mem_nil, or_false]
    grind

end Derivation

/-! ## What ends a phrase -/

namespace Nonterminal

variable {k : TokenKind}

theorem endsAt_of_isMultiplicative (h : k.isMultiplicative = true) :
    factor.endsAt k = true ∧ term.endsAt k = false := by
  revert h; cases k <;> decide

theorem endsAt_of_isAdditive (h : k.isAdditive = true) :
    term.endsAt k = true ∧ expr.endsAt k = false := by
  revert h; cases k <;> decide

theorem endsAt_of_isComparison (h : k.isComparison = true) :
    expr.endsAt k = true ∧ rootExpr.endsAt k = false := by
  revert h; cases k <;> decide

theorem endsAt_of_startsStatement (h : k.startsStatement = true) :
    statement.endsAt k = true ∧ statements.endsAt k = false := by
  revert h; cases k <;> decide

theorem endsAt_of_endsBlock (h : k.endsBlock = true) : statement.endsAt k = true := by
  revert h; cases k <;> decide

theorem endsAt_factor (h : term.endsAt k = true) : factor.endsAt k = true := by
  revert h; cases k <;> decide

theorem endsAt_term (h : expr.endsAt k = true) : term.endsAt k = true := by
  revert h; cases k <;> decide

theorem endsAt_expr (h : rootExpr.endsAt k = true) : expr.endsAt k = true := by
  revert h; cases k <;> decide

/-- What comes after a phrase does not belong to it. -/
def Stops (s : Nonterminal) (r : List Token) : Prop := ∀ t ∈ r.head?, s.endsAt t.kind = true

@[simp] theorem stops_cons {s : Nonterminal} {t : Token} {ts : List Token} :
    s.Stops (t :: ts) ↔ s.endsAt t.kind = true := by simp [Stops]

theorem Stops.mono {s s' : Nonterminal} {r : List Token}
    (h : ∀ k, s.endsAt k = true → s'.endsAt k = true) (hr : s.Stops r) : s'.Stops r :=
  fun t ht => h _ (hr t ht)

/-- A statement is over where the next one begins, and at the end of the block. -/
theorem stops_statements {r : List Token} (ss : Derivation .statements) (hr : statements.Stops r) :
    statement.Stops (ss.tokens ++ r) := by
  cases ss with
  | noStatement => exact Stops.mono (s := statements) (fun _ => endsAt_of_endsBlock) hr
  | moreStatements s ss =>
    obtain ⟨t, ts, e, h⟩ := s.exists_first rfl
    simp only [Derivation.tokens, e, List.cons_append, stops_cons]
    exact (endsAt_of_startsStatement h).1

theorem stops_block {r : List Token} (b : Derivation .block) (hr : statements.Stops r) :
    conditional.Stops (b.tokens ++ r) := by
  cases b with
  | block ss => exact (stops_statements ss hr).mono fun _ => endsAt_expr

/-- An argument is over at a comma and at the closing parenthesis. -/
theorem stops_moreArguments {r : List Token} (as : Derivation .moreArguments)
    (hr : moreArguments.Stops r) : argument.Stops (as.tokens ++ r) := by
  cases as with
  | endArguments =>
    intro t ht
    have hk : t.kind = .closeParen := by simpa [endsAt] using hr t ht
    rw [hk]; rfl
  | nextArgument comma a as =>
    simp only [Derivation.tokens, List.cons_append, stops_cons, comma.2]
    rfl

end Nonterminal

/-- A phrase that is over before tokens of the kind `k` is over before this one. -/
theorem TokenOf.stops {s : Nonterminal} {k : TokenKind} (t : TokenOf k) (ts : List Token)
    (h : s.endsAt k = true) : s.Stops (t.1 :: ts) := by
  rw [Nonterminal.stops_cons, t.2]; exact h

end ScriptEngine
