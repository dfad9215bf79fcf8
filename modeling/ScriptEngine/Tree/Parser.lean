import ScriptEngine.Token.Basic
import ScriptEngine.Tree.Basic

/-!
# The parser

A program is a block, and a block is a run of statements up to the end of the input or a word that
closes the construct around it. The parser looks at one token, the cursor's, and asks its source for
the next one only when it has used that up; so of two faults in a source the earlier is reported,
lexical or not.

Blocks, expressions, terms and factors may be nested `nestingLimit` deep. The functions named `…At`
take the number of levels still allowed and recurse on it. Repetitions inside one level are bounded
by `rounds`, which is to be at least the number of tokens.
-/

namespace ScriptEngine

/-- Why a source is no program: the error, and how many tokens precede the one it was found at. -/
structure Rejection where
  index : Nat
  error : Error
  deriving DecidableEq

/-- The token looked at, and where the next ones come from. -/
structure Cursor (σ : Type) where
  current : Token
  index : Nat
  source : σ

/-- Looks at the first token of a source. -/
def Cursor.start {σ : Type} [TokenSource σ] (source : σ) : Except Rejection (Cursor σ) :=
  match TokenSource.next source with
  | (.ok t, s) => .ok ⟨t, 0, s⟩
  | (.error e, _) => .error ⟨0, e⟩

abbrev Parser (σ : Type) := StateT (Cursor σ) (Except Rejection)

namespace Parser

variable {σ : Type} [TokenSource σ]

/-- How deep blocks, expressions, terms and factors may be nested. -/
def nestingLimit : Nat := 10000

/-! ## Single tokens -/

@[inline] def current : Parser σ Token := fun c => .ok (c.current, c)

def advance : Parser σ Unit := fun c =>
  match TokenSource.next c.source with
  | (.ok t, s) => .ok ((), ⟨t, c.index + 1, s⟩)
  | (.error e, _) => .error ⟨c.index + 1, e⟩

def reject {α : Type} (expected found : Text) : Parser σ α := fun c =>
  .error ⟨c.index, (.of (.unexpected expected found) c.current.pos)⟩

/-- The current token is not what the grammar asks for. -/
def unexpected {α : Type} (expected : Text) : Parser σ α := fun c =>
  reject expected c.current.describe c

def tooDeep {α : Type} : Parser σ α :=
  reject (Text.ascii "shallower expression") (Text.ascii "nesting depth limit")

/-- Steps over a token of the given kind. -/
def eat (k : TokenKind) : Parser σ Unit := do
  if (← current).kind = k then advance else unexpected k.name

/-! ## Expressions -/

/-- An operand, and after an operator of the class the rest of the chain, which groups to the right. -/
@[inline] def chain (inClass : TokenKind → Bool) (operand rest : Parser σ Expr) : Parser σ Expr := do
  let lhs ← operand
  let op ← current
  if inClass op.kind then
    advance
    let rhs ← rest
    return .binary op.pos op.kind lhs rhs
  else
    return lhs

/-- An expression, or a comparison of two. -/
@[inline] def rootExpr (expr : Parser σ Expr) : Parser σ Expr := do
  let lhs ← expr
  let op ← current
  if op.kind.isComparison then
    advance
    let rhs ← expr
    return .comparison op.pos op.kind lhs rhs
  else
    return lhs

/-- A string stands only as an argument. -/
@[inline] def argument (expr : Parser σ Expr) : Parser σ Expr := do
  let t ← current
  if t.kind = .string then
    advance
    return .string t.pos t.lexeme
  else
    rootExpr expr

/-- Further arguments, each after a comma; `seen` are those before, the last one first. -/
@[specialize] def moreArguments (expr : Parser σ Expr) : Nat → List Expr → Parser σ (List Expr)
  | 0, seen => return seen.reverse
  | n + 1, seen => do
    if (← current).kind = .comma then
      advance
      let a ← argument expr
      moreArguments expr n (a :: seen)
    else
      return seen.reverse

/-- The arguments of a call, with their parentheses. -/
@[specialize] def arguments (rounds : Nat) (expr : Parser σ Expr) : Parser σ (List Expr) := do
  eat .openParen
  if (← current).kind = .closeParen then
    advance
    return []
  else
    let a ← argument expr
    let args ← moreArguments expr rounds [a]
    eat .closeParen
    return args

@[specialize] def factor (rounds : Nat) (expr : Parser σ Expr) : Parser σ Expr := do
  let t ← current
  match t.kind with
  | .ident =>
    advance
    if (← current).kind = .openParen then
      return .call t.pos t.lexeme (← arguments rounds expr)
    else
      return .var t.pos t.lexeme
  | .number =>
    advance
    return .number t.pos t.value
  | .openParen =>
    advance
    let e ← expr
    eat .closeParen
    return e
  | _ => unexpected (Text.ascii "number, identifier or '('")

mutual

def exprAt (rounds : Nat) : Nat → Parser σ Expr
  | 0 => tooDeep
  | d + 1 => chain TokenKind.isAdditive (termAt rounds d) (exprAt rounds d)

def termAt (rounds : Nat) : Nat → Parser σ Expr
  | 0 => tooDeep
  | d + 1 => chain TokenKind.isMultiplicative (factorAt rounds d) (termAt rounds d)

def factorAt (rounds : Nat) : Nat → Parser σ Expr
  | 0 => tooDeep
  | d + 1 => factor rounds (exprAt rounds d)

end

/-! ## Statements -/

@[specialize] def condition (expr : Parser σ Expr) : Parser σ Condition := do
  let lhs ← expr
  let op ← current
  if op.kind.isComparison then
    advance
    let rhs ← expr
    return ⟨op.pos, op.kind, lhs, rhs⟩
  else
    unexpected (Text.ascii "comparison operator")

@[specialize] def branch (expr : Parser σ Expr) (block : Parser σ Block) : Parser σ Stmt := do
  let t ← current
  eat .ifWord
  let c ← condition expr
  eat .thenWord
  let thenBlock ← block
  if (← current).kind = .elseWord then
    advance
    let elseBlock ← block
    eat .endifWord
    return .ifElse t.pos c thenBlock elseBlock
  else
    eat .endifWord
    return .ifThen t.pos c thenBlock

@[specialize] def loop (expr : Parser σ Expr) (block : Parser σ Block) : Parser σ Stmt := do
  let t ← current
  eat .whileWord
  let c ← condition expr
  let body ← block
  eat .endwhileWord
  return .loop t.pos c body

/-- An assignment or a call, which both begin with a name. -/
@[specialize] def named (rounds : Nat) (expr : Parser σ Expr) : Parser σ Stmt := do
  let t ← current
  advance
  match (← current).kind with
  | .openParen => return .expr (.call t.pos t.lexeme (← arguments rounds expr))
  | .equals =>
    advance
    return .assign t.pos t.lexeme (← rootExpr expr)
  | _ => unexpected (Text.ascii "'=' or '('")

@[specialize] def statement (rounds : Nat) (expr : Parser σ Expr) (block : Parser σ Block) :
    Parser σ Stmt := do
  match (← current).kind with
  | .ident => named rounds expr
  | .ifWord => branch expr block
  | .whileWord => loop expr block
  | _ => unexpected (Text.ascii "statement")

/-- The statements up to the end of a block; `seen` are those before, the last one first. -/
@[specialize] def statements (stmt : Parser σ Stmt) : Nat → List Stmt → Parser σ (List Stmt)
  | 0, seen => return seen.reverse
  | n + 1, seen => do
    if (← current).kind.endsBlock then
      return seen.reverse
    else
      let s ← stmt
      statements stmt n (s :: seen)

def blockAt (rounds : Nat) : Nat → Parser σ Block
  | 0 => tooDeep
  | d + 1 => do
    let t ← current
    let body ← statements (statement rounds (exprAt rounds d) (blockAt rounds d)) rounds []
    return .mk t.pos body

/-- A block, after which nothing may follow. -/
def program (rounds : Nat) : Parser σ Block := do
  let b ← blockAt rounds nestingLimit
  if (← current).kind = .endOfInput then
    return b
  else
    unexpected (Text.ascii "statement or end of input")

/-- Reads a whole source, giving its program and the cursor at its end. -/
def parse (rounds : Nat) (source : σ) : Except Rejection (Block × Cursor σ) := do
  program rounds (← Cursor.start source)

end Parser

end ScriptEngine
