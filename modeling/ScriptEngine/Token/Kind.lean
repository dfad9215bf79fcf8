import ScriptEngine.Text

/-!
# Kinds of tokens

The twenty-two kinds have a fixed order, `TokenKind.all`, whose indices are their codes.
`TokenKind.name` is how messages speak of a kind.
-/

namespace ScriptEngine

inductive TokenKind where
  | openParen
  | closeParen
  | comma
  | plus
  | minus
  | star
  | slash
  | equals
  | greater
  | greaterEq
  | less
  | lessEq
  | number
  | string
  | ident
  | ifWord
  | thenWord
  | elseWord
  | endifWord
  | whileWord
  | endwhileWord
  | endOfInput
  deriving DecidableEq

namespace TokenKind

/-- Every kind, in the order of the codes. -/
def all : List TokenKind :=
  [openParen, closeParen, comma, plus, minus, star, slash, equals, greater, greaterEq, less, lessEq,
    number, string, ident, ifWord, thenWord, elseWord, endifWord, whileWord, endwhileWord, endOfInput]

def ofCode? (code : Nat) : Option TokenKind := all[code]?

/-- The text of a kind that has only one, without quotes. -/
def fixedText? : TokenKind → Option Text
  | openParen => Text.ascii "("
  | closeParen => Text.ascii ")"
  | comma => Text.ascii ","
  | plus => Text.ascii "+"
  | minus => Text.ascii "-"
  | star => Text.ascii "*"
  | slash => Text.ascii "/"
  | equals => Text.ascii "="
  | greater => Text.ascii ">"
  | greaterEq => Text.ascii ">="
  | less => Text.ascii "<"
  | lessEq => Text.ascii "<="
  | ifWord => Text.ascii "if"
  | thenWord => Text.ascii "then"
  | elseWord => Text.ascii "else"
  | endifWord => Text.ascii "endif"
  | whileWord => Text.ascii "while"
  | endwhileWord => Text.ascii "endwhile"
  | number | string | ident | endOfInput => none

/-- A fixed text in single quotes, or the class of tokens. -/
def name (k : TokenKind) : Text :=
  match k.fixedText? with
  | some t => Byte.singleQuote :: t ++ [Byte.singleQuote]
  | none =>
    match k with
    | number => Text.ascii "number"
    | string => Text.ascii "string"
    | ident => Text.ascii "identifier"
    | _ => Text.ascii "end of input"

/-- The name for a code, also for one that no kind has. -/
def nameOfCode (code : Nat) : Text := ((ofCode? code).map name).getD (Text.ascii "unknown token")

def isComparison : TokenKind → Bool
  | greater | greaterEq | less | lessEq => true
  | _ => false

def isAdditive : TokenKind → Bool
  | plus | minus => true
  | _ => false

def isMultiplicative : TokenKind → Bool
  | star | slash => true
  | _ => false

/-- The tokens at which a block ends. -/
def endsBlock : TokenKind → Bool
  | endOfInput | elseWord | endifWord | endwhileWord => true
  | _ => false

/-- The name without its first and last byte, which for an operator are its quotes. -/
def symbol (k : TokenKind) : Text := (k.name.drop 1).dropLast

end TokenKind

end ScriptEngine
