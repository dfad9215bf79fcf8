import ScriptEngine.Error

/-!
# Tokens

A token is a kind, the text it was read from, the number last read, and the position of its first
byte. A `TokenSource` hands out tokens one at a time; it may fail instead of giving one. One that is
`Rewindable` answers requests for tokens and for new starts in any order, also after failures.
-/

namespace ScriptEngine

structure Token where
  kind : TokenKind
  /-- The text of the token, for a string what stands between the quotes. -/
  lexeme : Text
  /-- The number of a number token; on any other token the last number before it. -/
  value : Double
  pos : Pos
  deriving DecidableEq

namespace Token

/-- How messages speak of a token that was not expected. -/
def describe (t : Token) : Text :=
  match t.kind with
  | .ident => Text.ascii "identifier '" ++ t.lexeme ++ [Byte.singleQuote]
  | .number => Text.ascii "number " ++ t.lexeme
  | .string => Text.ascii "string \"" ++ t.lexeme ++ [Byte.doubleQuote]
  | k => k.name

/-- The end of an input that nothing else is known of. -/
def atEnd : Token := ⟨.endOfInput, [], Double.zero, Pos.unset⟩

end Token

class TokenSource (σ : Type) where
  next : σ → Except Error Token × σ

/-- Results noted down beforehand, handed out in order. -/
instance : TokenSource (List (Except Error Token)) where
  next
    | [] => (.ok Token.atEnd, [])
    | r :: rs => (r, rs)

/-! ## Starting over -/

/-- A source that can be asked to start over, and shows what it has read last. -/
class Rewindable (σ : Type) extends TokenSource σ where
  restart : σ → Except Error Unit × σ
  lexeme : σ → Text
  value : σ → Double
  tokenPos : σ → Pos

inductive Request where
  | next
  | restart
  deriving DecidableEq

/-- What a request brought, and what the source shows after it. -/
structure Answer where
  /-- The token, none for a restart, or the error. -/
  result : Except Error (Option Token)
  text : Text
  value : Double
  pos : Pos

namespace Rewindable

variable {σ : Type} [Rewindable σ]

def ask (s : σ) : Request → Except Error (Option Token) × σ
  | .next => ((TokenSource.next s).1.map some, (TokenSource.next s).2)
  | .restart => ((restart s).1.map fun _ => none, (restart s).2)

/-- The source after some requests. -/
def after (s : σ) (requests : List Request) : σ := requests.foldl (fun s r => (ask s r).2) s

def answer (s : σ) (r : Request) : Answer :=
  let s' := (ask s r).2
  ⟨(ask s r).1, lexeme s', value s', tokenPos s'⟩

def answers (s : σ) : List Request → List Answer
  | [] => []
  | r :: rs => answer s r :: answers (ask s r).2 rs

end Rewindable

end ScriptEngine
